/-
**Printing numbers.**

`printint` and the format loop of `kernel/printf.c` and `user/printf.c`.  The two loops read a
format in the same way; the kernel's `printint` takes a `long long` and the user library's an `int`,
to which an argument is converted.  Both fill a buffer of 16 characters from the end of the number,
and a store past it is `none` here.  The arguments are the values of the 64-bit slots of the
`va_list`.

Main results:

* `printf_exact`, `vprintf_exact` — which conversions print the number;
* `printf_overruns`, `vprintf_truncates` — some that do not.
-/

import Mathlib

set_option autoImplicit false

namespace CsklubOs

namespace Printf

/-! ### The code -/

/-- The digit loop of `printint` with room for `room` characters; `buf` has the last character
first. -/
def digitLoop (digits : List Char) (base : ℕ) : ℕ → ℕ → List Char → Option (List Char)
  | 0, _, _ => none
  | room + 1, x, buf =>
    let buf := digits.getD (x % base) '0' :: buf
    if x / base = 0 then some buf else digitLoop digits base room (x / base) buf

/-- `printint` for a number of `w` bits: the characters in the order in which they are written. -/
def printint {w : ℕ} (digits : List Char) (xx : BitVec w) (base : ℕ) (sign : Bool) :
    Option (List Char) :=
  let neg := sign && decide (xx.toInt < 0)
  let x := if neg then -xx else xx
  (digitLoop digits base 16 x.toNat []).bind fun buf =>
    if neg then if buf.length < 16 then some ('-' :: buf) else none else some buf

def printptr (digits : List Char) (x : BitVec 64) : List Char :=
  '0' :: 'x' :: (List.range 16).map fun i => digits.getD ((x <<< (4 * i)) >>> 60).toNat '0'

/-- Two pieces of output, one after the other. -/
def andThen (out rest : Option (List Char)) : Option (List Char) :=
  out.bind fun o => rest.map (o ++ ·)

/-- `va_arg(ap, int)`, as it is passed on. -/
def vaInt (a : BitVec 64) : BitVec 64 := (a.setWidth 32).signExtend 64

/-- The arguments after the first. -/
def next (ap : ℕ → BitVec 64) (k : ℕ) : BitVec 64 := ap (k + 1)

section

variable (putint : BitVec 64 → ℕ → Bool → Option (List Char)) (digits : List Char)
  (str : BitVec 64 → List Char)

/-- The loop over a format.  `str` gives the string at an address; the arguments are taken from
`ap`. -/
def format : List Char → (ℕ → BitVec 64) → Option (List Char)
  | '%' :: 'd' :: fmt, ap => andThen (putint (vaInt (ap 0)) 10 true) (format fmt (next ap))
  | '%' :: 'l' :: 'd' :: fmt, ap => andThen (putint (ap 0) 10 true) (format fmt (next ap))
  | '%' :: 'l' :: 'l' :: 'd' :: fmt, ap => andThen (putint (ap 0) 10 true) (format fmt (next ap))
  | '%' :: 'u' :: fmt, ap => andThen (putint (vaInt (ap 0)) 10 false) (format fmt (next ap))
  | '%' :: 'l' :: 'u' :: fmt, ap => andThen (putint (ap 0) 10 false) (format fmt (next ap))
  | '%' :: 'l' :: 'l' :: 'u' :: fmt, ap => andThen (putint (ap 0) 10 false) (format fmt (next ap))
  | '%' :: 'x' :: fmt, ap => andThen (putint (vaInt (ap 0)) 16 false) (format fmt (next ap))
  | '%' :: 'l' :: 'x' :: fmt, ap => andThen (putint (ap 0) 16 false) (format fmt (next ap))
  | '%' :: 'l' :: 'l' :: 'x' :: fmt, ap => andThen (putint (ap 0) 16 false) (format fmt (next ap))
  | '%' :: 'p' :: fmt, ap => andThen (some (printptr digits (ap 0))) (format fmt (next ap))
  | '%' :: 's' :: fmt, ap =>
    andThen (some (if ap 0 = 0 then "(null)".toList else str (ap 0))) (format fmt (next ap))
  | '%' :: '%' :: fmt, ap => andThen (some ['%']) (format fmt ap)
  | '%' :: c :: fmt, ap => andThen (some ['%', c]) (format fmt ap)
  | ['%'], _ => some []
  | c :: fmt, ap => andThen (some [c]) (format fmt ap)
  | [], _ => some []

end

end Printf

open Printf Nat

namespace Kernel

def digits : List Char := "0123456789abcdef".toList

def printint (xx : BitVec 64) : ℕ → Bool → Option (List Char) := Printf.printint digits xx

def printf : (BitVec 64 → List Char) → List Char → (ℕ → BitVec 64) → Option (List Char) :=
  format printint digits

end Kernel

namespace User

def digits : List Char := "0123456789ABCDEF".toList

/-- The parameter is an `int`. -/
def printint (xx : BitVec 64) :
    ℕ → Bool → Option (List Char) := Printf.printint digits (xx.setWidth 32)

def vprintf : (BitVec 64 → List Char) → List Char → (ℕ → BitVec 64) → Option (List Char) :=
  format printint digits

end User

namespace Printf

/-! ### What is printed -/

/-- The canonical numeral of a number; `up` is applied to the digits. -/
def numeral (up : Char → Char) (base : ℕ) (n : ℤ) : List Char :=
  (if n < 0 then ['-'] else []) ++ (Nat.toDigits base n.natAbs).map up

/-- The digits of a base are those of `Nat.digitChar`. -/
def IsTable (digits : List Char) (up : Char → Char) : Prop :=
  ∀ d < 16, digits.getD d '0' = up (Nat.digitChar d)

section

variable {digits : List Char} {up : Char → Char} {base : ℕ}

theorem digitLoop_eq (ht : IsTable digits up) (hbase : 1 < base) (hle : base ≤ 16) (room x : ℕ)
    (buf : List Char) : digitLoop digits base room x buf =
      if (Nat.toDigits base x).length ≤ room then some ((Nat.toDigits base x).map up ++ buf) else
        none := by
  induction room generalizing x buf with
  | zero => rw [digitLoop, if_neg (not_le.2 length_toDigits_pos)]
  | succ room ih =>
    have hdigit := ht (x % base) ((mod_lt x (by omega)).trans_le hle)
    rw [digitLoop, hdigit]
    by_cases hx : x < base
    · simp [toDigits_of_lt_base hx, div_eq_of_lt hx, mod_eq_of_lt hx]
    · have hdiv : x / base ≠ 0 := (div_pos (not_lt.1 hx) (by omega)).ne'
      simp [toDigits_of_base_le hbase (not_lt.1 hx), hdiv, ih]

/-- The number that is printed. -/
def value {w : ℕ} (sign : Bool) (xx : BitVec w) : ℤ := if sign then xx.toInt else xx.toNat

/-- **`printint` prints the numeral**, if that has at most 16 characters. -/
theorem printint_eq {w : ℕ} (ht : IsTable digits up) (hbase : 1 < base) (hle : base ≤ 16)
    (xx : BitVec w) (sign : Bool) : printint digits xx base sign =
      if (numeral up base (value sign xx)).length ≤ 16 then some (numeral up base (value sign xx))
      else none := by
  have hx : (if sign && decide (xx.toInt < 0) then -xx else xx).toNat = (value sign xx).natAbs := by
    rw [value]
    cases sign with
    | false => simp
    | true =>
      have hcond := BitVec.toInt_eq_toNat_cond xx
      by_cases hneg : xx.toInt < 0
      · simp only [hneg, decide_true, Bool.and_true, if_true, BitVec.toNat_neg]
        split at hcond
        · omega
        · rw [mod_eq_of_lt (by omega)]
          omega
      · simp only [hneg, decide_false, Bool.and_false, Bool.false_eq_true, if_false, if_true]
        split at hcond <;> omega
  have hneg : (sign && decide (xx.toInt < 0)) = decide (value sign xx < 0) := by
    cases sign <;> simp [value]
  rw [printint, hx, digitLoop_eq ht hbase hle, hneg, numeral]
  by_cases hv : value sign xx < 0
  · simp [hv]
    split_ifs <;> simp <;> omega
  · simp [hv]

/-- Different digits are different characters, and none of them is the minus sign. -/
def Readable (up : Char → Char) : Prop :=
  ∀ d < 16, up (Nat.digitChar d) ≠ '-' ∧
    ∀ e < 16, up (Nat.digitChar d) = up (Nat.digitChar e) → d = e

theorem map_toDigits_inj (hup : Readable up) (hbase : 1 < base) (hle : base ≤ 16) {x y : ℕ}
    (h : (Nat.toDigits base x).map up = (Nat.toDigits base y).map up) : x = y := by
  induction x using Nat.strong_induction_on generalizing y with
  | h x ih =>
    rw [toDigits_eq_if (n := x) hbase, toDigits_eq_if (n := y) hbase] at h
    have hlen := congrArg List.length h
    split_ifs at h hlen with hx hy hy
    · exact (hup x (by omega)).2 y (by omega) (List.cons.inj h).1
    · simp at hlen
    · simp at hlen
    · rw [List.map_append, List.map_append] at h
      obtain ⟨hdiv, hmod⟩ := List.append_inj' h rfl
      have hlt := fun z => (mod_lt z (by omega : base > 0)).trans_le hle
      rw [← div_add_mod x base, ih (x / base) (div_lt_self (by omega) hbase) hdiv,
        (hup _ (hlt x)).2 _ (hlt y) (List.cons.inj hmod).1, div_add_mod]

theorem numeral_inj (hup : Readable up) (hbase : 1 < base) (hle : base ≤ 16) {n m : ℤ}
    (h : numeral up base n = numeral up base m) : n = m := by
  -- the first character tells the sign
  have hhead : ∀ x cs, (Nat.toDigits base x).map up ≠ '-' :: cs := by
    intro x cs hx
    induction x using Nat.strong_induction_on generalizing cs with
    | h x ih =>
      rw [toDigits_eq_if hbase] at hx
      split_ifs at hx with hlt
      · exact (hup x (by omega)).1 (List.cons.inj hx).1
      · cases hd : (Nat.toDigits base (x / base)).map up with
        | nil => exact toDigits_ne_nil (List.map_eq_nil_iff.1 hd)
        | cons c cs' =>
          rw [List.map_append, hd] at hx
          exact ih _ (div_lt_self (by omega) hbase) cs' ((List.cons.inj hx).1 ▸ hd)
  rw [numeral, numeral] at h
  split_ifs at h with hn hm hm
  · have habs := map_toDigits_inj hup hbase hle (List.cons.inj h).2
    omega
  · exact absurd h.symm (hhead _ _)
  · exact absurd h (hhead _ _)
  · have habs := map_toDigits_inj hup hbase hle h
    omega

/-- **`printint` prints the numeral of `n`** iff that has at most 16 characters and `n` is the
number. -/
theorem printint_eq_some_iff {w : ℕ} (ht : IsTable digits up) (hup : Readable up) (hbase : 1 < base)
    (hle : base ≤ 16) {xx : BitVec w} {sign : Bool} {n : ℤ} :
    printint digits xx base sign = some (numeral up base n) ↔
      (numeral up base n).length ≤ 16 ∧ value sign xx = n := by
  rw [printint_eq ht hbase hle]
  constructor
  · intro h
    split_ifs at h with hlen
    have heq := numeral_inj hup hbase hle (Option.some.inj h)
    exact ⟨heq ▸ hlen, heq⟩
  · rintro ⟨hlen, rfl⟩
    rw [if_pos hlen]

end

/-! ### The conversions -/

/-- The letter of a conversion, and the size of its argument. -/
inductive Kind
  | d
  | u
  | x

inductive Size
  | int
  | long
  | longlong

/-- `%d`, `%ld`, `%lld`, `%u`, `%lu`, `%llu`, `%x`, `%lx` and `%llx`. -/
structure Conv where
  size : Size
  kind : Kind

namespace Conv

def text (c : Conv) : List Char :=
  '%' :: (match c.size with
    | .int => []
    | .long => ['l']
    | .longlong => ['l', 'l']) ++ [match c.kind with
    | .d => 'd'
    | .u => 'u'
    | .x => 'x']

def base (c : Conv) : ℕ :=
  match c.kind with
  | .x => 16
  | _ => 10

def sign (c : Conv) : Bool :=
  match c.kind with
  | .d => true
  | _ => false

/-- The argument as a number of the width and the sign of the conversion. -/
def arg (c : Conv) (a : BitVec 64) : ℤ :=
  match c.size with
  | .int => value c.sign (a.setWidth 32)
  | _ => value c.sign a

/-- What is passed to `printint`. -/
def passed (c : Conv) (a : BitVec 64) : BitVec 64 :=
  match c.size with
  | .int => vaInt a
  | _ => a

end Conv

variable {putint : BitVec 64 → ℕ → Bool → Option (List Char)} {digits : List Char}
  {str : BitVec 64 → List Char} {fmt : List Char} {ap : ℕ → BitVec 64}

theorem format_conv (c : Conv) : format putint digits str (c.text ++ fmt) ap =
    andThen (putint (c.passed (ap 0)) c.base c.sign) (format putint digits str fmt (next ap)) := by
  obtain ⟨size, kind⟩ := c
  cases size <;> cases kind <;> rfl

theorem Conv.base_mem (c : Conv) : 10 ≤ c.base ∧ c.base ≤ 16 := by
  obtain ⟨size, kind⟩ := c
  cases kind <;> simp [base]

theorem toInt_vaInt (a : BitVec 64) : (vaInt a).toInt = (a.setWidth 32).toInt :=
  BitVec.toInt_signExtend_of_le (by decide)

theorem toNat_vaInt (a : BitVec 64) : (vaInt a).toNat =
    if (a.setWidth 32).toNat < 2 ^ 31 then (a.setWidth 32).toNat
    else (a.setWidth 32).toNat + (2 ^ 64 - 2 ^ 32) := by
  rw [vaInt, BitVec.toNat_signExtend, BitVec.msb_eq_decide]
  generalize a.setWidth 32 = b
  have hlt := b.isLt
  split_ifs with h <;> simp at h ⊢ <;> omega

theorem setWidth_vaInt (a : BitVec 64) : (vaInt a).setWidth 32 = a.setWidth 32 := by
  ext i hi
  rw [BitVec.getElem_setWidth, vaInt, BitVec.getLsbD_signExtend]
  simp [hi, hi.trans (by decide : 32 < 64)]

theorem toInt_setWidth_eq_iff (a : BitVec 64) :
    (a.setWidth 32).toInt = a.toInt ↔ -2 ^ 31 ≤ a.toInt ∧ a.toInt < 2 ^ 31 := by
  have hbmod := BitVec.toInt_eq_toNat_bmod a
  rw [BitVec.toInt_setWidth]
  simp only [Int.bmod] at hbmod ⊢
  omega

end Printf

namespace Kernel

theorem isTable_digits : IsTable digits id := by
  unfold IsTable
  decide

theorem readable_id : Readable id := by
  unfold Readable
  decide

theorem value_passed_iff (c : Conv) (a : BitVec 64) : value c.sign (c.passed a) = c.arg a ↔
    (c.size = .int → c.kind ≠ .d → c.arg a < 2 ^ 31) := by
  obtain ⟨size, kind⟩ := c
  cases size with
  | int =>
    cases kind with
    | d => exact iff_of_true (toInt_vaInt a) fun _ h => absurd rfl h
    | u | x =>
      show ((vaInt a).toNat : ℤ) = (a.setWidth 32).toNat ↔
        (_ → _ → ((a.setWidth 32).toNat : ℤ) < 2 ^ 31)
      rw [toNat_vaInt]
      generalize a.setWidth 32 = b
      split_ifs <;> simp <;> omega
  | long | longlong => exact iff_of_true rfl fun h => by cases h

/-- **When the kernel prints a number exactly** and stays in its buffer: if and only if the numeral
has at most 16 characters and an unsigned 32-bit number is below 2^31. -/
theorem printf_exact (c : Conv) (str : BitVec 64 → List Char) (fmt : List Char)
    (ap : ℕ → BitVec 64) :
    printf str (c.text ++ fmt) ap =
      andThen (printint (c.passed (ap 0)) c.base c.sign) (printf str fmt (next ap)) ∧
    (printint (c.passed (ap 0)) c.base c.sign = some (numeral id c.base (c.arg (ap 0))) ↔
      (numeral id c.base (c.arg (ap 0))).length ≤ 16 ∧
        (c.size = .int → c.kind ≠ .d → c.arg (ap 0) < 2 ^ 31)) := by
  have hbase := c.base_mem
  refine ⟨format_conv c, ?_⟩
  rw [printint, printint_eq_some_iff isTable_digits readable_id (by omega) hbase.2,
    value_passed_iff]

/-- The most negative number of 32 bits. -/
theorem printf_exact_min : printf (fun _ => []) "%d".toList (fun _ => 2 ^ 31) =
    some "-2147483648".toList := by
  obtain ⟨hprint, hexact⟩ := printf_exact ⟨.int, .d⟩ (fun _ => []) [] fun _ => 2 ^ 31
  refine hprint.trans ?_
  rw [hexact.2 ⟨by decide, by simp⟩]
  decide

/-- A decimal of 17 digits overruns the buffer, and the top bit of a 32-bit number is extended. -/
theorem printf_overruns : printf (fun _ => []) "%ld".toList (fun _ => 10 ^ 16) = none ∧
    printf (fun _ => []) "%x".toList (fun _ => 2 ^ 31) = some "ffffffff80000000".toList := by
  decide

end Kernel

namespace User

theorem isTable_digits : IsTable digits Char.toUpper := by
  unfold IsTable
  decide

theorem printint_eq_some (c : Conv) (a : BitVec 64) : printint a c.base c.sign =
    some (numeral Char.toUpper c.base (value c.sign (a.setWidth 32))) := by
  have hbase := c.base_mem
  have habs : (value c.sign (a.setWidth 32)).natAbs < c.base ^ 15 := by
    calc _ < 10 ^ 15 := by
          have hcond := BitVec.toInt_eq_toNat_cond (a.setWidth 32)
          rw [value]
          split_ifs at hcond ⊢ <;> omega
      _ ≤ c.base ^ 15 := Nat.pow_le_pow_left hbase.1 15
  have hlen := (length_toDigits_le_iff (by omega) (by decide)).2 habs
  rw [printint, printint_eq isTable_digits (by omega) hbase.2, if_pos]
  rw [numeral]
  split_ifs <;> simp <;> omega

theorem readable_toUpper : Readable Char.toUpper := by
  unfold Readable
  decide

/-- The number of a conversion has 32 bits, and for `d` a sign. -/
def Fits32 (c : Conv) (n : ℤ) : Prop := if c.sign then -2 ^ 31 ≤ n ∧ n < 2 ^ 31 else n < 2 ^ 32

theorem value_passed_iff (c : Conv) (a : BitVec 64) :
    value c.sign ((c.passed a).setWidth 32) = c.arg a ↔ Fits32 c (c.arg a) := by
  obtain ⟨size, kind⟩ := c
  cases size with
  | int =>
    refine iff_of_true (congrArg _ (setWidth_vaInt a)) ?_
    cases kind with
    | d => exact ⟨BitVec.le_toInt _, BitVec.toInt_lt⟩
    | u | x => exact Int.ofNat_lt.2 (a.setWidth 32).isLt
  | long | longlong =>
    cases kind with
    | d => exact toInt_setWidth_eq_iff a
    | u | x =>
      simp only [value, Conv.sign, Conv.passed, Conv.arg, Fits32, BitVec.toNat_setWidth]
      simp
      omega

/-- **When the user library prints a number exactly**: if and only if it has 32 bits; it stays in
its buffer always. -/
theorem vprintf_exact (c : Conv) (str : BitVec 64 → List Char) (fmt : List Char)
    (ap : ℕ → BitVec 64) :
    (printint (c.passed (ap 0)) c.base c.sign).isSome ∧
    vprintf str (c.text ++ fmt) ap =
      andThen (printint (c.passed (ap 0)) c.base c.sign) (vprintf str fmt (next ap)) ∧
    (printint (c.passed (ap 0)) c.base c.sign = some (numeral Char.toUpper c.base (c.arg (ap 0))) ↔
      Fits32 c (c.arg (ap 0))) := by
  have hbase := c.base_mem
  refine ⟨by rw [printint_eq_some]; rfl, format_conv c, ?_⟩
  rw [← value_passed_iff, printint_eq_some, Option.some_inj]
  exact ⟨numeral_inj readable_toUpper (by omega) hbase.2, congrArg _⟩

theorem vprintf_exact_max : vprintf (fun _ => []) "%lx".toList (fun _ => 2 ^ 32 - 1) =
    some "FFFFFFFF".toList := by
  obtain ⟨-, hprint, hexact⟩ := vprintf_exact ⟨.long, .x⟩ (fun _ => []) [] fun _ => 2 ^ 32 - 1
  refine hprint.trans ?_
  rw [hexact.2 (by unfold Fits32; decide)]
  decide

/-- Of a 64-bit number the lower half is printed. -/
theorem vprintf_truncates : vprintf (fun _ => []) "%lu".toList (fun _ => 2 ^ 32) = some ['0'] := by
  decide

end User

end CsklubOs
