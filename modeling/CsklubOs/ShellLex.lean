/-
**The tokens of the shell.**

`gettoken` and `peek` of `user/sh.c` move a cursor over the line, past white space on both sides of
a token.  A line is the list of its bytes up to the terminating NUL; the cursor, and the start and
the end of a token, are offsets into it.

Main definitions:

* `gettoken`, `peek` — the functions;
* `tokens` — the tokens of a line, byte by byte: a word is extended to the left by every byte that
  belongs to it.

Main results:

* `gettoken_cons`, `peek_iff` — what they do to the tokens that are left at a cursor, so that the
  parser never looks at bytes.
-/

import Mathlib

set_option autoImplicit false

namespace CsklubOs

open List

open Prod (fst snd)

namespace Shell

/-! ### The code -/

/-- `whitespace`: space, tab, carriage return, newline and vertical tab. -/
def whitespace : List UInt8 := [32, 9, 13, 10, 11]

def symbols : List UInt8 := ['<', '|', '>', '&', ';', '(', ')'].map Char.toUInt8

/-- The line that a buffer holds: the bytes up to the first NUL. -/
def line (buf : List UInt8) : List UInt8 := buf.takeWhile (· ≠ 0)

/-- The byte at offset `s`; the line ends with a NUL. -/
def byteAt (l : List UInt8) (s : ℕ) : UInt8 := l.getD s 0

/-- `while(s < es && p(*s)) s++`. -/
def skipWhile (p : UInt8 → Bool) (l : List UInt8) (s : ℕ) : ℕ := s + ((l.drop s).takeWhile p).length

def isSpace (c : UInt8) : Bool := c ∈ whitespace

/-- `!strchr(whitespace, c) && !strchr(symbols, c)`. -/
def isWordByte (c : UInt8) : Bool := c ∉ whitespace ∧ c ∉ symbols

/-- The `switch` of `gettoken` at offset `s`: what it returns, and where the token ends. -/
def scan (l : List UInt8) (s : ℕ) : UInt8 × ℕ :=
  if byteAt l s = 0 then (0, s)
  else if byteAt l s = '>'.toUInt8 then
    if byteAt l (s + 1) = '>'.toUInt8 then ('+'.toUInt8, s + 2) else ('>'.toUInt8, s + 1)
  else if byteAt l s ∈ symbols then (byteAt l s, s + 1)
  else ('a'.toUInt8, skipWhile isWordByte l s)

/-- What `gettoken` gives back: its result, `*q`, `*eq` and `*ps`. -/
structure Got where
  ret : UInt8
  q : ℕ
  eq : ℕ
  ps : ℕ

def gettoken (l : List UInt8) (s : ℕ) : Got :=
  let q := skipWhile isSpace l s
  ⟨(scan l q).1, q, (scan l q).2, skipWhile isSpace l (scan l q).2⟩

/-- `peek`: the cursor, and whether one of `toks` is next. -/
def peek (l : List UInt8) (s : ℕ) (toks : List UInt8) : ℕ × Bool :=
  let s := skipWhile isSpace l s
  (s, byteAt l s ≠ 0 ∧ byteAt l s ∈ toks)

/-! ### Tokens -/

/-- The tokens; a word has its start and its end. -/
inductive Tok
  | lt
  | gt
  | gtgt
  | bar
  | amp
  | semi
  | lpar
  | rpar
  | word (q eq : ℕ)
  deriving DecidableEq

/-- The token of one byte. -/
def Tok.ofByte (c : UInt8) : Option Tok :=
  if c = '<'.toUInt8 then some .lt
  else if c = '|'.toUInt8 then some .bar
  else if c = '>'.toUInt8 then some .gt
  else if c = '&'.toUInt8 then some .amp
  else if c = ';'.toUInt8 then some .semi
  else if c = '('.toUInt8 then some .lpar
  else if c = ')'.toUInt8 then some .rpar
  else none

/-- One more byte, at offset `p`, in front of the tokens of what follows it: it belongs to the word
that starts right after it, or is a word of its own. -/
def extendWord (p : ℕ) : List Tok → List Tok
  | .word q eq :: ts => if q = p + 1 then .word p eq :: ts else .word p (p + 1) :: .word q eq :: ts
  | ts => .word p (p + 1) :: ts

/-- The tokens of the bytes from offset `p` on. -/
def lex : ℕ → List UInt8 → List Tok
  | _, [] => []
  | p, c :: cs =>
    if c ∈ whitespace then lex (p + 1) cs
    else if c = '>'.toUInt8 then
      match cs with
      | [] => [.gt]
      | d :: ds => if d = '>'.toUInt8 then .gtgt :: lex (p + 2) ds else .gt :: lex (p + 1) (d :: ds)
    else
      match Tok.ofByte c with
      | some t => t :: lex (p + 1) cs
      | none => extendWord p (lex (p + 1) cs)

/-- **The tokens of a line.** -/
def tokens (l : List UInt8) : List Tok := lex 0 l

/-- The tokens that are left to read at offset `s`. -/
def tokensAt (l : List UInt8) (s : ℕ) : List Tok := lex s (l.drop s)

/-- What `gettoken` returns for a token. -/
def Tok.code : Tok → UInt8
  | .lt => '<'.toUInt8
  | .gt => '>'.toUInt8
  | .gtgt => '+'.toUInt8
  | .bar => '|'.toUInt8
  | .amp => '&'.toUInt8
  | .semi => ';'.toUInt8
  | .lpar => '('.toUInt8
  | .rpar => ')'.toUInt8
  | .word _ _ => 'a'.toUInt8

/-- The byte that a token starts with, if it is not a word. -/
def Tok.byte : Tok → Option UInt8
  | .gtgt => some '>'.toUInt8
  | .word _ _ => none
  | t => some t.code

/-! ### White space -/

variable {l : List UInt8} {s p : ℕ} {c : UInt8}

theorem lex_cons (p : ℕ) (c : UInt8) (cs : List UInt8) : lex p (c :: cs) =
    if c ∈ whitespace then lex (p + 1) cs
    else if c = '>'.toUInt8 then
      match cs with
      | [] => [.gt]
      | d :: ds => if d = '>'.toUInt8 then .gtgt :: lex (p + 2) ds else .gt :: lex (p + 1) (d :: ds)
    else
      match Tok.ofByte c with
      | some t => t :: lex (p + 1) cs
      | none => extendWord p (lex (p + 1) cs) := by
  cases cs <;> rfl

variable {cs : List UInt8}

theorem lex_cons_space (h : c ∈ whitespace) : lex p (c :: cs) = lex (p + 1) cs := by
  rw [lex_cons, if_pos h]

theorem lex_cons_word (hc : isWordByte c = true) :
    lex p (c :: cs) = extendWord p (lex (p + 1) cs) := by
  have hword := of_decide_eq_true hc
  have hgt : c ≠ '>'.toUInt8 := fun h => hword.2 (h ▸ by decide)
  have hnone : Tok.ofByte c = none := by
    have hne : ∀ d ∈ symbols, c ≠ d := fun d hd h => hword.2 (h ▸ hd)
    simp only [Tok.ofByte, hne _ (by decide : '<'.toUInt8 ∈ symbols),
      hne _ (by decide : '|'.toUInt8 ∈ symbols), hgt, hne _ (by decide : '&'.toUInt8 ∈ symbols),
      hne _ (by decide : ';'.toUInt8 ∈ symbols), hne _ (by decide : '('.toUInt8 ∈ symbols),
      hne _ (by decide : ')'.toUInt8 ∈ symbols), if_false]
  rw [lex_cons, if_neg hword.1, if_neg hgt, hnone]

theorem lex_cons_symbol {t : Tok} (hs : c ∉ whitespace) (hgt : c ≠ '>'.toUInt8)
    (ht : Tok.ofByte c = some t) : lex p (c :: cs) = t :: lex (p + 1) cs := by
  rw [lex_cons, if_neg hs, if_neg hgt, ht]

theorem lex_cons_gt (h : cs.head? ≠ some '>'.toUInt8) :
    lex p ('>'.toUInt8 :: cs) = .gt :: lex (p + 1) cs := by
  cases cs with
  | nil => rfl
  | cons d ds =>
    have hd : d ≠ '>'.toUInt8 := fun hd => h (hd ▸ rfl)
    exact if_neg hd

theorem lex_cons_gtgt {ds : List UInt8} :
    lex p ('>'.toUInt8 :: '>'.toUInt8 :: ds) = .gtgt :: lex (p + 2) ds := by
  rw [lex_cons, if_neg (by decide)]
  exact if_pos rfl

theorem lex_dropWhile (cs : List UInt8) :
    ∀ p, lex (p + (cs.takeWhile isSpace).length) (cs.dropWhile isSpace) = lex p cs := by
  induction cs with
  | nil =>
    intro p
    rfl
  | cons c cs ih =>
    intro p
    by_cases hc : isSpace c = true
    · rw [takeWhile_cons_of_pos hc, dropWhile_cons_of_pos hc,
        lex_cons_space (of_decide_eq_true hc), length_cons, ← ih (p + 1)]
      congr 1
      omega
    · rw [takeWhile_cons_of_neg hc, dropWhile_cons_of_neg hc]
      rfl

theorem drop_skipWhile (f : UInt8 → Bool) (l : List UInt8) (s : ℕ) :
    l.drop (skipWhile f l s) = (l.drop s).dropWhile f := by
  rw [skipWhile, ← drop_drop]
  generalize l.drop s = cs
  induction cs with
  | nil => rfl
  | cons c cs ih =>
    by_cases hc : f c = true
    · rw [takeWhile_cons_of_pos hc, dropWhile_cons_of_pos hc, length_cons, drop_succ_cons, ih]
    · rw [takeWhile_cons_of_neg hc, dropWhile_cons_of_neg hc]
      rfl

theorem lex_ne_nil (hc : c ∉ whitespace) : lex p (c :: cs) ≠ [] := by
  rw [lex_cons]
  split_ifs
  · cases cs with
    | nil => exact cons_ne_nil _ _
    | cons d ds =>
      dsimp only
      split_ifs <;> exact cons_ne_nil _ _
  · split
    · exact cons_ne_nil _ _
    · rw [extendWord.eq_def]
      repeat' split
      all_goals exact cons_ne_nil _ _

theorem length_extendWord_le (ts : List Tok) : (extendWord p ts).length ≤ ts.length + 1 := by
  rw [extendWord.eq_def]
  repeat' split
  all_goals simp only [length_cons]; omega

theorem length_lex_le (cs : List UInt8) (p : ℕ) : (lex p cs).length ≤ cs.length := by
  fun_induction lex p cs with
  | case1 => exact le_rfl
  | case2 p c cs hs ih => exact le_trans ih (Nat.le_succ _)
  | case3 p hs => exact le_rfl
  | case4 p hs ds ih =>
    simp only [length_cons]
    omega
  | case5 p hs d ds hd ih =>
    simp only [length_cons] at ih ⊢
    omega
  | case6 p c cs hs hgt t ht ih =>
    simp only [length_cons]
    omega
  | case7 p c cs hs hgt hnone ih =>
    have hle := @length_extendWord_le p (lex (p + 1) cs)
    rw [length_cons]
    omega

theorem zero_notMem_line (buf : List UInt8) : 0 ∉ line buf := by
  intro h
  have := mem_takeWhile_imp h
  exact of_decide_eq_true this rfl

theorem skipWhile_le {f : UInt8 → Bool} (h : s ≤ l.length) : skipWhile f l s ≤ l.length := by
  have hlen := (takeWhile_sublist (l := l.drop s) f).length_le
  rw [length_drop] at hlen
  rw [skipWhile]
  omega

theorem tokensAt_skip (l : List UInt8) (s : ℕ) :
    tokensAt l (skipWhile isSpace l s) = tokensAt l s := by
  rw [tokensAt, drop_skipWhile, skipWhile, lex_dropWhile, tokensAt]

theorem skip_cases (l : List UInt8) (s : ℕ) :
    l.drop (skipWhile isSpace l s) = [] ∨
      ∃ c cs, l.drop (skipWhile isSpace l s) = c :: cs ∧ c ∉ whitespace := by
  rw [drop_skipWhile]
  cases h : (l.drop s).dropWhile isSpace with
  | nil => exact .inl rfl
  | cons c cs =>
    refine .inr ⟨c, cs, rfl, fun hc => ?_⟩
    have hhead := List.head?_dropWhile_not isSpace (l.drop s)
    simp only [h, List.head?_cons, isSpace, decide_eq_true hc, Bool.true_eq_false] at hhead

theorem skip_eq_length (hs : s ≤ l.length) (h : tokensAt l s = []) :
    skipWhile isSpace l s = l.length := by
  rcases skip_cases l s with hnil | ⟨c, cs, hcons, hc⟩
  · exact le_antisymm (skipWhile_le hs) (drop_eq_nil_iff.1 hnil)
  · rw [← tokensAt_skip, tokensAt, hcons] at h
    exact absurd h (lex_ne_nil hc)

theorem byteAt_of_drop (h : l.drop s = c :: cs) : byteAt l s = c := by
  rw [byteAt, getD_eq_getElem?_getD, ← List.head?_drop, h]
  rfl

theorem byteAt_of_drop_nil (h : l.drop s = []) : byteAt l s = 0 := by
  rw [byteAt, getD_eq_getElem?_getD, ← List.head?_drop, h]
  rfl

theorem drop_succ_of_drop (h : l.drop s = c :: cs) : l.drop (s + 1) = cs := by
  rw [← tail_drop, h]
  rfl

/-! ### Words -/

theorem byte_cases (c : UInt8) : c ∈ whitespace ∨ c = '>'.toUInt8 ∨
    (c ∉ whitespace ∧ c ≠ '>'.toUInt8 ∧ c ∈ symbols ∧ ∃ t, Tok.ofByte c = some t ∧ t.code = c ∧
      t.byte = some c) ∨ isWordByte c = true := by
  by_cases hs : c ∈ whitespace
  · exact .inl hs
  · by_cases hgt : c = '>'.toUInt8
    · exact .inr (.inl hgt)
    · by_cases hsym : c ∈ symbols
      · refine .inr (.inr (.inl ⟨hs, hgt, hsym, ?_⟩))
        simp only [symbols, map_cons, map_nil, mem_cons, not_mem_nil, or_false] at hsym
        rcases hsym with rfl | rfl | rfl | rfl | rfl | rfl | rfl
        · exact ⟨.lt, rfl, rfl, rfl⟩
        · exact ⟨.bar, rfl, rfl, rfl⟩
        · exact absurd rfl hgt
        · exact ⟨.amp, rfl, rfl, rfl⟩
        · exact ⟨.semi, rfl, rfl, rfl⟩
        · exact ⟨.lpar, rfl, rfl, rfl⟩
        · exact ⟨.rpar, rfl, rfl, rfl⟩
      · exact .inr (.inr (.inr (decide_eq_true ⟨hs, hsym⟩)))

theorem ofByte_ne_word {q eq : ℕ} : Tok.ofByte c ≠ some (.word q eq) := by
  intro h
  unfold Tok.ofByte at h
  split_ifs at h <;> cases h

/-- Bytes that do not start with white space or with a word start with a symbol. -/
theorem exists_lex_symbol (p : ℕ) (cs : List UInt8) (hs : c ∉ whitespace)
    (hw : ¬ isWordByte c = true) : ∃ t ts, lex p (c :: cs) = t :: ts ∧ ∀ q eq, t ≠ .word q eq := by
  rcases byte_cases c with hs' | rfl | ⟨-, hgt, -, t, ht, -⟩ | hword
  · exact absurd hs' hs
  · by_cases hd : cs.head? = some '>'.toUInt8
    · obtain ⟨ds, rfl⟩ : ∃ ds, cs = '>'.toUInt8 :: ds := head?_eq_some_iff.1 hd
      exact ⟨_, _, rfl, by rintro _ _ ⟨⟩⟩
    · exact ⟨_, _, lex_cons_gt hd, by rintro _ _ ⟨⟩⟩
  · exact ⟨t, _, lex_cons_symbol hs hgt ht, fun q eq h => ofByte_ne_word (h ▸ ht)⟩
  · exact absurd hword hw

theorem le_of_lex_word (cs : List UInt8) :
    ∀ {p q eq : ℕ} {ts : List Tok}, lex p cs = .word q eq :: ts → p ≤ q := by
  induction cs with
  | nil =>
    intro p q eq ts h
    cases h
  | cons c cs ih =>
    intro p q eq ts h
    by_cases hs : c ∈ whitespace
    · rw [lex_cons_space hs] at h
      exact le_trans (Nat.le_succ p) (ih h)
    by_cases hword : isWordByte c = true
    · rw [lex_cons_word hword] at h
      unfold extendWord at h
      split at h
      · split at h <;> cases h <;> exact le_refl p
      · cases h
        exact le_refl p
    · obtain ⟨t, ts', hlex, hne⟩ := exists_lex_symbol p cs hs hword
      exact absurd (cons_eq_cons.1 (hlex.symm.trans h)).1 (hne q eq)

theorem lt_of_lex_word {q eq : ℕ} {ts : List Tok} (h : lex p cs = .word q eq :: ts)
    (hc : ∀ c ∈ cs.head?, isWordByte c = false) : p < q := by
  cases cs with
  | nil => cases h
  | cons c cs =>
    by_cases hs : c ∈ whitespace
    · rw [lex_cons_space hs] at h
      exact le_of_lex_word cs h
    · obtain ⟨t, ts', hlex, hne⟩ := exists_lex_symbol p cs hs (by simp [hc c rfl])
      exact absurd (cons_eq_cons.1 (hlex.symm.trans h)).1 (hne q eq)

theorem lex_word (cs : List UInt8) : ∀ p, isWordByte c = true → lex p (c :: cs) =
    .word p (p + ((c :: cs).takeWhile isWordByte).length) ::
      lex (p + ((c :: cs).takeWhile isWordByte).length) ((c :: cs).dropWhile isWordByte) := by
  induction cs generalizing c with
  | nil =>
    intro p hc
    rw [lex_cons_word hc, takeWhile_cons_of_pos hc, dropWhile_cons_of_pos hc]
    rfl
  | cons d ds ih =>
    intro p hc
    rw [lex_cons_word hc, takeWhile_cons_of_pos hc, dropWhile_cons_of_pos hc, length_cons]
    by_cases hd : isWordByte d = true
    · rw [ih (p + 1) hd, extendWord, if_pos rfl]
      congr 2 <;> omega
    · rw [takeWhile_cons_of_neg hd, dropWhile_cons_of_neg hd]
      have hno : ∀ c ∈ (d :: ds).head?, isWordByte c = false := by
        rintro _ ⟨⟩
        exact Bool.eq_false_iff.2 hd
      cases hlex : lex (p + 1) (d :: ds) with
      | nil => rfl
      | cons t ts =>
        cases t with
        | word q eq =>
          have hlt := lt_of_lex_word hlex hno
          rw [extendWord, if_neg (by omega)]
          rfl
        | _ => rfl

/-! ### The specification of `gettoken` and `peek` -/

theorem gettoken_nil (h : tokensAt l s = []) :
    (gettoken l s).ret = 0 ∧ tokensAt l (gettoken l s).ps = [] := by
  have hend : l.drop (skipWhile isSpace l s) = [] := by
    rcases skip_cases l s with hnil | ⟨c, cs, hcs, hc⟩
    · exact hnil
    · rw [← tokensAt_skip, tokensAt, hcs] at h
      by_cases hword : isWordByte c = true
      · cases (lex_word cs _ hword).symm.trans h
      · obtain ⟨t, ts, hlex, -⟩ := exists_lex_symbol _ cs hc hword
        cases hlex.symm.trans h
  have hscan : scan l (skipWhile isSpace l s) = (0, skipWhile isSpace l s) := by
    rw [scan, if_pos (byteAt_of_drop_nil hend)]
  refine ⟨congrArg fst hscan, ?_⟩
  show tokensAt l (skipWhile isSpace l (scan l (skipWhile isSpace l s)).2) = []
  rw [hscan, tokensAt_skip, tokensAt, hend]
  rfl

/-- **`gettoken` takes the first token**, and says where a word starts and ends. -/
theorem gettoken_cons {t : Tok} {ts : List Tok} (h0 : 0 ∉ l) (h : tokensAt l s = t :: ts) :
    (gettoken l s).ret = t.code ∧ tokensAt l (gettoken l s).ps = ts ∧
      ∀ q eq, t = .word q eq → (gettoken l s).q = q ∧ (gettoken l s).eq = eq := by
  rw [← tokensAt_skip] at h
  rcases skip_cases l s with hnil | ⟨c, cs, hcs, hc⟩
  · rw [tokensAt, hnil] at h
    cases h
  have hbyte := byteAt_of_drop hcs
  have hne : c ≠ 0 := by
    rintro rfl
    exact h0 (mem_of_mem_drop (hcs ▸ mem_cons_self ..))
  -- what is left follows from where the token ends
  have hps : ∀ n, (scan l (skipWhile isSpace l s)).2 = n → ∀ r, tokensAt l n = r →
      tokensAt l (gettoken l s).ps = r := by
    intro n hn r hr
    show tokensAt l (skipWhile isSpace l (scan l (skipWhile isSpace l s)).2) = r
    rw [tokensAt_skip, hn, hr]
  have hnext : tokensAt l (skipWhile isSpace l s + 1) = lex (skipWhile isSpace l s + 1) cs := by
    rw [tokensAt, drop_succ_of_drop hcs]
  have hsecond : byteAt l (skipWhile isSpace l s + 1) = cs.head?.getD 0 := by
    rw [byteAt, getD_eq_getElem?_getD, ← List.head?_drop, drop_succ_of_drop hcs]
  rw [tokensAt, hcs] at h
  rcases byte_cases c with hs | rfl | ⟨-, hgt, hsym, t', ht', hcode, -⟩ | hword
  · exact absurd hs hc
  · by_cases hd : cs.head? = some '>'.toUInt8
    · obtain ⟨ds, rfl⟩ : ∃ ds, cs = '>'.toUInt8 :: ds := head?_eq_some_iff.1 hd
      obtain ⟨rfl, rfl⟩ := cons_eq_cons.1 h
      have hscan : scan l (skipWhile isSpace l s) = ('+'.toUInt8, skipWhile isSpace l s + 2) := by
        rw [scan, hbyte, if_neg hne, hsecond]
        exact if_pos rfl
      refine ⟨congrArg fst hscan, hps _ (congrArg snd hscan) _ ?_, fun q eq hq => by cases hq⟩
      rw [tokensAt, ← drop_drop, hcs]
      rfl
    · rw [lex_cons_gt hd] at h
      obtain ⟨rfl, rfl⟩ := cons_eq_cons.1 h
      have hnot : cs.head?.getD 0 ≠ '>'.toUInt8 := by
        intro hx
        cases hh : cs.head? with
        | none =>
          rw [hh] at hx
          exact absurd hx (by decide)
        | some d =>
          rw [hh] at hx
          exact hd (by rw [hh]; exact congrArg some hx)
      have hscan : scan l (skipWhile isSpace l s) = ('>'.toUInt8, skipWhile isSpace l s + 1) := by
        rw [scan, hbyte, if_neg hne, if_pos rfl, hsecond, if_neg hnot]
      exact ⟨congrArg fst hscan, hps _ (congrArg snd hscan) _ hnext, fun q eq hq => by cases hq⟩
  · rw [lex_cons_symbol hc hgt ht'] at h
    obtain ⟨rfl, rfl⟩ := cons_eq_cons.1 h
    have hscan : scan l (skipWhile isSpace l s) = (c, skipWhile isSpace l s + 1) := by
      rw [scan, hbyte, if_neg hne, if_neg hgt, if_pos hsym]
    refine ⟨(congrArg fst hscan).trans hcode.symm, hps _ (congrArg snd hscan) _ hnext, ?_⟩
    rintro q eq rfl
    exact absurd ht' ofByte_ne_word
  · rw [lex_word cs _ hword, ← hcs, ← drop_skipWhile] at h
    obtain ⟨rfl, rfl⟩ := cons_eq_cons.1 h
    have hno := (of_decide_eq_true hword).2
    have hgt : c ≠ '>'.toUInt8 := fun hx => hno (hx ▸ by decide)
    have hscan : scan l (skipWhile isSpace l s) =
        ('a'.toUInt8, skipWhile isWordByte l (skipWhile isSpace l s)) := by
      rw [scan, hbyte, if_neg hne, if_neg hgt, if_neg hno]
    refine ⟨congrArg fst hscan, hps _ (congrArg snd hscan) _ rfl, ?_⟩
    rintro q eq hq
    cases hq
    exact ⟨rfl, congrArg snd hscan⟩

theorem tokensAt_peek (l : List UInt8) (s : ℕ) (toks : List UInt8) :
    tokensAt l (peek l s toks).1 = tokensAt l s :=
  tokensAt_skip l s

/-- **`peek` looks at the first byte of the first token.** -/
theorem peek_iff (h0 : 0 ∉ l) {toks : List UInt8} (htoks : ∀ c ∈ toks, c ∈ symbols) :
    (peek l s toks).2 = true ↔ ∃ t ts c, tokensAt l s = t :: ts ∧ t.byte = some c ∧ c ∈ toks := by
  have hpeek : (peek l s toks).2 = true ↔ byteAt l (skipWhile isSpace l s) ≠ 0 ∧
      byteAt l (skipWhile isSpace l s) ∈ toks := decide_eq_true_iff
  rw [hpeek, ← tokensAt_skip]
  rcases skip_cases l s with hnil | ⟨c, cs, hcs, hc⟩
  · refine iff_of_false (fun h => h.1 (byteAt_of_drop_nil hnil)) ?_
    rintro ⟨t, ts, c, h, -⟩
    rw [tokensAt, hnil] at h
    cases h
  have hne : c ≠ 0 := by
    rintro rfl
    exact h0 (mem_of_mem_drop (hcs ▸ mem_cons_self ..))
  rw [byteAt_of_drop hcs, tokensAt, hcs]
  -- the first token starts with this byte, or is a word
  rcases byte_cases c with hs | rfl | ⟨-, hgt, -, t, ht, -, hbyte⟩ | hword
  · exact absurd hs hc
  · obtain ⟨t, ts, hlex, hbyte⟩ : ∃ t ts, lex (skipWhile isSpace l s) ('>'.toUInt8 :: cs) =
        t :: ts ∧ t.byte = some '>'.toUInt8 := by
      by_cases hd : cs.head? = some '>'.toUInt8
      · obtain ⟨ds, rfl⟩ : ∃ ds, cs = '>'.toUInt8 :: ds := head?_eq_some_iff.1 hd
        exact ⟨_, _, lex_cons_gtgt, rfl⟩
      · exact ⟨_, _, lex_cons_gt hd, rfl⟩
    refine ⟨fun h => ⟨t, ts, _, hlex, hbyte, h.2⟩, ?_⟩
    rintro ⟨t', ts', c', h', hbyte', hmem⟩
    rw [hlex] at h'
    obtain ⟨rfl, rfl⟩ := cons_eq_cons.1 h'
    rw [hbyte, Option.some_inj] at hbyte'
    exact ⟨hne, hbyte' ▸ hmem⟩
  · refine ⟨fun h => ⟨t, _, c, lex_cons_symbol hc hgt ht, hbyte, h.2⟩, ?_⟩
    rintro ⟨t', ts', c', h', hbyte', hmem⟩
    rw [lex_cons_symbol hc hgt ht] at h'
    obtain ⟨rfl, rfl⟩ := cons_eq_cons.1 h'
    rw [hbyte, Option.some_inj] at hbyte'
    exact ⟨hne, hbyte' ▸ hmem⟩
  · refine iff_of_false (fun h => (of_decide_eq_true hword).2 (htoks c h.2)) ?_
    rintro ⟨t', ts', c', h', hbyte', -⟩
    rw [lex_word cs _ hword] at h'
    obtain ⟨rfl, rfl⟩ := cons_eq_cons.1 h'
    cases hbyte'

end Shell

end CsklubOs
