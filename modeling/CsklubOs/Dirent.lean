/-
**Names, directory entries and paths.**

The text handling under the directories of `kernel/fs.c`.  A C string is the list of its bytes; what
is read beyond the end of the list is the terminating zero.

Main definitions:

* `namecmp`, `strncpy` — names of at most `DIRSIZ` bytes;
* `Dirent` — the sixteen bytes of a `struct dirent`;
* `skipelem`, `elements` — taking a path apart.

Main results:

* `Dirent.decode_bytes` — what is written is read.
-/

import CsklubOs.Block

set_option autoImplicit false

namespace CsklubOs

open ByteSeq List

/-! ### Strings -/

def strncmp : List UInt8 → List UInt8 → ℕ → ℤ
  | _, _, 0 => 0
  | p, q, n + 1 =>
    if p.headD 0 ≠ 0 ∧ p.headD 0 = q.headD 0 then strncmp p.tail q.tail n
    else (p.headD 0).toNat - (q.headD 0).toNat

/-- The `n` bytes that `strncpy` writes. -/
def strncpy : List UInt8 → ℕ → List UInt8
  | _, 0 => []
  | t, n + 1 => if t.headD 0 = 0 then List.replicate (n + 1) 0 else t.headD 0 :: strncpy t.tail n

/-- The string in a field of `n` bytes. -/
def charField (n : ℕ) (bs : List UInt8) : List UInt8 := (bs.take n).takeWhile fun c => c ≠ 0

theorem charField_succ (n : ℕ) (bs : List UInt8) :
    charField (n + 1) bs = if bs.headD 0 = 0 then [] else bs.headD 0 :: charField n bs.tail := by
  cases bs with
  | nil => rfl
  | cons b bs =>
    rw [charField, take_succ_cons, takeWhile_cons, headD_cons, tail_cons, charField]
    by_cases hb : b = 0
    · rw [if_pos hb, if_neg (by simp [hb])]
    · rw [if_neg hb, if_pos (by simp [hb])]

theorem toNat_sub_eq_zero (a b : UInt8) : (a.toNat : ℤ) - b.toNat = 0 ↔ a = b := by
  rw [sub_eq_zero, Nat.cast_inj, UInt8.toNat_inj]

theorem strncmp_eq_zero (n : ℕ) : ∀ p q, strncmp p q n = 0 ↔ charField n p = charField n q := by
  induction n with
  | zero =>
    intro p q
    exact iff_of_true rfl rfl
  | succ n ih =>
    intro p q
    rw [strncmp, charField_succ, charField_succ]
    by_cases heq : p.headD 0 = q.headD 0
    · by_cases hzero : q.headD 0 = 0
      · rw [if_neg fun h => h.1 (heq.trans hzero), toNat_sub_eq_zero, if_pos (heq.trans hzero),
          if_pos hzero]
        exact iff_of_true heq rfl
      · rw [if_pos ⟨heq ▸ hzero, heq⟩, ih, if_neg (heq ▸ hzero), if_neg hzero, List.cons.injEq]
        exact ⟨fun h => ⟨heq, h⟩, fun h => h.2⟩
    · rw [if_neg fun h => heq h.2, toNat_sub_eq_zero]
      refine iff_of_false heq fun h => heq ?_
      -- the first bytes differ, so at most one of the fields is empty
      split at h
      · split at h
        · rename_i hp hq
          rw [hp, hq]
        · cases h
      · split at h
        · cases h
        · exact (List.cons.injEq .. ▸ h).1

@[simp] theorem length_strncpy (n : ℕ) : ∀ t, (strncpy t n).length = n := by
  induction n with
  | zero =>
    intro t
    rfl
  | succ n ih =>
    intro t
    rw [strncpy]
    split
    · exact length_replicate
    · rw [length_cons, ih]

theorem charField_strncpy (n : ℕ) : ∀ t, charField n (strncpy t n) = charField n t := by
  induction n with
  | zero =>
    intro t
    rfl
  | succ n ih =>
    intro t
    rw [charField_succ, charField_succ, strncpy]
    by_cases hzero : t.headD 0 = 0
    · have hhead : (List.replicate (n + 1) (0 : UInt8)).headD 0 = 0 := rfl
      rw [if_pos hzero, if_pos hhead, if_pos hzero]
    · rw [if_neg hzero, headD_cons, if_neg hzero, if_neg hzero, tail_cons, ih]

/-- The name in `DIRSIZ` bytes. -/
def cname (bs : List UInt8) : List UInt8 := charField dirSiz bs

def namecmp (s t : List UInt8) : ℤ := strncmp s t dirSiz

theorem namecmp_eq_zero {s t : List UInt8} : namecmp s t = 0 ↔ cname s = cname t :=
  strncmp_eq_zero dirSiz s t

theorem charField_charField (n : ℕ) : ∀ bs, charField n (charField n bs) = charField n bs := by
  induction n with
  | zero =>
    intro bs
    rfl
  | succ n ih =>
    intro bs
    rw [charField_succ n (charField (n + 1) bs), charField_succ n bs]
    by_cases hzero : bs.headD 0 = 0
    · rw [if_pos hzero]
      rfl
    · rw [if_neg hzero, headD_cons, if_neg hzero, tail_cons, ih]

@[simp] theorem cname_cname (bs : List UInt8) : cname (cname bs) =
    cname bs := charField_charField dirSiz bs

/-- `"."` and `".."`. -/
def dotName : List UInt8 := [46]

def dotdotName : List UInt8 := [46, 46]

/-! ### Directory entries -/

/-- `sizeof(struct dirent)`. -/
def direntSize : ℕ := 16

/-- `struct dirent`, with the name as a string. -/
structure Dirent where
  inum : ℕ
  name : List UInt8
  deriving DecidableEq

/-- The entry that sixteen bytes of a directory stand for. -/
def Dirent.decode (bs : List UInt8) : Dirent := ⟨leVal (bs.take 2), cname (bs.drop 2)⟩

/-- The bytes of an entry as `dirlink` makes it. -/
def Dirent.bytes (inum : ℕ) (name : List UInt8) :
    List UInt8 := leBytes 2 inum ++ strncpy name dirSiz

/-- An entry that is not in use. -/
def Dirent.dead : Dirent := ⟨0, []⟩

@[simp] theorem Dirent.length_bytes (inum : ℕ) (name : List UInt8) :
    (Dirent.bytes inum name).length = direntSize := by
  rw [Dirent.bytes, length_append, length_strncpy]
  rfl

/-- **An entry that was written is read back**, if the number fits its two bytes. -/
theorem Dirent.decode_bytes {inum : ℕ} (h : inum < 2 ^ 16) (name : List UInt8) :
    Dirent.decode (Dirent.bytes inum name) = ⟨inum, cname name⟩ := by
  have htake : (leBytes 2 inum ++ strncpy name dirSiz).take 2 = leBytes 2 inum :=
    take_left' (length_leBytes 2 inum)
  have hdrop : (leBytes 2 inum ++ strncpy name dirSiz).drop 2 = strncpy name dirSiz :=
    drop_left' (length_leBytes 2 inum)
  rw [Dirent.decode, Dirent.bytes, htake, hdrop, leVal_leBytes_of_lt h, cname, charField_strncpy,
    cname]

theorem Dirent.decode_zeros : Dirent.decode (List.replicate direntSize 0) = Dirent.dead := by
  decide

@[simp] theorem Dirent.cname_decode (bs : List UInt8) :
    cname (Dirent.decode bs).name = (Dirent.decode bs).name :=
  cname_cname _

/-! ### Paths -/

/-- The byte `'/'`. -/
def slash : UInt8 := 47

/-- `skipelem`: the first element, cut to `DIRSIZ` bytes, and the rest of the path. -/
def skipelem (path : List UInt8) : Option (List UInt8 × List UInt8) :=
  let path := path.dropWhile fun c => c = slash
  if path.headD 0 = 0 then none
  else some ((path.takeWhile fun c => c ≠ slash ∧ c ≠ 0).take dirSiz,
    (path.dropWhile fun c => c ≠ slash ∧ c ≠ 0).dropWhile fun c => c = slash)

/-- The elements of a path, of which there are at most `fuel`. -/
def elementsFuel : ℕ → List UInt8 → List (List UInt8)
  | 0, _ => []
  | fuel + 1, path =>
    match skipelem path with
    | none => []
    | some (name, rest) => name :: elementsFuel fuel rest

/-- The elements of a path. -/
def elements (path : List UInt8) : List (List UInt8) := elementsFuel path.length path

theorem skipelem_length {path name rest : List UInt8} (h : skipelem path = some (name, rest)) :
    rest.length < path.length := by
  rw [skipelem] at h
  have hle := (dropWhile_suffix (l := path) fun c => decide (c = slash)).length_le
  have hnot : ∀ l : List UInt8, (path.dropWhile fun c => decide (c = slash)) = slash :: l →
      False := by
    intro l hl
    have hhead := List.head?_dropWhile_not (fun c => decide (c = slash)) path
    rw [hl] at hhead
    simp at hhead
  generalize path.dropWhile (fun c => decide (c = slash)) = l at h hle hnot
  split at h
  · cases h
  · rename_i hhead
    obtain ⟨-, rfl⟩ := Prod.mk.inj (Option.some.inj h)
    refine lt_of_le_of_lt (dropWhile_suffix _).length_le ?_
    cases l with
    | nil => exact absurd rfl hhead
    | cons c l =>
      rw [headD_cons] at hhead
      have hc : c ≠ slash := by
        rintro rfl
        exact hnot l rfl
      rw [dropWhile_cons, if_pos (by simp [hc, hhead])]
      exact lt_of_le_of_lt (dropWhile_suffix _).length_le
        (lt_of_lt_of_le (Nat.lt_succ_self _) hle)

/-- **`*path == 0` after `skipelem`** says that there are no more elements. -/
theorem skipelem_last {path name rest : List UInt8} (h : skipelem path = some (name, rest)) :
    skipelem rest = none ↔ rest.headD 0 = 0 := by
  rw [skipelem] at h
  split at h
  · cases h
  · obtain ⟨-, rfl⟩ := Prod.mk.inj (Option.some.inj h)
    rw [skipelem, dropWhile_idempotent]
    split
    · exact iff_of_true rfl ‹_›
    · exact iff_of_false (nofun) ‹_›

theorem elementsFuel_eq : ∀ (fuel : ℕ) (path : List UInt8), path.length ≤ fuel →
    elementsFuel fuel path = elements path := by
  intro fuel
  induction fuel using Nat.strong_induction_on with
  | _ fuel ih =>
    intro path hlen
    rw [elements]
    cases fuel with
    | zero => rw [Nat.le_zero.1 hlen]
    | succ fuel =>
      cases hskip : skipelem path with
      | none =>
        cases path.length with
        | zero => simp only [elementsFuel, hskip]
        | succ n => simp only [elementsFuel, hskip]
      | some r =>
        obtain ⟨name, rest⟩ := r
        have hlt := skipelem_length hskip
        obtain ⟨n, hn⟩ : ∃ n, path.length = n + 1 := ⟨path.length - 1, by omega⟩
        simp only [hn, elementsFuel, hskip]
        rw [ih fuel (Nat.lt_succ_self _) rest (by omega), ih n (by omega) rest (by omega)]

theorem elements_eq (path : List UInt8) : elements path =
    match skipelem path with
    | none => []
    | some (name, rest) => name :: elements rest := by
  rw [← elementsFuel_eq (path.length + 1) path (Nat.le_succ _), elementsFuel]
  cases hskip : skipelem path with
  | none => rfl
  | some r =>
    obtain ⟨name, rest⟩ := r
    have hlt := skipelem_length hskip
    show name :: elementsFuel path.length rest = name :: elements rest
    rw [elementsFuel_eq path.length rest (by omega)]

example : elements [47, 97, 47, 47, 98, 98] = [[97], [98, 98]] := by decide

end CsklubOs
