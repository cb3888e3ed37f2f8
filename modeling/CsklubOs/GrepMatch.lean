/-
**The matcher of `grep`.**

`match`, `matchhere` and `matchstar` of `user/grep.c`.  A string is the list of its characters,
without the null at its end.  `matchhere` calls itself with a shorter pattern, and `matchstar` tries
it at every place that the repetition can reach, so the proof is by induction on the pattern, with
an induction on the text for the repetition.

Main definitions:

* `matchText` — the source's `match`;
* `Pattern`, `Pattern.Matches` — an optional `^`, then characters `c` and repetitions `c*`, then an
  optional `$`, and what they mean.

Main results:

* `matchText_iff` — every list is a pattern, and the matcher finds what it means.
-/

import Mathlib

set_option autoImplicit false

namespace CsklubOs.Grep

/-! ### The code -/

/-- `*`. -/
def star : UInt8 := 42

/-- `.`. -/
def dot : UInt8 := 46

/-- `$`. -/
def dollar : UInt8 := 36

/-- `^`. -/
def caret : UInt8 := 94

/-- The loop of `matchstar`, which calls `matchhere` with the rest of the pattern. -/
def matchstar (here : List UInt8 → Bool) (c : UInt8) : List UInt8 → Bool
  | [] => here []
  | t :: text => here (t :: text) || ((t = c || c = dot) && matchstar here c text)

def matchhere : List UInt8 → List UInt8 → Bool
  | [], _ => true
  | [c], text =>
    if c = dollar then text.isEmpty
    else match text with
      | [] => false
      | t :: _ => c = dot || c = t
  | c :: d :: re, text =>
    if d = star then matchstar (fun text => matchhere re text) c text
    else match text with
      | [] => false
      | t :: text => (c = dot || c = t) && matchhere (d :: re) text

/-- The loop of `match`, which also looks at the empty string. -/
def search (re : List UInt8) : List UInt8 → Bool
  | [] => matchhere re []
  | t :: text => matchhere re (t :: text) || search re text

/-- `match`. -/
def matchText : List UInt8 → List UInt8 → Bool
  | [], text => search [] text
  | c :: re, text => if c = caret then matchhere re text else search (c :: re) text

/-! ### What patterns mean -/

/-- The character `x` is one that `c` stands for. -/
def Accepts (c x : UInt8) : Prop := c = dot ∨ c = x

/-- `c` or `c*`. -/
inductive Item
  | one (c : UInt8)
  | many (c : UInt8)

/-- The strings that an item matches. -/
def Item.lang : Item → Language UInt8
  | .one c => {u | ∃ x, Accepts c x ∧ u = [x]}
  | .many c => {u | ∀ x ∈ u, Accepts c x}

/-- A pattern: whether it begins with `^`, the items, and whether it ends with `$`. -/
structure Pattern where
  start : Bool
  items : List Item
  stop : Bool

/-- A substring is a concatenation of strings that the items match, and lies where `^` and
`$` ask. -/
def Pattern.Matches (p : Pattern) (text : List UInt8) : Prop :=
  ∃ pre mid post, text = pre ++ (mid ++ post) ∧ (p.start = true → pre = []) ∧
    (p.stop = true → post = []) ∧ mid ∈ (p.items.map Item.lang).prod

/-- The items of a pattern, and whether it ends with a `$` that no `*` follows. -/
def readItems : List UInt8 → List Item × Bool
  | [] => ([], false)
  | [c] => if c = dollar then ([], true) else ([.one c], false)
  | c :: d :: re =>
    if d = star then (.many c :: (readItems re).1, (readItems re).2)
    else (.one c :: (readItems (d :: re)).1, (readItems (d :: re)).2)

/-- How a pattern is read. -/
def Pattern.read : List UInt8 → Pattern
  | [] => ⟨false, [], false⟩
  | c :: re =>
    if c = caret then ⟨true, (readItems re).1, (readItems re).2⟩
    else ⟨false, (readItems (c :: re)).1, (readItems (c :: re)).2⟩

/-! ### The matcher -/

variable {c : UInt8} {text : List UInt8}

/-- The text begins with what the items match. -/
def Begins (p : List Item × Bool) (text : List UInt8) : Prop :=
  ∃ mid post, text = mid ++ post ∧ (p.2 = true → post = []) ∧ mid ∈ (p.1.map Item.lang).prod

theorem begins_nil {stop : Bool} : Begins ([], stop) text ↔ (stop = true → text = []) := by
  simp [Begins, Language.mem_one]

theorem begins_one {items : List Item} {stop : Bool} : Begins (.one c :: items, stop) text ↔
    ∃ t rest, text = t :: rest ∧ Accepts c t ∧ Begins (items, stop) rest := by
  constructor
  · rintro ⟨-, post, rfl, hstop, -, ⟨x, hx, rfl⟩, mid, hmid, rfl⟩
    exact ⟨x, mid ++ post, rfl, hx, mid, post, rfl, hstop, hmid⟩
  · rintro ⟨t, -, rfl, ht, mid, post, rfl, hstop, hmid⟩
    exact ⟨t :: mid, post, rfl, hstop, [t], ⟨t, ht, rfl⟩, mid, hmid, rfl⟩

theorem begins_many {items : List Item} {stop : Bool} : Begins (.many c :: items, stop) text ↔
    ∃ u rest, text = u ++ rest ∧ (∀ x ∈ u, Accepts c x) ∧ Begins (items, stop) rest := by
  constructor
  · rintro ⟨-, post, rfl, hstop, u, hu, mid, hmid, rfl⟩
    exact ⟨u, mid ++ post, List.append_assoc .., hu, mid, post, rfl, hstop, hmid⟩
  · rintro ⟨u, -, rfl, hu, mid, post, rfl, hstop, hmid⟩
    exact ⟨u ++ mid, post, (List.append_assoc ..).symm, hstop, u, hu, mid, hmid, rfl⟩

/-- **A repetition** takes any number of characters that it stands for. -/
theorem matchstar_iff {here : List UInt8 → Bool} : matchstar here c text = true ↔
    ∃ u rest, text = u ++ rest ∧ (∀ x ∈ u, Accepts c x) ∧ here rest = true := by
  induction text with
  | nil => simp [matchstar]
  | cons t text ih =>
    simp only [matchstar, Bool.or_eq_true, Bool.and_eq_true, decide_eq_true_eq, ih]
    constructor
    · rintro (h | ⟨ht, u, rest, rfl, hu, h⟩)
      · exact ⟨[], t :: text, rfl, by simp, h⟩
      · exact ⟨t :: u, rest, rfl, List.forall_mem_cons.2 ⟨ht.symm.imp_right Eq.symm, hu⟩, h⟩
    · rintro ⟨u, rest, heq, hu, h⟩
      cases u with
      | nil => exact .inl (by simpa [heq] using h)
      | cons x u =>
        obtain ⟨rfl, rfl⟩ := List.cons.inj heq
        obtain ⟨ht, hu⟩ := List.forall_mem_cons.1 hu
        exact .inr ⟨ht.symm.imp_left Eq.symm, u, rest, rfl, hu, h⟩

theorem matchhere_iff (re text : List UInt8) :
    matchhere re text = true ↔ Begins (readItems re) text := by
  induction hn : re.length using Nat.strong_induction_on generalizing re text with
  | _ n ih =>
    subst hn
    rcases re with _ | ⟨c, _ | ⟨d, re⟩⟩
    · simp [matchhere, readItems, begins_nil]
    · by_cases hc : c = dollar
      · simp [matchhere, readItems, hc, begins_nil]
      · cases text <;> simp [matchhere, readItems, hc, begins_one, begins_nil, Accepts]
    · by_cases hd : d = star
      · have hrest := fun text => ih re.length (by simp) re text rfl
        simp only [matchhere, readItems, hd, if_true, begins_many, matchstar_iff, hrest]
      · have hrest := fun text => ih (d :: re).length (by simp) (d :: re) text rfl
        cases text <;> simp [matchhere, readItems, hd, begins_one, hrest, Accepts]

theorem search_iff {re : List UInt8} : search re text = true ↔
    ∃ pre rest, text = pre ++ rest ∧ matchhere re rest = true := by
  induction text with
  | nil => simp [search]
  | cons t text ih =>
    simp only [search, Bool.or_eq_true, ih]
    constructor
    · rintro (h | ⟨pre, rest, rfl, h⟩)
      · exact ⟨[], t :: text, rfl, h⟩
      · exact ⟨t :: pre, rest, rfl, h⟩
    · rintro ⟨pre, rest, heq, h⟩
      cases pre with
      | nil => exact .inl (by simpa [heq] using h)
      | cons x pre =>
        obtain ⟨rfl, rfl⟩ := List.cons.inj heq
        exact .inr ⟨pre, rest, rfl, h⟩

/-- **The matcher agrees with the meaning of its patterns.** -/
theorem matchText_iff (re text : List UInt8) :
    matchText re text = true ↔ (Pattern.read re).Matches text := by
  have hfree : ∀ items stop, (∃ pre rest, text = pre ++ rest ∧ Begins (items, stop) rest) ↔
      Pattern.Matches ⟨false, items, stop⟩ text := by
    intro items stop
    constructor
    · rintro ⟨pre, -, rfl, mid, post, rfl, hstop, hmid⟩
      exact ⟨pre, mid, post, rfl, by simp, hstop, hmid⟩
    · rintro ⟨pre, mid, post, rfl, -, hstop, hmid⟩
      exact ⟨pre, mid ++ post, rfl, mid, post, rfl, hstop, hmid⟩
  cases re with
  | nil =>
    simp only [matchText, search_iff, matchhere_iff]
    exact hfree [] false
  | cons c re =>
    by_cases hc : c = caret
    · simp only [matchText, Pattern.read, hc, if_true, matchhere_iff]
      constructor
      · rintro ⟨mid, post, rfl, hstop, hmid⟩
        exact ⟨[], mid, post, rfl, by simp, hstop, hmid⟩
      · rintro ⟨pre, mid, post, rfl, hstart, hstop, hmid⟩
        obtain rfl := hstart rfl
        exact ⟨mid, post, rfl, hstop, hmid⟩
    · simp only [matchText, Pattern.read, hc, if_false, search_iff, matchhere_iff]
      exact hfree _ _

/-- `^a*b$`, `$*` and `*` have the meanings that `Pattern.read` gives them. -/
example : matchText [94, 97, 42, 98, 36] [97, 97, 98] = true ∧
  matchText [36, 42, 99] [36, 36, 99] = true ∧
    matchText [42] [97] = false := by decide

end CsklubOs.Grep
