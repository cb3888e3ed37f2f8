/-
**Names and links of a file system.**

What directories mean, away from blocks and bytes.

Main definitions:

* `NameTree` — every inode has a type, a count of links and, if it is a directory, entries;
* `reap` — the end of a use frees an inode that has no links;
* `resolve`, `resolveParent` — a path leads from inode to inode.
-/

import CsklubOs.Dirent
import CsklubOs.Inode

set_option autoImplicit false

namespace CsklubOs

open Function

/-! ### Inodes -/

/-- An inode as the names see it; only directories have slots. -/
structure Node where
  type : IType
  nlink : ℤ
  slots : List Dirent
  deriving DecidableEq

namespace Node

/-- An inode that is not in use. -/
def free : Node := ⟨.free, 0, []⟩

end Node

/-- Where `dirlink` puts an entry: over an empty slot, or at the end. -/
def placeAt (l : List Dirent) (k : ℕ) (e : Dirent) : List Dirent :=
  if k < l.length then l.set k e else l ++ [e]

theorem getElem?_placeAt {l : List Dirent} {k : ℕ} {e : Dirent} (hk : k ≤ l.length) (m : ℕ) :
    (placeAt l k e)[m]? = if m = k then some e else l[m]? := by
  rw [placeAt]
  split
  · rename_i hlt
    rw [List.getElem?_set]
    by_cases hm : k = m
    · rw [if_pos hm, if_pos hlt, if_pos hm.symm]
    · rw [if_neg hm, if_neg (Ne.symm hm)]
  · have hkl : k = l.length := by omega
    rw [List.getElem?_append, hkl]
    by_cases hm : m = l.length
    · rw [hm, if_neg (Nat.lt_irrefl _), if_pos rfl, Nat.sub_self]
      rfl
    · split
      · rfl
      · have hold : l[m]? = none := List.getElem?_eq_none (by omega)
        have hnew : [e][m - l.length]? = none :=
          List.getElem?_eq_none (by rw [List.length_singleton]; omega)
        rw [hold, hnew]

/-! ### File systems -/

/-- A file system as the names see it. -/
abbrev NameTree : Type := ℕ → Node

namespace NameTree

variable {t : NameTree} {i : ℕ} {u : ℕ → Prop}

/-! ### The end of a use -/

open Classical in
/-- When a use of `i` has ended: the inode is freed if it has no links and no other use. -/
noncomputable def reap (t : NameTree) (u : ℕ → Prop) (i : ℕ) : NameTree :=
  if (t i).type ≠ .free ∧ (t i).nlink = 0 ∧ ¬ u i then update t i Node.free else t

theorem reap_pos (hi : (t i).type ≠ .free) (hlink : (t i).nlink = 0) (hu : ¬ u i) :
    reap t u i = update t i Node.free :=
  if_pos ⟨hi, hlink, hu⟩

theorem reap_neg (h : (t i).type ≠ .free → (t i).nlink = 0 → u i) : reap t u i = t :=
  if_neg fun hx => hx.2.2 (h hx.1 hx.2.1)

end NameTree

/-! ### Paths -/

/-- The entry of a directory that has a name. -/
def Node.find (n : Node) (name : List UInt8) : Option Dirent :=
  n.slots.find? fun e => e.inum ≠ 0 ∧ e.name = cname name

namespace NameTree

/-- The inode that a path leads to, from inode `i` on. -/
def resolve (t : NameTree) : ℕ → List (List UInt8) → Option ℕ
  | i, [] => some i
  | i, e :: es =>
    if (t i).type = .dir then ((t i).find e).bind fun x => resolve t x.inum es else none

/-- The directory that all but the last element of a path lead to, and the last element. -/
def resolveParent (t : NameTree) : ℕ → List (List UInt8) → Option (ℕ × List UInt8)
  | _, [] => none
  | i, [e] => if (t i).type = .dir then some (i, e) else none
  | i, e :: e' :: es =>
    if (t i).type = .dir then ((t i).find e).bind fun x =>
      resolveParent t x.inum (e' :: es) else none

theorem same_setNlink (t : NameTree) (i : ℕ) (x : ℤ) (y : ℕ) :
    (update t i { t i with nlink := x } y).type = (t y).type ∧
      (update t i { t i with nlink := x } y).slots = (t y).slots := by
  by_cases hy : y = i
  · rw [hy, update_self]
    exact ⟨rfl, rfl⟩
  · rw [update_of_ne hy]
    exact ⟨rfl, rfl⟩

end NameTree

end CsklubOs
