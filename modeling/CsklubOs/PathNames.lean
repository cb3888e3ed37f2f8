/-
**What a path means.**

`skipelem` takes a path apart; `namei` looks the names up one after the other, and `nameiparent`
stops one name early.

Main results:

* `elements_eq_runs` — the names are those that one gets by cutting the path at its slashes;
* `path_resolution` — the two ways to look up a path agree.
-/

import CsklubOs.FailedCalls

set_option autoImplicit false

namespace CsklubOs

/-! ### Names -/

/-- The longest parts of a path, up to its NUL, without a slash. -/
def runs (path : List UInt8) : List (List UInt8) :=
  ((path.takeWhile (· ≠ 0)).splitOn slash).filter (· ≠ [])

theorem runs_slash (path : List UInt8) : runs (slash :: path) = runs path := by
  rfl

theorem runs_dropWhile (path : List UInt8) :
    runs (path.dropWhile fun c => c = slash) = runs path := by
  induction path with
  | nil => rfl
  | cons c path ih =>
    by_cases hc : c = slash
    · rw [List.dropWhile_cons_of_pos (by simpa using hc), ih, hc, runs_slash]
    · rw [List.dropWhile_cons_of_neg (by simpa using hc)]

theorem runs_eq_nil {path : List UInt8} (h : path.headD 0 = 0) : runs path = [] := by
  cases path with
  | nil => rfl
  | cons c path =>
    rw [runs, List.takeWhile_cons_of_neg (by simpa using h), List.splitOn]
    rfl

theorem runs_append {w rest : List UInt8} (hw : w ≠ []) (hin : ∀ c ∈ w, c ≠ slash ∧ c ≠ 0)
    (hrest : rest.headD 0 = 0 ∨ rest.headD 0 = slash) : runs (w ++ rest) = w :: runs rest := by
  have htake : (w ++ rest).takeWhile (· ≠ 0) = w ++ rest.takeWhile (· ≠ 0) :=
    List.takeWhile_append_of_pos fun c hc => decide_eq_true (hin c hc).2
  have hno : ∀ c ∈ w, (c == slash) = false := fun c hc => by simpa using (hin c hc).1
  rcases hrest with hend | hslash
  · have hnil : rest.takeWhile (· ≠ 0) = [] := by
      cases rest with
      | nil => rfl
      | cons c rest => exact List.takeWhile_cons_of_neg (by simpa using hend)
    rw [runs_eq_nil hend, runs, htake, hnil, List.append_nil, List.splitOn,
      List.splitOnP_eq_singleton hno, List.filter_cons_of_pos (by simpa using hw), List.filter_nil]
  · obtain ⟨r, rfl⟩ : ∃ r, rest = slash :: r := by
      cases rest with
      | nil => exact absurd hslash (by decide)
      | cons c r => exact ⟨r, by rw [← hslash]; rfl⟩
    rw [runs, htake, List.takeWhile_cons_of_pos (by decide), List.splitOn,
      List.splitOnP_append_cons_of_forall_mem hno _ (by simp),
      List.filter_cons_of_pos (by simpa using hw)]
    rfl

/-- **Repeated `skipelem` finds the names of a path.** -/
theorem elements_eq_runs (path : List UInt8) :
    elements path = (runs path).map (List.take dirSiz) := by
  induction hn : path.length using Nat.strong_induction_on generalizing path with
  | _ n ih =>
    rw [elements_eq, ← runs_dropWhile path]
    cases hskip : skipelem path with
    | none =>
      rw [skipelem] at hskip
      split at hskip
      · rw [runs_eq_nil ‹_›]
        rfl
      · cases hskip
    | some r =>
      obtain ⟨name, rest⟩ := r
      have hlen := skipelem_length hskip
      have hfirst := List.head?_dropWhile_not (fun c => decide (c = slash)) path
      rw [skipelem] at hskip
      generalize path.dropWhile (fun c => c = slash) = l at hskip hfirst
      split at hskip
      · cases hskip
      rename_i hhead
      obtain ⟨rfl, rfl⟩ := Prod.mk.inj (Option.some.inj hskip)
      have hrest := List.head?_dropWhile_not (fun c => decide (c ≠ slash ∧ c ≠ 0)) l
      show _ :: elements _ = _
      rw [ih _ (hn ▸ hlen) _ rfl, runs_dropWhile, ← List.map_cons, ← runs_append]
      · rw [List.takeWhile_append_dropWhile]
      · cases l with
        | nil => exact absurd rfl hhead
        | cons c l =>
          have hc : c ≠ slash := by simpa using hfirst
          rw [List.takeWhile_cons, if_pos (decide_eq_true ⟨hc, hhead⟩)]
          exact List.cons_ne_nil c _
      · intro c hc
        simpa using List.mem_takeWhile_imp hc
      · generalize l.dropWhile (fun c => decide (c ≠ slash ∧ c ≠ 0)) = r at hrest
        cases r with
        | nil => exact .inl rfl
        | cons c r =>
          have hc : c ≠ slash → c = 0 := by simpa using hrest
          exact (em (c = slash)).symm.imp hc id

/-! ### Looking up -/

namespace NameTree

/-- A path leads to the entry that has its last name, in the directory that the names before it lead
to. -/
theorem resolve_eq_parent (t : NameTree) {es : List (List UInt8)} (hes : es ≠ []) :
    ∀ i, resolve t i es =
    (resolveParent t i es).bind fun d => ((t d.1).find d.2).map Dirent.inum := by
  induction es with
  | nil => exact absurd rfl hes
  | cons e es ih =>
    intro i
    cases es with
    | nil =>
      rw [resolve, resolveParent]
      split
      · rw [Option.bind_some, Option.map_eq_bind]
        rfl
      · rfl
    | cons e' es =>
      rw [resolve, resolveParent]
      split
      · rw [Option.bind_assoc]
        exact congrArg _ (funext fun x => ih (List.cons_ne_nil e' es) x.inum)
      · rfl

end NameTree

namespace Fs

open Wp NameTree

variable [Superblock] {s : Fs} {R : Multiset IPtr} {cwd : IPtr} {path : List UInt8}

/-- The panics of a lookup: all entries of the inode table but one are held, or a name leads to a
free inode. -/
def lookupPanic (s : Fs) (R : Multiset IPtr) (e : FsPanic) : Prop :=
  e = .igetNoInodes ∧ Crowded R ∨ e = .ilockNoType ∧ Dangling (tree s)

/-- What a lookup returned is the inode `i`, and nothing has changed on disk. -/
def LedTo (s : Fs) (i : Option ℕ) (r : Option IPtr) (s' : Fs) : Prop :=
  SameDisk s s' ∧ r.map (fun q => (s'.itable q).inum) = i

/-- `dirlookup` of the name that `nameiparent` returns, in the directory that it returns. -/
def viaParent (cwd : IPtr) (path : List UInt8) : FsM (Option IPtr) := do
  match ← nameiparent cwd path with
  | none => pure none
  | some (dp, name) => do
    let r ← dirlookup dp name
    pure (r.map Prod.fst)

theorem standing_of_held (h : Sound s R) (hc : cwd ∈ R) :
    Standing (tree s) (inUse s R) (lookupPanic s R) (s.itable cwd).inum :=
  ⟨.inl ⟨cwd, hc, rfl⟩, fun hfree => absurd hfree (h.steady.used _ ⟨cwd, hc, rfl⟩)⟩

theorem walkable_of_sound (h : Sound s R) : Walkable (tree s) (inUse s R) (lookupPanic s R) :=
  h.steady.walkable fun hd => .inr ⟨rfl, hd⟩

theorem wp_namei_found (h : Sound s R) (hc : cwd ∈ R) : wp (namei cwd path)
    (LedTo s (resolve (tree s) (startInum s cwd path) (elements path))) (lookupPanic s R) s := by
  rw [namei, wp_bind]
  refine wp_namex_standing h.dir (walkable_of_sound h) hc (standing_of_held h hc)
    (fun hcr => .inl ⟨rfl, hcr⟩) (fun s' _ _ hd hno => wp_pure.2 ⟨hd, (hno.1 rfl).symm⟩)
    fun q nm s' hwalk _ hres _ => ?_
  exact wp_pure.2 ⟨hwalk.disk, (hres rfl).symm⟩

theorem wp_viaParent_found (h : Sound s R) (hc : cwd ∈ R) (hes : elements path ≠ []) :
    wp (viaParent cwd path) (LedTo s (resolve (tree s) (startInum s cwd path) (elements path)))
      (lookupPanic s R) s := by
  rw [resolve_eq_parent _ hes, viaParent, wp_bind]
  refine wp_namex_standing h.dir (walkable_of_sound h) hc (standing_of_held h hc)
    (fun hcr => .inl ⟨rfl, hcr⟩) (fun s' _ _ hd hno => wp_pure.2 ⟨hd, ?_⟩)
    fun q nm s' hwalk hstand _ hpar => wp_bind.2 ?_
  · rw [hno.2 rfl]
    rfl
  · obtain ⟨hv, hres⟩ := hpar rfl
    have hdir := dir_of_resolveParent hres
    have htree := tree_congr hwalk.disk
    rw [hres, Option.bind_some]
    refine wp_dirlookup hwalk.dir (Multiset.mem_cons_self q R) hv (htree ▸ hdir) (fun e he => ?_)
      (fun hall => .inl ⟨rfl, q, hall⟩) (fun hfind => wp_pure.2 ⟨hwalk.disk, ?_⟩)
      fun k e q' s'' _ _ _ hfind _ _ hd hi _ =>
        wp_pure.2 ⟨hwalk.disk.trans hd, ?_⟩
    · rw [htree] at he
      exact (h.steady.entries _ hstand.1 hdir e he).1
    · rw [htree] at hfind
      rw [hfind]
      rfl
    · rw [htree] at hfind
      rw [hfind, Option.map_some, Option.map_some, Option.map_some, hi]

/-- **Path resolution.** -/
theorem path_resolution (h : Sound s R) (hc : cwd ∈ R) (path : List UInt8) :
    elements path = (runs path).map (List.take dirSiz) ∧
    wp (namei cwd path) (LedTo s (resolve (tree s) (startInum s cwd path) (elements path)))
    (lookupPanic s R) s ∧ (elements path ≠ [] → wp (viaParent cwd path)
      (LedTo s (resolve (tree s) (startInum s cwd path) (elements path))) (lookupPanic s R) s) ∧
    (elements path = [] → wp (nameiparent cwd path) (fun r _ => r = none) (lookupPanic s R) s) ∧
    ∀ path', startInum s cwd path' = startInum s cwd path → elements path' = elements path →
      wp (namei cwd path') (LedTo s (resolve (tree s) (startInum s cwd path) (elements path)))
        (lookupPanic s R) s := by
  refine ⟨elements_eq_runs path, wp_namei_found h hc, wp_viaParent_found h hc, fun hnil => ?_,
    fun path' hstart hes => hstart ▸ hes ▸ wp_namei_found h hc⟩
  refine wp_namex_standing h.dir (walkable_of_sound h) hc (standing_of_held h hc)
    (fun hcr => .inl ⟨rfl, hcr⟩) (fun s' _ _ hd hno => rfl) fun q nm s' hwalk _ _ hpar => ?_
  have hres := (hpar rfl).2
  rw [hnil] at hres
  cases hres

omit [Superblock] in
/-- The root directory names the inode 2, a file, by `a`: `//a/` leads to it. -/
theorem path_resolution_file : ∃ (_ : Superblock) (s : Fs),
    Sound s {⟨0, by decide⟩} ∧ elements [47, 47, 97, 47] = [[97]] ∧
    wp (namei ⟨0, by decide⟩ [47, 47, 97, 47]) (LedTo s (some 2)) (fun _ => False) s := by
  let S : Superblock := FileSys.threeInodes
  have hrun : ∃ s, Runs.Reach InodeSys.step (fun _ _ => True) FileSys.formatted s ∧ FileSys.Tidy s ∧
      resolve (tree s.fs) rootIno [[97]] = some 2 :=
    Runs.exists_reach_of_exec [.create .dir 0 0, .create .file 0 0,
      .writei (0 : Fin 50) (2 :: 0 :: 97 :: List.replicate 13 0) 0 16, .iput (1 : Fin 50)]
      (by decide +kernel)
  obtain ⟨s, hreach, htidy, hres⟩ := hrun
  have hsound := htidy.sound hreach
  have hfound := (path_resolution hsound (Multiset.mem_singleton_self _) [47, 47, 97, 47]).2.1
  refine ⟨S, s.fs, hsound, by decide, wp_mono (hres ▸ hfound) (fun _ _ h => h) ?_⟩
  rintro e (⟨-, hcrowded⟩ | ⟨-, hdangling⟩)
  · exact absurd hcrowded (by unfold Crowded; decide +kernel)
  · exact htidy.not_dangling hdangling

end Fs

end CsklubOs
