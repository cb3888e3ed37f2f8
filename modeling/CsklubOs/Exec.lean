/-
**`exec` and the pages it takes and gives back.**

`exec` of `kernel/exec.c` with `loadseg` and `flags2perm`, and `sys_exec` of `kernel/sysfile.c` with
its argument pages.  The loading of a program is written for any state that contains memory and any
way to read the file (`ExecEnv`), so that it is the same code on the bytes of a file, here, and on
an inode, in `ExecCall`.  What the system call finds in user memory is arbitrary.

Every exit is followed: through `bad` at each of its places, with whatever has been mapped by then,
and through the commit, which frees the old image.

Main definitions:

* `ExecEnv.loadseg`, `ExecEnv.loadSegs`, `ExecEnv.load` — from the ELF header to the last segment;
* `MemView.withArgs` — the argument pages of `sys_exec`;
* `exec`, `sysExec` — both on the bytes of a file.

Main results:

* `ExecEnv.wp_load` — what has been loaded is an address space, also when the loading fails;
* `MemView.wp_withArgs` — the argument pages are given back;
* `wp_sysExec` — a new image for the old one, or everything as it was.
-/

import CsklubOs.ExecArgs

set_option autoImplicit false

namespace CsklubOs

open Wp Multiset

/-! ### The file -/

/-- `readi` on the bytes of a file: the bytes that are read, with the 32-bit offset check of the
source. -/
def readi (file : List UInt8) (off n : ℕ) : List UInt8 :=
  if file.length < off ∨ (off + n) % 2 ^ 32 < off then [] else (file.drop off).take n

section

variable (bs : List UInt8)

/-- The number in `k` bytes at offset `o`. -/
def field (o k : ℕ) : ℕ := ByteSeq.leVal ((bs.drop o).take k)

/-- The fields of `struct elfhdr` that `exec` reads. -/
structure ElfHdr where
  magic : ℕ
  entry : ℕ
  phoff : ℕ
  phnum : ℕ

/-- `sizeof(struct elfhdr)`. -/
def elfHdrSize : ℕ := 64

def elfMagic : ℕ := 0x464C457F

def elfHdr : ElfHdr := ⟨field bs 0 4, field bs 24 8, field bs 32 8, field bs 56 2⟩

/-- The fields of `struct proghdr` that `exec` reads. -/
structure ProgHdr where
  type : ℕ
  flags : ℕ
  off : ℕ
  vaddr : ℕ
  filesz : ℕ
  memsz : ℕ

/-- `sizeof(struct proghdr)`. -/
def progHdrSize : ℕ := 56

def elfProgLoad : ℕ := 1

def progHdr : ProgHdr :=
  ⟨field bs 0 4, field bs 4 4, field bs 8 8, field bs 16 8, field bs 32 8, field bs 40 8⟩

theorem field_lt (o k : ℕ) : field bs o k < 256 ^ k := by
  refine (ByteSeq.leVal_lt _).trans_le (Nat.pow_le_pow_right (by decide) ?_)
  rw [List.length_take]
  exact Nat.min_le_left ..

theorem vaddr_lt : (progHdr bs).vaddr < 2 ^ 64 := field_lt bs 16 8

theorem memsz_lt : (progHdr bs).memsz < 2 ^ 64 := field_lt bs 40 8

end

def flags2perm (flags : ℕ) : Perm := ⟨false, flags.testBit 1, flags.testBit 0, false⟩

/-! ### The code -/

/-- A state that contains memory, and its panics among the panics. -/
structure MemView (σ ε : Type) where
  err : VmPanic → ε
  mem : σ → Kmem
  setMem : Kmem → σ → σ

/-- **What `exec` runs on**: memory, and a file that is read into the kernel. -/
structure ExecEnv (σ ε : Type) extends MemView σ ε where
  readi : ℕ → ℕ → StateT σ (Except ε) (List UInt8)

/-- What the loading of a program comes to: `goto bad`, with the image so far, or an image and its
entry point. -/
inductive Loaded
  | bad (image : Option (PageTable × ℕ))
  | image (pt : PageTable) (sz entry : ℕ)

/-- A string that `fetchstr` has put into a page. -/
abbrev ArgStr := { s : List UInt8 // s.length < pgSize }

/-- An argument vector: the strings in an array of `MAXARG` pointers, of which a null pointer ends
the vector. -/
structure ArgVec where
  strs : List ArgStr
  ended : strs.length < maxArg

def ArgVec.bytes (argv : ArgVec) : List (List UInt8) := argv.strs.map Subtype.val

/-- What `sys_exec` finds when it fetches one element of `argv`: a fault, the null pointer, or a
pointer from which `fetchstr` reads a string or fails. -/
inductive ArgFetch
  | fault
  | null
  | str (r : Option ArgStr)

/-- The loop of `sys_exec` from argument `i` on, for the number of places that is left in `argv`:
the pages in `argv`, and the strings or `none` for `goto bad`. -/
def fetchArgs (uargv : ℕ → ArgFetch) :
    ℕ → ℕ → List ℕ → List ArgStr → VmM (List ℕ × Option (List ArgStr))
  | 0, _, argv, _ => pure (argv, none)
  | m + 1, i, argv, strs =>
    match uargv i with
    | .fault => pure (argv, none)
    | .null => pure (argv, some strs)
    | .str r => do
      match ← kalloc with
      | none => pure (argv, none)
      | some pg =>
        match r with
        | none => pure (argv ++ [pg], none)
        | some s => fetchArgs uargv m (i + 1) (argv ++ [pg]) (strs ++ [s])

section

variable {σ ε α : Type}

/-- Code of the virtual memory. -/
def MemView.vm (v : MemView σ ε) (m : VmM α) : StateT σ (Except ε) α := embed v.err v.mem v.setMem m

/-- `sys_exec` from the argument vector on, around the call of `exec`. -/
def MemView.withArgs [KernelImage] (v : MemView σ ε) (uargv : ℕ → ArgFetch)
    (exec : ArgVec → StateT σ (Except ε) (Option α)) :
    StateT σ (Except ε) (Option α) := do
  let (argv, strs) ← v.vm (fetchArgs uargv maxArg 0 [] [])
  match strs with
  | none => do
    v.vm (forM argv kfree)
    pure none
  | some strs =>
    if h : strs.length < maxArg then do
      let ret ← exec ⟨strs, h⟩
      v.vm (forM argv kfree)
      pure ret
    else throw (v.err .argv)

namespace ExecEnv

variable (x : ExecEnv σ ε)

/-- The loop of `loadseg` from offset `i` on, a number of 32 bits. -/
def loadLoop (pt : PageTable) (va offset sz : ℕ) : ℕ → ℕ → StateT σ (Except ε) Bool
  | 0, _ => throw (x.err .endless)
  | fuel + 1, i =>
    if i < sz then do
      match ← x.vm (walkaddr pt ((va + i) % 2 ^ 64)) with
      | none => throw (x.err .loadseg)
      | some pa => do
        let n := if sz - i < pgSize then sz - i else pgSize
        let bs ← x.readi ((offset + i) % 2 ^ 32) n
        x.vm (modify fun km => { km with mem := poke (pa * pgSize) bs km.mem })
        if bs.length = n then loadLoop pt va offset sz fuel ((i + pgSize) % 2 ^ 32)
        else pure false
    else pure true

def loadseg (pt : PageTable) (va offset sz : ℕ) : StateT σ (Except ε) Bool :=
  x.loadLoop pt va offset sz (npages sz + 1) 0

variable [KernelImage]

/-- The loop of `exec` over the program headers, for the number that is left: the table, the size,
and whether the loop ended without `goto bad`. -/
def loadSegs : ℕ → ℕ → PageTable → ℕ → StateT σ (Except ε) (PageTable × ℕ × Bool)
  | 0, _, pt, sz => pure (pt, sz, true)
  | m + 1, off, pt, sz => do
    let bs ← x.readi off progHdrSize
    let ph := progHdr bs
    if bs.length ≠ progHdrSize then pure (pt, sz, false)
    else if ph.type ≠ elfProgLoad then loadSegs m ((off + progHdrSize) % 2 ^ 32) pt sz
    else if ph.memsz < ph.filesz then pure (pt, sz, false)
    else if (ph.vaddr + ph.memsz) % 2 ^ 64 < ph.vaddr then pure (pt, sz, false)
    else if ph.vaddr % pgSize ≠ 0 then pure (pt, sz, false)
    else do
      let (pt, sz1) ← x.vm (uvmalloc pt sz ((ph.vaddr + ph.memsz) % 2 ^ 64) (flags2perm ph.flags))
      if sz1 = 0 then pure (pt, sz, false)
      else do
        let loaded ← x.loadseg pt ph.vaddr (ph.off % 2 ^ 32) (ph.filesz % 2 ^ 32)
        if loaded then loadSegs m ((off + progHdrSize) % 2 ^ 32) pt sz1
        else pure (pt, sz1, false)

/-- `exec` from the ELF header to the last segment, for a process with trapframe page `tf`. -/
def load (tf : ℕ) : StateT σ (Except ε) Loaded := do
  let bs ← x.readi 0 elfHdrSize
  let elf := elfHdr bs
  if bs.length ≠ elfHdrSize then pure (.bad none)
  else if elf.magic ≠ elfMagic then pure (.bad none)
  else do
    match ← x.vm (procPagetable tf) with
    | none => pure (.bad none)
    | some pt => do
      let (pt, sz, loaded) ← x.loadSegs elf.phnum (elf.phoff % 2 ^ 32) pt 0
      pure (if loaded then .image pt sz elf.entry else .bad (some (pt, sz)))

end ExecEnv

end

/-- Memory alone. -/
def kmemView : MemView Kmem VmPanic := ⟨id, id, fun km _ => km⟩

/-- The bytes of a file. -/
def ofFile (file : List UInt8) : ExecEnv Kmem VmPanic :=
  { kmemView with readi := fun off n => pure (readi file off n) }

section Code

variable [KernelImage]

/-- `if(pagetable) proc_freepagetable(pagetable, sz);` -/
def freeImage : Option (PageTable × ℕ) → VmM Unit
  | none => pure ()
  | some (pt, sz) => procFreepagetable pt sz

/-- `exec`, for a process with trapframe page `tf` and the given image: the new page table and size,
or `none` for `-1`; `file` is `none` when `namei` fails. -/
def exec (file : Option (List UInt8)) (argv : ArgVec) (tf : ℕ) (oldpt : PageTable) (oldsz : ℕ) :
    VmM (Option (PageTable × ℕ)) :=
  match file with
  | none => pure none
  | some file => do
    match ← (ofFile file).load tf with
    | .bad image => do
      freeImage image
      pure none
    | .image pt sz _ => do
      let r ← execTail argv.bytes pt (pgRoundUp sz) oldpt oldsz
      pure (r.map fun image => (image.1, image.2.1))

/-- What a call of `sys_exec` is made with: whether the path can be fetched, the file that `namei`
finds, and the argument vector. -/
structure ExecArg where
  path : Bool
  file : Option (List UInt8)
  uargv : ℕ → ArgFetch

/-- `sys_exec`: the new page table and size, or `none` for `-1`. -/
def sysExec (a : ExecArg) (tf : ℕ) (oldpt : PageTable) (oldsz : ℕ) : VmM (Option (PageTable × ℕ)) :=
  if a.path then kmemView.withArgs a.uargv fun argv => exec a.file argv tf oldpt oldsz
  else pure none

end Code

/-! ### Loading the segments -/

section Spec

variable [KernelImage]

variable {km : Kmem} {n tf m sz : ℕ} {pt : PageTable} {T : Multiset ℕ} {g : Option ℕ}

theorem wp_walkaddr_user {v j : ℕ} {Q : Option ℕ → Kmem → Prop} {E : VmPanic → Prop}
    (hsp : Space (leaf pt) n tf none) (hn : v + j < n) (hQ : ∀ pa, Q (some pa) km) :
    wp (walkaddr pt ((v * pgSize + j * pgSize) % 2 ^ 64)) Q E km := by
  have hlt : v + j < 2 ^ 26 := lt_of_lt_trapframeNo (by have := hsp.bound; omega)
  have hva := mul_pgSize_lt hlt
  have hmod : (v * pgSize + j * pgSize) % 2 ^ 64 = (v + j) * pgSize := by
    rw [← Nat.add_mul]
    exact Nat.mod_eq_of_lt (hva.trans (by decide))
  obtain ⟨e, he, -, hu⟩ := hsp.user (v + j) hn
  rw [hmod]
  exact wp_walkaddr hva (by rw [pteAt_eq_leaf hlt, he]) (hu.2 fun h => by cases h) (hQ e.ppn)

omit [KernelImage] in
theorem segment_le {vaddr filesz memsz : ℕ} (hv : vaddr % pgSize = 0) (hf : filesz ≤ memsz)
    (hsz : vaddr + memsz ≤ sz) : vaddr / pgSize + npages (filesz % 2 ^ 32) ≤ npages sz := by
  unfold npages pgSize at *
  omega

omit [KernelImage] in
theorem filesz_small {vaddr filesz memsz : ℕ} (hcard : npages sz ≤ physTop / pgSize)
    (hf : filesz ≤ memsz) (hsz : vaddr + memsz ≤ sz) : filesz + pgSize ≤ 2 ^ 32 := by
  have hle := le_npages_mul sz
  have htop : physTop / pgSize * pgSize + pgSize ≤ 2 ^ 32 := by decide
  have hmul := Nat.mul_le_mul_right pgSize hcard
  omega

theorem wp_uvmalloc_segment {vaddr memsz : ℕ} {xperm : Perm}
    (hsp : Space (leaf pt) (npages sz) tf none) (hT : km.free + ptPages pt = T) (hfit : Fits T)
    (hv : vaddr < 2 ^ 64) (hm : memsz < 2 ^ 64) (hwrap : ¬ (vaddr + memsz) % 2 ^ 64 < vaddr) :
    wp (uvmalloc pt sz ((vaddr + memsz) % 2 ^ 64) xperm)
      (fun r km' => km'.free + ptPages r.1 = T ∧
        (r.2 = 0 → Space (leaf r.1) (npages sz) tf none) ∧
        (r.2 ≠ 0 → Space (leaf r.1) (npages r.2) tf none ∧ vaddr + memsz ≤ r.2)) noPanic km := by
  -- the check against wrapping around leaves the sum as it is
  have hsum : (vaddr + memsz) % 2 ^ 64 = vaddr + memsz := by omega
  rw [hsum]
  refine (wp_uvmalloc hsp (fun j hj => by cases hj) hT hfit).mono ?_
  rintro ⟨pt1, sz₁⟩ km1 ⟨hT1, ⟨(hsz1 : sz₁ = _), hsp1⟩ | ⟨(hsz1 : sz₁ = _), hsp1⟩⟩
  · refine ⟨hT1, fun (hzero : sz₁ = 0) => ?_, fun _ => ⟨hsz1 ▸ hsp1, hsz1 ▸ Nat.le_max_right ..⟩⟩
    have hsz : max sz (vaddr + memsz) = sz := by omega
    rwa [hsz] at hsp1
  · exact ⟨hT1, fun _ => hsp1, fun hnz => absurd hsz1 hnz⟩

/-- The pages that are to be given back, together with the image built so far, are `T`. -/
def Holding (T : Multiset ℕ) (tf : ℕ) : Option (PageTable × ℕ) → Kmem → Prop
  | none, km => km.free = T
  | some (pt, sz), km => km.free + ptPages pt = T ∧ ∃ g, Space (leaf pt) (npages sz) tf g

/-- The same for what the loading comes to. -/
def Loaded.Holds (T : Multiset ℕ) (tf : ℕ) : Loaded → Kmem → Prop
  | .bad built, km => Holding T tf built km
  | .image pt sz _, km => km.free + ptPages pt = T ∧ Space (leaf pt) (npages sz) tf none

theorem wp_freeImage {image : Option (PageTable × ℕ)} (h : Holding T tf image km) (hfit : Fits T) :
    wp (freeImage image) (fun _ km' => km'.free = T) noPanic km := by
  rcases image with _ | ⟨pt, sz⟩
  · exact wp_pure.2 h
  · obtain ⟨rfl, g, hsp⟩ := h
    exact (wp_procFreepagetable hsp hfit).mono fun _ _ h => h.free

omit [KernelImage] in
/-- The pages that `sys_exec` takes for arguments are in `argv`, and the null pointer that ends the
vector has its place there. -/
theorem wp_fetchArgs {uargv : ℕ → ArgFetch} {i : ℕ} {argv : List ℕ} {strs : List ArgStr} :
    wp (fetchArgs uargv m i argv strs)
      (fun r km' => km'.free + (r.1 : Multiset ℕ) = km.free + (argv : Multiset ℕ) ∧
        ∀ l ∈ r.2, l.length < strs.length + m) noPanic km := by
  have hbad : ∀ {k : ℕ}, ∀ l ∈ (none : Option (List ArgStr)), l.length < k := fun _ h => by cases h
  induction m generalizing i argv strs km with
  | zero => exact wp_pure.2 ⟨rfl, hbad⟩
  | succ m ih =>
    rw [fetchArgs]
    split
    · exact wp_pure.2 ⟨rfl, hbad⟩
    · refine wp_pure.2 ⟨rfl, fun l h => ?_⟩
      obtain rfl : strs = l := Option.some_inj.1 h
      omega
    · rename_i r _
      refine wp_bind.2 (wp_kalloc (fun _ => wp_pure.2 ⟨rfl, hbad⟩) fun pg km1 ht => ?_)
      have hpush : km1.free + ((argv ++ [pg] : List ℕ) : Multiset ℕ) = km.free + argv := by
        rw [← coe_add, ht.free]
        abel
      cases r with
      | none => exact wp_pure.2 ⟨hpush, hbad⟩
      | some s =>
        refine ih.mono fun r km' h => ⟨h.1.trans hpush, fun l hl => ?_⟩
        have hlt := h.2 l hl
        rw [List.length_append, List.length_singleton] at hlt
        omega

theorem wp_kfree_list {l : List ℕ} (hu : ∀ x ∈ l, Usable x) :
    wp (forM l kfree) (fun _ km' => km'.free = km.free + (l : Multiset ℕ)) noPanic km := by
  refine wp_forM (I := fun l' km' => (∀ x ∈ l', Usable x) ∧
    km'.free + (l' : Multiset ℕ) = km.free + (l : Multiset ℕ)) ⟨hu, rfl⟩ ?_ ?_
  · rintro pg l' km1 ⟨hu', hI⟩
    refine wp_kfree (hu' pg (List.mem_cons_self ..)) fun km2 hkm2 =>
      ⟨fun x hx => hu' x (List.mem_cons_of_mem _ hx), ?_⟩
    rw [← hI, hkm2.free, ← cons_coe, ← singleton_add]
    abel
  · rintro km1 ⟨-, hI⟩
    rwa [coe_nil, add_zero] at hI

section

variable {σ ε α : Type} {v : MemView σ ε} {x : ExecEnv σ ε} {E : ε → Prop} {I : σ → Prop} {s : σ}

/-- Changing memory keeps `I`. -/
structure MemView.Keeps (v : MemView σ ε) (I : σ → Prop) : Prop where
  mem_setMem : ∀ km s, v.mem (v.setMem km s) = km
  setMem : ∀ km s, I s → I (v.setMem km s)

/-- Reading the file does nothing else. -/
structure ExecEnv.Keeps (x : ExecEnv σ ε) (E : ε → Prop) (I : σ → Prop) : Prop
    extends x.toMemView.Keeps I where
  readi : ∀ off n s (Q : List UInt8 → σ → Prop), I s → (∀ bs, Q bs s) → wp (x.readi off n) Q E s

omit [KernelImage] in
theorem keeps_kmemView : kmemView.Keeps fun _ => True := ⟨fun _ _ => rfl, fun _ _ _ => trivial⟩

omit [KernelImage] in
theorem keeps_ofFile (file : List UInt8) (E : VmPanic → Prop) :
    (ofFile file).Keeps E fun _ => True :=
  ⟨keeps_kmemView, fun _ _ _ _ _ hQ => wp_pure.2 (hQ _)⟩

omit [KernelImage] in
theorem MemView.Keeps.wp_vm {m : VmM α} {P : α → Kmem → Prop} {Q : α → σ → Prop} (hv : v.Keeps I)
    (hs : I s) (h : wp m P noPanic (v.mem s)) (hQ : ∀ a s', I s' → P a (v.mem s') → Q a s') :
    wp (v.vm m) Q E s := by
  refine wp_embed.2 (wp_mono h (fun a km hP => hQ a _ (hv.setMem km s hs) ?_) fun _ he => he.elim)
  rwa [hv.mem_setMem]

/-- **The argument pages** are given back after the call of `exec`. -/
theorem MemView.wp_withArgs {uargv : ℕ → ArgFetch} {exec : ArgVec → StateT σ (Except ε) (Option α)}
    {Q : Option α → σ → Prop} (hv : v.Keeps I) (hs : I s) (hu : ∀ p ∈ (v.mem s).free, Usable p)
    (hnone : ∀ s', I s' → (v.mem s').free = (v.mem s).free → Q none s')
    (hexec : ∀ argv (A : Multiset ℕ) s1, I s1 → (v.mem s1).free + A = (v.mem s).free →
      wp (exec argv) (fun r s2 => ∀ km, km.free = (v.mem s2).free + A →
      Q r (v.setMem km s2)) E s1) :
    wp (v.withArgs uargv exec) Q E s := by
  rw [withArgs, wp_bind]
  refine hv.wp_vm hs wp_fetchArgs ?_
  rintro ⟨argv, strs⟩ s1 hs1 ⟨hargv, hlen⟩
  rw [coe_nil, add_zero] at hargv
  have hu1 : ∀ p ∈ argv, Usable p := fun p hp => hu p (hargv ▸ mem_add.2 (.inr hp))
  cases strs with
  | none =>
    refine wp_bind.2 (hv.wp_vm hs1 (wp_kfree_list hu1) fun _ s2 hs2 hfree => ?_)
    exact wp_pure.2 (hnone s2 hs2 (hfree.trans hargv))
  | some strs =>
    have hlt : strs.length < maxArg := by
      have hlt := hlen strs rfl
      rwa [List.length_nil, Nat.zero_add] at hlt
    show wp (if h : strs.length < maxArg then _ else _) _ _ _
    rw [dif_pos hlt, wp_bind]
    refine (hexec ⟨strs, hlt⟩ argv s1 hs1 hargv).mono fun r s2 hr => wp_bind.2 (wp_embed.2 ?_)
    exact wp_mono (wp_kfree_list hu1) (fun _ km hkm => wp_pure.2 (hr km hkm)) fun _ he => he.elim

namespace ExecEnv

section

variable (hx : x.Keeps E I) (hs : I s)

include hx hs

theorem wp_loadLoop {offset v j : ℕ} {Q : Bool → σ → Prop} (hsp : Space (leaf pt) n tf none)
    (hn : v + npages sz ≤ n) (hsz : sz + pgSize ≤ 2 ^ 32) (hm : j + m = npages sz)
    (hQ : ∀ b s', I s' → (x.mem s').free = (x.mem s).free → Q b s') :
    wp (x.loadLoop pt (v * pgSize) offset sz (m + 1) (j * pgSize)) Q E s := by
  induction m generalizing j s with
  | zero =>
    have hend : ¬ j * pgSize < sz := by
      have hle := le_npages_mul sz
      rw [← hm, Nat.add_zero] at hle
      omega
    rw [loadLoop, if_neg hend]
    exact wp_pure.2 (hQ true s hs rfl)
  | succ m ih =>
    refine wp_ite (fun hlt => wp_bind.2 ?_) fun _ => wp_pure.2 (hQ true s hs rfl)
    refine hx.wp_vm hs (wp_walkaddr_user (Q := fun r km => ∃ pa, r = some pa ∧
      km.free = (x.mem s).free) hsp (by omega) fun pa => ⟨pa, rfl, rfl⟩) ?_
    rintro _ s1 hs1 ⟨pa, rfl, hfree1⟩
    refine wp_bind.2 (hx.readi _ _ _ _ hs1 fun bs => wp_bind.2 (hx.wp_vm hs1
      (P := fun _ km => km.free = (x.mem s1).free) (wp_modify.2 rfl) fun _ s2 hs2 hfree2 => ?_))
    refine wp_ite (fun _ => ?_) fun _ => wp_pure.2 (hQ false s2 hs2 (hfree2.trans hfree1))
    have hnext : (j * pgSize + pgSize) % 2 ^ 32 = (j + 1) * pgSize := by
      rw [Nat.succ_mul]
      exact Nat.mod_eq_of_lt (by omega)
    rw [hnext]
    exact ih hs2 (by omega) fun b s' hs' hfree => hQ b s' hs' (hfree.trans (hfree2.trans hfree1))

/-- **`loadseg`** finds all pages of a segment for which memory was allocated, and its counter does
not wrap around. -/
theorem wp_loadseg {offset vaddr filesz memsz : ℕ} {Q : Bool → σ → Prop}
    (hsp : Space (leaf pt) (npages sz) tf none) (hcard : npages sz ≤ physTop / pgSize)
    (hv : vaddr % pgSize = 0) (hf : filesz ≤ memsz) (hsz : vaddr + memsz ≤ sz)
    (hQ : ∀ b s', I s' → (x.mem s').free = (x.mem s).free → Q b s') :
    wp (x.loadseg pt vaddr offset (filesz % 2 ^ 32)) Q E s := by
  have hpages := segment_le hv hf hsz
  have hsmall := filesz_small hcard hf hsz
  have hva : vaddr / pgSize * pgSize = vaddr := Nat.div_mul_cancel (Nat.dvd_of_mod_eq_zero hv)
  have hload : wp (x.loadLoop pt (vaddr / pgSize * pgSize) offset (filesz % 2 ^ 32)
      (npages (filesz % 2 ^ 32) + 1) (0 * pgSize)) Q E s :=
    wp_loadLoop hx hs hsp hpages (by omega) (Nat.zero_add _) hQ
  rwa [hva, Nat.zero_mul] at hload

/-- **The loop over the program headers** keeps an address space of the size it computes, also when
it stops half way. -/
theorem wp_loadSegs {off : ℕ} (hsp : Space (leaf pt) (npages sz) tf none)
    (hT : (x.mem s).free + ptPages pt = T) (hfit : Fits T) :
    wp (x.loadSegs m off pt sz) (fun r s' => I s' ∧ (x.mem s').free + ptPages r.1 = T ∧
      Space (leaf r.1) (npages r.2.1) tf none) E s := by
  induction m generalizing off sz pt s with
  | zero => exact wp_pure.2 ⟨hs, hT, hsp⟩
  | succ m ih =>
    have hbad : wp (pure (pt, sz, false) : StateT σ (Except ε) _) (fun r s' => I s' ∧
        (x.mem s').free + ptPages r.1 = T ∧ Space (leaf r.1) (npages r.2.1) tf none) E s :=
      wp_pure.2 ⟨hs, hT, hsp⟩
    rw [loadSegs, wp_bind]
    refine hx.readi _ _ _ _ hs fun bs => ?_
    have hv64 := vaddr_lt bs
    have hm64 := memsz_lt bs
    refine wp_ite (fun _ => hbad) fun _ => wp_ite (fun _ => ih hs hsp hT) fun _ => ?_
    refine wp_ite (fun _ => hbad) fun hfile => wp_ite (fun _ => hbad) fun hwrap => ?_
    refine wp_ite (fun _ => hbad) fun halign => wp_bind.2 ?_
    refine hx.wp_vm hs (wp_uvmalloc_segment hsp hT hfit hv64 hm64 hwrap) ?_
    rintro ⟨pt1, sz₁⟩ s1 hs1 ⟨hT1, hzero, hpos⟩
    refine wp_ite (fun hz => wp_pure.2 ⟨hs1, hT1, hzero hz⟩) fun hnz => wp_bind.2 ?_
    obtain ⟨hsp1, hle⟩ := hpos hnz
    -- the pages of the image are pages of memory
    have hpages : npages sz₁ ≤ physTop / pgSize := (hsp1.le_total hT1).trans hfit.card_le
    refine wp_loadseg hx hs1 hsp1 hpages (not_not.1 halign) (Nat.not_lt.1 hfile) hle
      fun b s2 hs2 hfree => ?_
    rw [← hfree] at hT1
    exact wp_ite (fun _ => ih hs2 hsp1 hT1) fun _ => wp_pure.2 ⟨hs2, hT1, hsp1⟩

/-- **What has been loaded** is an address space, and all that was taken for it is in it. -/
theorem wp_load (hfit : Fits (x.mem s).free) :
    wp (x.load tf) (fun r s' => I s' ∧ r.Holds (x.mem s).free tf (x.mem s')) E s := by
  rw [load, wp_bind]
  refine hx.readi _ _ _ _ hs fun bs => ?_
  have hbad : wp (pure (.bad none) : StateT σ (Except ε) Loaded)
      (fun r s' => I s' ∧ r.Holds (x.mem s).free tf (x.mem s')) E s := wp_pure.2 ⟨hs, rfl⟩
  refine wp_ite (fun _ => hbad) fun _ => wp_ite (fun _ => hbad) fun _ => wp_bind.2 ?_
  refine hx.wp_vm hs (wp_procPagetable hfit) ?_
  rintro r s1 hs1 (⟨rfl, hfree, -⟩ | ⟨pt, rfl, hT, hsp, -⟩)
  · exact wp_pure.2 ⟨hs1, hfree⟩
  · refine wp_bind.2 ((wp_loadSegs hx hs1 hsp hT hfit).mono ?_)
    rintro ⟨pt1, sz₁, loaded⟩ s2 ⟨hs2, hT2, hsp2⟩
    cases loaded with
    | true => exact wp_pure.2 ⟨hs2, hT2, hsp2⟩
    | false => exact wp_pure.2 ⟨hs2, hT2, none, hsp2⟩

end

end ExecEnv

end

/-! ### The whole call -/

omit [KernelImage] in
theorem ArgVec.short (argv : ArgVec) : ∀ arg ∈ argv.bytes, arg.length < pgSize := by
  intro arg harg
  obtain ⟨s, -, rfl⟩ := List.mem_map.1 harg
  exact s.2

omit [KernelImage] in
theorem ArgVec.length_bytes (argv : ArgVec) : argv.bytes.length < maxArg := by
  rw [ArgVec.bytes, List.length_map]
  exact argv.ended

/-- What `exec` may return: nothing, with all pages given back, or an image for the old one, with
the guard page below the stack. -/
def ImageOf (km : Kmem) (oldpt : PageTable) (tf : ℕ) (r : Option (PageTable × ℕ)) (km' : Kmem) :
    Prop :=
  r = none ∧ km'.free = km.free ∨
    ∃ pt sz, r = some (pt, sz) ∧ km'.free + ptPages pt = km.free + ptPages oldpt ∧
      Space (leaf pt) (npages sz) tf (some (npages sz - (userStack + 1))) ∧
      userStack + 1 ≤ npages sz

theorem wp_exec {file : Option (List UInt8)} {argv : ArgVec} {oldsz : ℕ} {oldpt : PageTable}
    (hold : Space (leaf oldpt) (npages oldsz) tf g) (hfit : Fits (km.free + ptPages oldpt)) :
    wp (exec file argv tf oldpt oldsz) (ImageOf km oldpt tf) noPanic km := by
  cases file with
  | none => exact wp_pure.2 (.inl ⟨rfl, rfl⟩)
  | some file =>
    have hfree : Fits km.free := hfit.mono (Multiset.le_add_right ..)
    refine wp_bind.2 ((ExecEnv.wp_load (keeps_ofFile file _) trivial hfree).mono ?_)
    rintro (image | ⟨pt, sz, entry⟩) km1 ⟨-, hload⟩
    · exact wp_bind.2 ((wp_freeImage hload hfree).mono fun _ _ h => wp_pure.2 (.inl ⟨rfl, h⟩))
    · obtain ⟨hT : km1.free + ptPages pt = km.free, hsp⟩ := hload
      rw [← hT] at hfit
      show wp (execTail argv.bytes pt (pgRoundUp sz) oldpt oldsz >>= _) _ _ _
      rw [pgRoundUp_eq hsp.bound, wp_bind]
      refine (wp_execTail argv.length_bytes argv.short hsp hold hfit).mono ?_
      rintro r km2 (⟨rfl, hfree2⟩ | ⟨pt', sp, rfl, hT2, hsp2, -⟩)
      · exact wp_pure.2 (.inl ⟨rfl, hfree2.trans hT⟩)
      · refine wp_pure.2 (.inr ⟨pt', _, rfl, hT ▸ hT2, ?_, ?_⟩)
        · rw [npages_mul, Nat.add_sub_cancel]
          exact hsp2
        · rw [npages_mul]
          exact Nat.le_add_left ..

theorem wp_sysExec {a : ExecArg} {oldsz : ℕ} {oldpt : PageTable}
    (hold : Space (leaf oldpt) (npages oldsz) tf g) (hfit : Fits (km.free + ptPages oldpt)) :
    wp (sysExec a tf oldpt oldsz) (ImageOf km oldpt tf) noPanic km := by
  refine wp_ite (fun _ => ?_) fun _ => wp_pure.2 (.inl ⟨rfl, rfl⟩)
  refine MemView.wp_withArgs keeps_kmemView trivial
    (fun p hp => hfit.usable p (mem_add.2 (.inl hp))) (fun _ _ h => .inl ⟨rfl, h⟩) ?_
  intro argv A km1 _ hA
  replace hA : km1.free + A = km.free := hA
  have hfit1 : Fits (km1.free + ptPages oldpt) := by
    refine hfit.mono ?_
    rw [← hA]
    exact add_le_add_left (le_add_right ..) _
  refine (wp_exec hold hfit1).mono ?_
  rintro r km2 (⟨rfl, hfree⟩ | ⟨pt, sz, rfl, hT, hsp⟩) km3 (hkm3 : km3.free = km2.free + A)
  · refine .inl ⟨rfl, ?_⟩
    show km3.free = km.free
    rw [hkm3, hfree, hA]
  · refine .inr ⟨pt, sz, rfl, ?_, hsp⟩
    show km3.free + ptPages pt = km.free + ptPages oldpt
    rw [hkm3, add_right_comm, hT, ← hA, add_right_comm]

end Spec

end CsklubOs
