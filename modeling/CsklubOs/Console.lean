/-
**Console input.**

The line discipline of `kernel/console.c`: `consoleintr` edits at one end of a ring of characters,
`consoleread` takes whole lines from the other, with three free-running 32-bit counters between
them.  A section of a reader under `cons.lock` runs until it returns or sleeps; between sections
anything may happen.  Where `copyout` can store is given by the caller, and so is `killed`.

Main definitions:

* `Cons`, `ConsoleSys`, `ConsoleSys.step` — the ring, and the readers;
* `Editor`, `Shows` — a reference editor, which knows nothing of the ring: it has the characters
  that were committed so far and the line that is being typed.

Main results:

* `line_discipline` — readers get the lines of the editor.
-/

import CsklubOs.RingBuffer
import CsklubOs.Runs

set_option autoImplicit false

namespace CsklubOs

open Function List

/-! ### The code -/

def inputBufSize : ℕ := 128

instance : NeZero inputBufSize := ⟨by decide⟩

theorem inputBufSize_dvd : inputBufSize ∣ 2 ^ 32 := ⟨33554432, by decide⟩

theorem inputBufSize_lt : inputBufSize < 2 ^ 32 := by decide

/-- `C(x)`. -/
def ctrl (x : Char) : UInt8 := x.toUInt8 - '@'.toUInt8

/-- `'\n'`. -/
def newline : UInt8 := '\n'.toUInt8

/-- The input part of `cons`. -/
structure Cons where
  buf : Fin inputBufSize → UInt8
  r : BitVec 32
  w : BitVec 32
  e : BitVec 32

/-- How a section of `consoleread` ends: in `sleep` with `n` bytes to go, or by returning. -/
inductive ReadStop
  | asleep (n : ℕ)
  | ret (r : ℤ)
  deriving DecidableEq

/-- What a section of `consoleread` leaves behind: the buffer, the bytes that it stored in user
memory, the bytes that it removed from the buffer, and how it ended. -/
structure Section where
  cons : Cons
  got : List UInt8
  gone : List UInt8
  stop : ReadStop

namespace Cons

/-- The loop for control-U; `fuel` bounds its turns. -/
def killLine : ℕ → Cons → Cons
  | 0, c => c
  | fuel + 1, c =>
    if c.e ≠ c.w ∧ c.buf (RingBuf.slot inputBufSize (c.e - 1)) ≠ newline then
      killLine fuel { c with e := c.e - 1 }
    else c

/-- `cons.buf[cons.e++ % INPUT_BUF_SIZE] = ch` -/
def store (c : Cons) (ch : UInt8) : Cons :=
  { c with
    buf := update c.buf (RingBuf.slot inputBufSize c.e) ch
    e := c.e + 1 }

/-- A character that is accepted: stored, and the line committed if it ends one or fills the
buffer. -/
def accept (c : Cons) (ch : UInt8) : Cons :=
  let c := c.store ch
  if ch = newline ∨ ch = ctrl 'D' ∨ (c.e - c.r).toNat = inputBufSize then { c with w := c.e } else c

def consoleintr (c : Cons) (ch : UInt8) : Cons :=
  if ch = ctrl 'P' then c
  else if ch = ctrl 'U' then c.killLine (c.e - c.w).toNat
  else if ch = ctrl 'H' ∨ ch = 0x7f then
    if c.e ≠ c.w then { c with e := c.e - 1 } else c
  else if ch ≠ 0 ∧ (c.e - c.r).toNat < inputBufSize then
    c.accept (if ch = '\r'.toUInt8 then newline else ch)
  else c

/-- The loop of `consoleread` with `n` bytes to go, up to the next `sleep` or `return`; `dst i`
tells whether `either_copyout` can store at `dst + i`. -/
def readLoop (dst : ℕ → Bool) (killed : Bool) (target : ℕ) :
    ℕ → Cons → List UInt8 → List UInt8 → Section
  | 0, c, got, gone => ⟨c, got, gone, .ret target⟩
  | n + 1, c, got, gone =>
    if c.r = c.w then
      if killed then ⟨c, got, gone, .ret (-1)⟩ else ⟨c, got, gone, .asleep (n + 1)⟩
    else
      let ch := c.buf (RingBuf.slot inputBufSize c.r)
      let c := { c with r := c.r + 1 }
      if ch = ctrl 'D' then
        -- a reader that has something leaves the end of file to the next one
        if n + 1 < target then ⟨{ c with r := c.r - 1 }, got, gone, .ret (target - (n + 1))⟩
        else ⟨c, got, gone ++ [ch], .ret (target - (n + 1))⟩
      else if dst (target - (n + 1)) = false then
        ⟨c, got, gone ++ [ch], .ret (target - (n + 1))⟩
      else if ch = newline then ⟨c, got ++ [ch], gone ++ [ch], .ret (target - n)⟩
      else readLoop dst killed target n c (got ++ [ch]) (gone ++ [ch])

/-! ### The two parts of the ring -/

/-- The ring as a whole. -/
def ring (c : Cons) : RingBuf 32 inputBufSize UInt8 := ⟨c.buf, c.r, c.e⟩

/-- The bytes between `r` and `w`: committed and not read. -/
def unread (c : Cons) : List UInt8 :=
  RingBuf.contents (⟨c.buf, c.r, c.w⟩ : RingBuf 32 inputBufSize UInt8)

/-- The bytes between `w` and `e`: the line that is being typed. -/
def line (c : Cons) : List UInt8 :=
  RingBuf.contents (⟨c.buf, c.w, c.e⟩ : RingBuf 32 inputBufSize UInt8)

/-- **The invariant of the counters.** -/
structure Ok (c : Cons) : Prop where
  ready : (c.w - c.r).toNat ≤ (c.e - c.r).toNat
  room : (c.e - c.r).toNat ≤ inputBufSize
  typed : ∀ b ∈ c.line, b ≠ newline ∧ b ≠ ctrl 'D'
  full : (c.e - c.r).toNat = inputBufSize → c.w = c.e

variable {c : Cons}

theorem length_unread (c : Cons) : c.unread.length = (c.w - c.r).toNat :=
  RingBuf.length_contents _

theorem length_line (c : Cons) : c.line.length = (c.e - c.w).toNat :=
  RingBuf.length_contents _

theorem Ok.contents (h : c.Ok) : c.ring.contents = c.unread ++ c.line :=
  RingBuf.contents_split c.ring c.w h.ready

theorem Ok.length (h : c.Ok) : (c.e - c.r).toNat = c.unread.length + c.line.length := by
  rw [length_unread, length_line]
  exact RingBuf.count_split c.ring c.w h.ready

theorem eq_iff_line : c.e = c.w ↔ c.line = [] := by
  rw [← length_eq_zero_iff, length_line, eq_comm]
  exact RingBuf.nread_eq_iff (⟨c.buf, c.w, c.e⟩ : RingBuf 32 inputBufSize UInt8)

theorem eq_iff_unread : c.r = c.w ↔ c.unread = [] := by
  rw [← length_eq_zero_iff, length_unread]
  exact RingBuf.nread_eq_iff (⟨c.buf, c.r, c.w⟩ : RingBuf 32 inputBufSize UInt8)

/-! ### Typing -/

theorem line_back (hne : c.e ≠ c.w) :
    c.line = ({ c with e := c.e - 1 } : Cons).line ++
      [c.buf (RingBuf.slot inputBufSize (c.e - 1))] := by
  refine RingBuf.contents_unput (⟨c.buf, c.w, c.e⟩ : RingBuf 32 inputBufSize UInt8) ?_
  rw [Ne, ← RingBuf.nread_eq_iff]
  exact fun h => hne h.symm

theorem Ok.back (h : c.Ok) (hne : c.e ≠ c.w) : ({ c with e := c.e - 1 } : Cons).Ok := by
  have hline := line_back hne
  have hlen := h.length
  have hcount := RingBuf.count_unput c.ring (by
    show (c.e - c.r).toNat ≠ 0
    rw [hlen, hline, length_append, length_singleton]
    omega)
  have hcount' : (c.e - 1 - c.r).toNat + 1 = (c.e - c.r).toNat := hcount
  have hroom := h.room
  rw [hline, length_append, length_singleton, length_unread] at hlen
  refine ⟨?_, ?_, fun b hb => h.typed b (hline ▸ mem_append_left _ hb), fun hfull => ?_⟩
  · show (c.w - c.r).toNat ≤ (c.e - 1 - c.r).toNat
    omega
  · show (c.e - 1 - c.r).toNat ≤ inputBufSize
    omega
  · have hfull' : (c.e - 1 - c.r).toNat = inputBufSize := hfull
    omega

theorem killLine_spec {fuel : ℕ} (h : c.Ok) (hfuel : c.line.length ≤ fuel) :
    (c.killLine fuel).Ok ∧ (c.killLine fuel).unread = c.unread ∧ (c.killLine fuel).line = [] := by
  induction fuel generalizing c with
  | zero => exact ⟨h, rfl, length_eq_zero_iff.1 (Nat.le_zero.1 hfuel)⟩
  | succ fuel ih =>
    rw [killLine]
    split
    · rename_i hcond
      have hline := line_back hcond.1
      refine ih (h.back hcond.1) ?_
      rw [hline, length_append, length_singleton] at hfuel
      omega
    · rename_i hcond
      refine ⟨h, rfl, ?_⟩
      -- the loop does not stop at a newline: there is none in the line
      by_contra hne
      have hew : c.e ≠ c.w := fun he => hne (eq_iff_line.1 he)
      refine hcond ⟨hew, (h.typed _ ?_).1⟩
      rw [line_back hew]
      exact mem_append_right _ (mem_singleton_self _)

theorem killLine_eq (fuel : ℕ) (c : Cons) : ∃ e, c.killLine fuel = { c with e := e } := by
  induction fuel generalizing c with
  | zero => exact ⟨c.e, rfl⟩
  | succ fuel ih =>
    rw [killLine]
    split
    · obtain ⟨e, he⟩ := ih { c with e := c.e - 1 }
      exact ⟨e, he⟩
    · exact ⟨c.e, rfl⟩

theorem consoleintr_erase (c : Cons) {ch : UInt8}
    (hch : ch = ctrl 'U' ∨ ch = ctrl 'H' ∨ ch = 0x7f) :
    ∃ e, c.consoleintr ch = { c with e := e } := by
  have hP : ch ≠ ctrl 'P' := by
    rcases hch with rfl | rfl | rfl <;> decide
  rw [consoleintr, if_neg hP]
  split
  · exact killLine_eq _ c
  · rename_i hU
    rw [if_pos (hch.resolve_left hU)]
    split
    · exact ⟨c.e - 1, rfl⟩
    · exact ⟨c.e, rfl⟩

theorem store_spec (h : c.Ok) (ch : UInt8) (hroom : (c.e - c.r).toNat < inputBufSize) :
    (c.store ch).unread = c.unread ∧ (c.store ch).line = c.line ++ [ch] ∧
      ((c.store ch).e - c.r).toNat = (c.e - c.r).toNat + 1 := by
  have hcount : ((c.store ch).e - c.r).toNat = (c.e - c.r).toNat + 1 :=
    RingBuf.count_put inputBufSize_lt c.ring ch hroom
  have hcontents := RingBuf.contents_put inputBufSize_dvd inputBufSize_lt c.ring ch hroom
  have hready : (c.w - c.r).toNat ≤ ((c.store ch).e - c.r).toNat := by
    have := h.ready
    omega
  have hsplit := RingBuf.contents_split (c.store ch).ring c.w hready
  have heq : (c.store ch).unread ++ (c.store ch).line = c.unread ++ (c.line ++ [ch]) := by
    rw [← append_assoc, ← h.contents, ← hcontents]
    exact hsplit.symm
  obtain ⟨hu, hl⟩ := append_inj heq (by rw [length_unread, length_unread]; rfl)
  exact ⟨hu, hl, hcount⟩

theorem commit_spec (h : (c.w - c.r).toNat ≤ (c.e - c.r).toNat) :
    ({ c with w := c.e } : Cons).unread = c.unread ++ c.line ∧
      ({ c with w := c.e } : Cons).line = [] :=
  ⟨RingBuf.contents_split c.ring c.w h, eq_iff_line.1 rfl⟩

end Cons

/-! ### The reference editor -/

/-- The characters that were committed so far, and the line that is being typed. -/
structure Editor where
  committed : List UInt8
  line : List UInt8

/-- An accepted character, when `held` committed characters have not been taken yet. -/
def Editor.accept (held : ℕ) (ch : UInt8) (ed : Editor) : Editor :=
  let line := ed.line ++ [ch]
  if ch = newline ∨ ch = ctrl 'D' ∨ held + line.length = inputBufSize then
    ⟨ed.committed ++ line, []⟩
  else { ed with line := line }

/-- Typing a character when `held` committed characters have not been taken yet. -/
def Editor.type (held : ℕ) (ch : UInt8) (ed : Editor) : Editor :=
  if ch = ctrl 'P' then ed
  else if ch = ctrl 'U' then { ed with line := [] }
  else if ch = ctrl 'H' ∨ ch = 0x7f then { ed with line := ed.line.dropLast }
  else if ch = 0 ∨ inputBufSize ≤ held + ed.line.length then ed
  else ed.accept held (if ch = '\r'.toUInt8 then newline else ch)

namespace Cons

variable {c : Cons}

section Typing

variable {ed : Editor} {taken : List UInt8}

/-- The editor's line is the one in the ring, and its committed characters are those that were taken
and those that can be read. -/
def Shows (c : Cons) (taken : List UInt8) (ed : Editor) : Prop :=
  ed.committed = taken ++ c.unread ∧ ed.line = c.line

theorem Ok.accept (h : c.Ok) (ch : UInt8) (hroom : (c.e - c.r).toNat < inputBufSize)
    (hshows : c.Shows taken ed) :
    (c.accept ch).Ok ∧ (c.accept ch).Shows taken (ed.accept c.unread.length ch) := by
  obtain ⟨hu, hl, hcount⟩ := store_spec h ch hroom
  obtain ⟨hcommitted, hline⟩ := hshows
  have hlen := h.length
  have hcount' : ((c.store ch).e - (c.store ch).r).toNat = (c.e - c.r).toNat + 1 := hcount
  have hready : ((c.store ch).w - (c.store ch).r).toNat ≤
      ((c.store ch).e - (c.store ch).r).toNat := by
    rw [hcount']
    exact Nat.le_succ_of_le h.ready
  have hle : ((c.store ch).e - (c.store ch).r).toNat ≤ inputBufSize := hcount' ▸ hroom
  have hfull : c.unread.length + (ed.line ++ [ch]).length = inputBufSize ↔
      ((c.store ch).e - (c.store ch).r).toNat = inputBufSize := by
    rw [hcount', length_append, length_singleton, hlen, hline, Nat.add_assoc]
  simp only [Cons.accept, Editor.accept, hfull]
  split
  · obtain ⟨hu', hl'⟩ := commit_spec hready
    refine ⟨⟨le_rfl, hle, ?_, fun _ => rfl⟩, ?_, hl'.symm⟩
    · rw [hl']
      exact fun b hb => absurd hb not_mem_nil
    · rw [hu', hu, hl, hcommitted, hline, append_assoc]
  · rename_i hmore
    push Not at hmore
    refine ⟨⟨hready, hle, ?_, fun hf => absurd hf hmore.2.2⟩, ?_, ?_⟩
    · rw [hl]
      intro b hb
      rcases mem_append.1 hb with hb | hb
      · exact h.typed b hb
      · rw [mem_singleton.1 hb]
        exact ⟨hmore.1, hmore.2.1⟩
    · rw [hu, hcommitted]
    · rw [hl, hline]

theorem Ok.consoleintr (h : c.Ok) (ch : UInt8) (hshows : c.Shows taken ed) :
    (c.consoleintr ch).Ok ∧
      (c.consoleintr ch).Shows taken (ed.type c.unread.length ch) := by
  have hlen := h.length
  rw [← hshows.2] at hlen
  unfold Cons.consoleintr Editor.type
  split
  · exact ⟨h, hshows⟩
  split
  · obtain ⟨hok, hu, hl⟩ := killLine_spec h (length_line c).le
    exact ⟨hok, by rw [hu]; exact hshows.1, hl.symm⟩
  split
  · split
    · rename_i hne
      refine ⟨h.back hne, hshows.1, ?_⟩
      rw [hshows.2, line_back hne, dropLast_concat]
    · rename_i heq
      refine ⟨h, hshows.1, ?_⟩
      rw [hshows.2, eq_iff_line.1 (not_not.1 heq), dropLast_nil]
  split
  · rename_i hacc
    have hroom : ¬ (ch = 0 ∨ inputBufSize ≤ c.unread.length + ed.line.length) := by
      rw [← hlen, not_or, not_le]
      exact hacc
    rw [if_neg hroom]
    exact h.accept _ hacc.2 hshows
  · rename_i hacc
    have hfull : ch = 0 ∨ inputBufSize ≤ c.unread.length + ed.line.length := by
      rw [← hlen, ← not_lt]
      tauto
    rw [if_pos hfull]
    exact ⟨h, hshows⟩

end Typing

/-! ### Reading -/

theorem unread_eq_cons (hne : c.r ≠ c.w) :
    c.unread = c.buf (RingBuf.slot inputBufSize c.r) ::
    ({ c with r := c.r + 1 } : Cons).unread := by
  refine RingBuf.contents_take (⟨c.buf, c.r, c.w⟩ : RingBuf 32 inputBufSize UInt8) ?_
  rw [Ne, ← RingBuf.nread_eq_iff]
  exact hne

theorem Ok.advance (h : c.Ok) (hne : c.r ≠ c.w) : ({ c with r := c.r + 1 } : Cons).Ok := by
  have hu := congrArg List.length (unread_eq_cons hne)
  rw [length_cons, length_unread, length_unread] at hu
  have hu' : (c.w - c.r).toNat = (c.w - (c.r + 1)).toNat + 1 := hu
  have hready := h.ready
  have hroom := h.room
  have hcount := RingBuf.count_take c.ring (by
    show (c.e - c.r).toNat ≠ 0
    omega)
  have hcount' : (c.e - (c.r + 1)).toNat + 1 = (c.e - c.r).toNat := hcount
  refine ⟨?_, ?_, h.typed, fun hfull => ?_⟩
  · show (c.w - (c.r + 1)).toNat ≤ (c.e - (c.r + 1)).toNat
    omega
  · show (c.e - (c.r + 1)).toNat ≤ inputBufSize
    omega
  · have hfull' : (c.e - (c.r + 1)).toNat = inputBufSize := hfull
    omega

/-- The bytes that a section with `n` bytes to go gets to: up to the end of a line or of the
file. -/
def inReach : ℕ → List UInt8 → List UInt8
  | 0, _ => []
  | _ + 1, [] => []
  | n + 1, b :: l =>
    if b = ctrl 'D' then [] else if b = newline then [b] else b :: inReach n l

theorem length_inReach_le (n : ℕ) (l : List UInt8) : (inReach n l).length ≤ n := by
  induction n generalizing l with
  | zero => simp [inReach]
  | succ n ih =>
    cases l with
    | nil => simp [inReach]
    | cons b l =>
      rw [inReach]
      split
      · simp
      · split
        · simp
        · simpa using ih l

theorem ctrlD_notMem_inReach (n : ℕ) (l : List UInt8) : ctrl 'D' ∉ inReach n l := by
  induction n generalizing l with
  | zero => exact not_mem_nil
  | succ n ih =>
    cases l with
    | nil => exact not_mem_nil
    | cons b l =>
      rw [inReach]
      split
      · exact not_mem_nil
      · rename_i hb
        split
        · exact fun hm => hb (mem_singleton.1 hm).symm
        · exact fun hm => (mem_cons.1 hm).elim (fun h => hb h.symm) (ih l)

/-- All bytes within reach can be stored. -/
def Storable (dst : ℕ → Bool) (target n : ℕ) (l : List UInt8) : Prop :=
  ∀ i < (inReach n l).length, dst (target - n + i) = true

/-- How a section with `n` of `target` bytes to go ends that finds the bytes `l`: it stores `out`,
removes `extra` beyond that, and stops. -/
inductive Ending (dst : ℕ → Bool) (killed : Bool) (target n : ℕ) (l : List UInt8) :
    List UInt8 → List UInt8 → ReadStop → Prop
  /-- It stores all that is within reach and sleeps. -/
  | slept (out : List UInt8) : Storable dst target n l → out = inReach n l → out.length < n →
      Ending dst killed target n l out [] (.asleep (n - out.length))
  /-- It stores all that is within reach and finds that the process is killed. -/
  | killed (out : List UInt8) : Storable dst target n l → out = inReach n l → killed = true →
      Ending dst killed target n l out [] (.ret (-1))
  /-- It stores all that is within reach and returns. -/
  | returned (out : List UInt8) : Storable dst target n l → out = inReach n l →
      Ending dst killed target n l out [] (.ret (target - n + out.length))
  /-- It is the first section, and finds the end of the file. -/
  | eof : n = target → inReach n l = [] → Ending dst killed target n l [] [ctrl 'D'] (.ret 0)
  /-- It comes to a byte that it cannot store. -/
  | fault (out : List UInt8) (b : UInt8) : b ≠ ctrl 'D' → out.length < (inReach n l).length →
      dst (target - n + out.length) = false →
      Ending dst killed target n l out [b] (.ret (target - n + out.length))

variable {dst : ℕ → Bool} {killed : Bool} {target n : ℕ} {l out extra : List UInt8}
  {stop : ReadStop}

theorem Storable.cons {b : UInt8} (h : Storable dst target n l) (hb : dst (target - (n + 1)) = true)
    (hn : n + 1 ≤ target) : Storable dst target (n + 1) (b :: l) := by
  intro i hi
  cases i with
  | zero => exact hb
  | succ i =>
    have hlen : (inReach (n + 1) (b :: l)).length ≤ (inReach n l).length + 1 := by
      rw [inReach]
      split
      · simp
      · split
        · simp
        · simp
    have hshift : target - (n + 1) + (i + 1) = target - n + i := by omega
    rw [hshift]
    exact h i (by omega)

theorem Ending.cons {b : UInt8} (h : Ending dst killed target n l out extra stop)
    (hD : b ≠ ctrl 'D') (hnl : b ≠ newline) (hb : dst (target - (n + 1)) = true)
    (hn : n + 1 ≤ target) : Ending dst killed target (n + 1) (b :: l) (b :: out) extra stop := by
  have hreach : inReach (n + 1) (b :: l) = b :: inReach n l := by
    rw [inReach, if_neg hD, if_neg hnl]
  have hret : ∀ k : ℕ, ((target : ℤ) - (n + 1 : ℕ) + (k + 1 : ℕ)) = target - n + k := by
    intro k
    omega
  cases h with
  | slept _ hst hout hlt =>
    subst hout
    have hend : Ending dst killed target (n + 1) (b :: l) (b :: inReach n l) []
        (.asleep (n + 1 - (b :: inReach n l).length)) :=
      .slept _ (hst.cons hb hn) hreach.symm (by rw [length_cons]; omega)
    rwa [length_cons, Nat.add_sub_add_right] at hend
  | killed _ hst hout hk =>
    subst hout
    exact .killed _ (hst.cons hb hn) hreach.symm hk
  | returned _ hst hout =>
    subst hout
    rw [← hret]
    exact .returned _ (hst.cons hb hn) hreach.symm
  | eof heq _ => omega
  | fault _ x hx hlt hdst =>
    rw [← hret]
    refine .fault (b :: out) x hx ?_ ?_
    · rw [hreach, length_cons, length_cons]
      omega
    · have hshift : target - (n + 1) + (out.length + 1) = target - n + out.length := by omega
      rw [length_cons, hshift]
      exact hdst

/-- What a section leaves behind that found the buffer `c` in order. -/
structure Left (s : Section) (dst : ℕ → Bool) (killed : Bool) (target n : ℕ)
    (c : Cons) (got gone out extra : List UInt8) : Prop where
  ok : s.cons.Ok
  line : s.cons.line = c.line
  got : s.got = got ++ out
  gone : s.gone = gone ++ (out ++ extra)
  unread : c.unread = out ++ extra ++ s.cons.unread
  ending : Ending dst killed target n c.unread out extra s.stop

/-- **What a section of `consoleread` does**: it keeps the invariant and the line that is being
typed, and what it removes is the first part of what can be read. -/
theorem readLoop_spec (h : c.Ok) (hn : n ≤ target) (got gone : List UInt8) :
    ∃ out extra, Left (readLoop dst killed target n c got gone) dst killed target n c got gone out
      extra := by
  induction n generalizing c got gone with
  | zero =>
    refine ⟨[], [], h, rfl, (append_nil _).symm, (append_nil _).symm, rfl, ?_⟩
    have hend : Ending dst killed target 0 c.unread [] [] (.ret (target - (0 : ℕ) + (0 : ℕ))) :=
      .returned [] (fun i hi => absurd hi (Nat.not_lt_zero i)) rfl
    simpa [readLoop] using hend
  | succ n ih =>
    have hret : (target : ℤ) - (n + 1) = target - (n + 1 : ℕ) + ([] : List UInt8).length := by
      simp
    rw [readLoop]
    split
    · rename_i hrw
      have hnil : c.unread = [] := eq_iff_unread.1 hrw
      have hst : Storable dst target (n + 1) c.unread := by
        rw [hnil]
        exact fun i hi => absurd hi (Nat.not_lt_zero i)
      have hreach : [] = inReach (n + 1) c.unread := by rw [hnil, inReach]
      split
      · rename_i hk
        exact ⟨[], [], h, rfl, (append_nil _).symm, (append_nil _).symm, rfl,
          .killed [] hst hreach hk⟩
      · exact ⟨[], [], h, rfl, (append_nil _).symm, (append_nil _).symm, rfl,
          .slept [] hst hreach (Nat.succ_pos n)⟩
    · rename_i hrw
      have hcons := unread_eq_cons hrw
      have hadv := h.advance hrw
      generalize c.buf (RingBuf.slot inputBufSize c.r) = ch at hcons
      dsimp only
      split
      · rename_i hD
        subst hD
        have hreach : [] = inReach (n + 1) c.unread := by rw [hcons, inReach, if_pos rfl]
        have hst : Storable dst target (n + 1) c.unread := by
          intro i hi
          rw [← hreach] at hi
          exact absurd hi (Nat.not_lt_zero i)
        split
        · have hback : ({ c with r := c.r + 1 - 1 } : Cons) = c := by
            rw [BitVec.add_sub_cancel]
          rw [hback, hret]
          exact ⟨[], [], h, rfl, (append_nil _).symm, (append_nil _).symm, rfl,
            .returned [] hst hreach⟩
        · rename_i hlast
          have heq : n + 1 = target := by omega
          have hzero : (target : ℤ) - (n + 1) = 0 := by omega
          rw [hzero]
          exact ⟨[], [ctrl 'D'], hadv, rfl, (append_nil _).symm, rfl, hcons,
            .eof heq hreach.symm⟩
      · rename_i hD
        split
        · rename_i hdst
          rw [hret]
          refine ⟨[], [ch], hadv, rfl, (append_nil _).symm, rfl, hcons,
            .fault [] ch hD ?_ hdst⟩
          rw [hcons, inReach, if_neg hD]
          split <;> simp
        · rename_i hdst
          have hdst' : dst (target - (n + 1)) = true := by simpa using hdst
          split
          · rename_i hnl
            have hreach : [ch] = inReach (n + 1) c.unread := by
              rw [hcons, inReach, if_neg hD, if_pos hnl]
            have hone : (target : ℤ) - n = target - (n + 1 : ℕ) + [ch].length := by
              rw [length_singleton]
              omega
            rw [hone]
            refine ⟨[ch], [], hadv, rfl, rfl, rfl, hcons, .returned [ch] ?_ hreach⟩
            intro i hi
            rw [← hreach, length_singleton, Nat.lt_one_iff] at hi
            rw [hi]
            exact hdst'
          · rename_i hnl
            obtain ⟨out, extra, hs⟩ := ih hadv (by omega) (got ++ [ch]) (gone ++ [ch])
            refine ⟨ch :: out, extra, hs.ok, hs.line, ?_, ?_, ?_, ?_⟩
            · rw [hs.got, append_assoc, singleton_append]
            · rw [hs.gone, append_assoc, singleton_append, cons_append]
            · rw [hcons, hs.unread, cons_append, cons_append]
            · rw [hcons]
              exact hs.ending.cons hD hnl hdst' hn

end Cons

/-! ### Typing and any number of readers -/

/-- A call of `consoleread` that has not returned: the destination, the number of bytes that were
asked for and that are to go, the bytes that it stored in user memory and those that it removed from
the buffer. -/
structure ReadCall where
  dst : ℕ → Bool
  target : ℕ
  n : ℕ
  got : List UInt8
  gone : List UInt8

/-- A call of `consoleread` that has returned. -/
structure ReadDone (ι : Type) where
  proc : ι
  got : List UInt8
  gone : List UInt8
  ret : ℤ

structure ConsoleSys (ι : Type) where
  cons : Cons
  call : ι → Option ReadCall
  /-- The reference editor, fed what is typed. -/
  editor : Editor
  /-- History: the bytes that were removed from the buffer, and by whom. -/
  log : List (ι × UInt8)
  finished : List (ReadDone ι)

/-- A character arrives, a process calls `consoleread`, or it runs up to the next `sleep` or
`return`. -/
inductive ConsoleAct (ι : Type)
  | intr (ch : UInt8)
  | read (p : ι) (n : ℤ) (dst : ℕ → Bool)
  | run (p : ι) (killed : Bool)

namespace ConsoleSys

variable {ι : Type} [DecidableEq ι]

/-- The next section of a call. -/
def sectionOf (s : ConsoleSys ι) (k : ReadCall) (killed : Bool) : Section :=
  s.cons.readLoop k.dst killed k.target k.n k.got k.gone

/-- The call after a section of it. -/
def callAfter (k : ReadCall) (sec : Section) : Option ReadCall :=
  match sec.stop with
  | .asleep n => some { k with n := n, got := sec.got, gone := sec.gone }
  | .ret _ => none

/-- The call as a finished one, if the section ended it. -/
def doneAfter (p : ι) (sec : Section) : List (ReadDone ι) :=
  match sec.stop with
  | .asleep _ => []
  | .ret r => [⟨p, sec.got, sec.gone, r⟩]

/-- The state after a section of a call of `p`. -/
def afterSection (s : ConsoleSys ι) (p : ι) (k : ReadCall) (sec : Section) : ConsoleSys ι :=
  { s with
    cons := sec.cons
    log := s.log ++ (sec.gone.drop k.gone.length).map (Prod.mk p)
    call := update s.call p (callAfter k sec)
    finished := s.finished ++ doneAfter p sec }

def step (s : ConsoleSys ι) : ConsoleAct ι → Option (Except Empty (ConsoleSys ι))
  | .intr ch =>
    some (.ok { s with
      cons := s.cons.consoleintr ch
      editor := s.editor.type (s.editor.committed.length - s.log.length) ch })
  | .read p n dst =>
    match s.call p with
    | none =>
      let k : ReadCall := { dst := dst, target := n.toNat, n := n.toNat, got := [], gone := [] }
      some (.ok { s with call := update s.call p (some k) })
    | some _ => none
  | .run p killed =>
    match s.call p with
    | none => none
    | some k => some (.ok (s.afterSection p k (s.sectionOf k killed)))

/-- The console at boot. -/
def start : ConsoleSys ι where
  cons := ⟨fun _ => 0, 0, 0, 0⟩
  call := fun _ => none
  editor := ⟨[], []⟩
  log := []
  finished := []

/-- Destinations are writable. -/
def Writable (_ : ConsoleSys ι) : ConsoleAct ι → Prop
  | .read _ n dst => ∀ i < n.toNat, dst i = true
  | _ => True

instance (s : ConsoleSys ι) (a : ConsoleAct ι) : Decidable (s.Writable a) :=
  match a with
  | .read _ n dst => inferInstanceAs (Decidable (∀ i < n.toNat, dst i = true))
  | .intr _ => .isTrue trivial
  | .run _ _ => .isTrue trivial

/-- The bytes that `p` removed. -/
def takenBy (s : ConsoleSys ι) (p : ι) : List UInt8 :=
  (s.log.filter (·.1 = p)).map Prod.snd

/-- The bytes that the calls of `p` removed, call by call. -/
def byCalls (s : ConsoleSys ι) (p : ι) : List UInt8 :=
  (s.finished.filter (·.proc = p)).flatMap ReadDone.gone ++ ((s.call p).map ReadCall.gone).getD []

/-- A call that sleeps: it has removed what it has stored, and no control-D. -/
structure CallOk (k : ReadCall) : Prop where
  same : k.gone = k.got
  noEof : ctrl 'D' ∉ k.got
  count : k.got.length + k.n = k.target

/-- **The invariant of every run**, whatever the destinations are. -/
structure Inv (s : ConsoleSys ι) : Prop where
  ok : s.cons.Ok
  shows : s.cons.Shows (s.log.map Prod.snd) s.editor
  calls : ∀ p k, s.call p = some k → CallOk k
  bytes : ∀ p, s.takenBy p = s.byCalls p

theorem inv_start : (start : ConsoleSys ι).Inv where
  ok := by
    have hempty : ((0 : BitVec 32) - 0).toNat ≤ inputBufSize := by decide
    refine ⟨le_rfl, hempty, fun b hb => ?_, fun _ => rfl⟩
    rw [Cons.eq_iff_line.1 rfl] at hb
    exact absurd hb not_mem_nil
  shows := ⟨(Cons.eq_iff_unread.1 rfl).symm, (Cons.eq_iff_line.1 rfl).symm⟩
  calls := nofun
  bytes := fun p => rfl

variable {s s' : ConsoleSys ι}

variable {k : ReadCall} {p : ι} {sec : Section}

theorem Inv.section (h : s.Inv) (hk : s.call p = some k) (killed : Bool) :
    ∃ out extra, Cons.Left (s.sectionOf k killed) k.dst killed k.target k.n s.cons k.got k.gone out
      extra :=
  Cons.readLoop_spec h.ok (by have := (h.calls p k hk).count; omega) k.got k.gone

theorem CallOk.callAfter {k' : ReadCall} (h : CallOk k) {killed : Bool} {c : Cons}
    {out extra : List UInt8}
    (hsec : Cons.Left sec k.dst killed k.target k.n c k.got k.gone out extra)
    (hk' : callAfter k sec = some k') : CallOk k' := by
  have hend := hsec.ending
  unfold ConsoleSys.callAfter at hk'
  split at hk'
  · rename_i n hstop
    cases hk'
    rw [hstop] at hend
    cases hend with
    | slept _ _ hout hlt =>
      have hgot := hsec.got
      have hcount := h.count
      refine ⟨?_, ?_, ?_⟩
      · rw [hsec.gone, hgot, h.same, append_nil]
      · rw [hgot, mem_append, not_or]
        exact ⟨h.noEof, hout ▸ Cons.ctrlD_notMem_inReach _ _⟩
      · show sec.got.length + (k.n - out.length) = k.target
        rw [hgot, length_append]
        omega
  · cases hk'

theorem byCalls_afterSection {l : List UInt8} (hk : s.call p = some k)
    (hgone : sec.gone = k.gone ++ l) (q : ι) :
    (s.afterSection p k sec).byCalls q = s.byCalls q ++ if q = p then l else [] := by
  by_cases hq : q = p
  · subst hq
    simp only [byCalls, ConsoleSys.afterSection, update_self, filter_append,
      flatMap_append, hk, Option.map_some, Option.getD_some]
    unfold ConsoleSys.callAfter doneAfter
    split
    · simp [hgone]
    · simp [hgone]
  · have hdone : (doneAfter p sec).filter (·.proc = q) = [] := by
      unfold doneAfter
      split
      · rfl
      · simp [Ne.symm hq]
    rw [if_neg hq]
    simp only [byCalls, ConsoleSys.afterSection, update_of_ne hq, filter_append, hdone, append_nil]

theorem takenBy_afterSection {l : List UInt8} (hgone : sec.gone = k.gone ++ l) (q : ι) :
    (s.afterSection p k sec).takenBy q = s.takenBy q ++ if q = p then l else [] := by
  simp only [takenBy, ConsoleSys.afterSection, filter_append, map_append, hgone, drop_left]
  congr 1
  by_cases hq : q = p
  · subst hq
    simp [filter_map, comp_def]
  · simp [filter_map, comp_def, hq, Ne.symm hq]

theorem Inv.afterSection (h : s.Inv) (hk : s.call p = some k) (killed : Bool) :
    (s.afterSection p k (s.sectionOf k killed)).Inv := by
  obtain ⟨out, extra, hsec⟩ := h.section hk killed
  have hcall := h.calls p k hk
  refine ⟨hsec.ok, ⟨?_, ?_⟩, fun q k' hk' => ?_, fun q => ?_⟩
  · show s.editor.committed = (s.log ++ _).map Prod.snd ++ (s.sectionOf k killed).cons.unread
    rw [h.shows.1, hsec.unread, hsec.gone, map_append, map_map]
    simp [comp_def]
  · exact h.shows.2.trans hsec.line.symm
  · by_cases hq : q = p
    · subst hq
      have hself : update s.call q (callAfter k (s.sectionOf k killed)) q = some k' := hk'
      rw [update_self] at hself
      exact hcall.callAfter hsec hself
    · have hother : update s.call p (callAfter k (s.sectionOf k killed)) q = some k' := hk'
      rw [update_of_ne hq] at hother
      exact h.calls q k' hother
  · rw [takenBy_afterSection hsec.gone, byCalls_afterSection hk hsec.gone, h.bytes q]

theorem Inv.step {a : ConsoleAct ι} (h : s.Inv) (hs : s.step a = some (.ok s')) : s'.Inv := by
  cases a with
  | intr ch =>
    have hheld : s.editor.committed.length - s.log.length = s.cons.unread.length := by
      rw [h.shows.1, length_append, length_map]
      omega
    simp only [ConsoleSys.step, Option.some.injEq, Except.ok.injEq] at hs
    subst hs
    obtain ⟨hok, hshows⟩ := h.ok.consoleintr ch h.shows
    refine ⟨hok, ?_, h.calls, h.bytes⟩
    rw [hheld]
    exact hshows
  | read p n dst =>
    simp only [ConsoleSys.step] at hs
    split at hs
    · rename_i hnone
      cases hs
      refine ⟨h.ok, h.shows, fun q k hk => ?_, fun q => ?_⟩
      · by_cases hq : q = p
        · subst hq
          simp only [update_self, Option.some_inj] at hk
          subst hk
          exact ⟨rfl, not_mem_nil, Nat.zero_add _⟩
        · simp only [update_of_ne hq] at hk
          exact h.calls q k hk
      · refine (h.bytes q).trans ?_
        by_cases hq : q = p
        · subst hq
          simp [byCalls, hnone]
        · simp [byCalls, hq]
    · cases hs
  | run p killed =>
    simp only [ConsoleSys.step] at hs
    split at hs
    · cases hs
    · rename_i k hk
      cases hs
      exact h.afterSection hk killed

/-- A call that returned: it removed what it stored, or it had stored nothing and removed one
control-D, for which it returned 0. -/
def DoneOk (f : ReadDone ι) : Prop :=
  (f.gone = f.got ∧ ctrl 'D' ∉ f.got ∧ (0 ≤ f.ret → f.ret = f.got.length)) ∨
    (f.got = [] ∧ f.gone = [ctrl 'D'] ∧ f.ret = 0)

/-- **The invariant of runs with writable destinations.** -/
structure WritableInv (s : ConsoleSys ι) : Prop extends Inv s where
  writable : ∀ p k, s.call p = some k → ∀ i < k.target, k.dst i = true
  done : ∀ f ∈ s.finished, DoneOk f

omit [DecidableEq ι] in
theorem CallOk.doneAfter (h : CallOk k) {killed : Bool} {c : Cons} {out extra : List UInt8}
    (hsec : Cons.Left sec k.dst killed k.target k.n c k.got k.gone out extra)
    (hw : ∀ i < k.target, k.dst i = true) {f : ReadDone ι} (hf : f ∈ doneAfter p sec) :
    DoneOk f := by
  have hend := hsec.ending
  unfold ConsoleSys.doneAfter at hf
  split at hf
  · cases hf
  · rename_i r hstop
    rw [mem_singleton] at hf
    subst hf
    have hcount := h.count
    rw [hstop] at hend
    have hgot := hsec.got
    have hgone := hsec.gone
    have hclean : ∀ l : List UInt8, ctrl 'D' ∉ k.got ++ Cons.inReach k.n l := by
      intro l
      rw [mem_append, not_or]
      exact ⟨h.noEof, Cons.ctrlD_notMem_inReach _ _⟩
    cases hend with
    | killed _ _ hout _ =>
      refine .inl ⟨?_, ?_, fun h0 => absurd h0 (Int.not_le.2 (Int.negSucc_lt_zero 0))⟩
      · rw [hgone, hgot, h.same, append_nil]
      · rw [hgot, hout]
        exact hclean _
    | returned _ _ hout =>
      refine .inl ⟨?_, ?_, fun _ => ?_⟩
      · rw [hgone, hgot, h.same, append_nil]
      · rw [hgot, hout]
        exact hclean _
      · rw [hgot, length_append]
        push_cast
        omega
    | eof hn _ =>
      have hnil : k.got = [] := length_eq_zero_iff.1 (by omega)
      refine .inr ⟨?_, ?_, rfl⟩
      · rw [hgot, hnil, append_nil]
      · rw [hgone, h.same, hnil]
        rfl
    | fault _ b _ hlt hdst =>
      have hle := Cons.length_inReach_le k.n c.unread
      rw [hw _ (by omega)] at hdst
      cases hdst

theorem WritableInv.step {a : ConsoleAct ι} (h : s.WritableInv) (ha : s.Writable a)
    (hs : s.step a = some (.ok s')) : s'.WritableInv := by
  refine ⟨h.toInv.step hs, ?_, ?_⟩
  · cases a with
    | intr ch =>
      cases hs
      exact h.writable
    | read p n dst =>
      simp only [ConsoleSys.step] at hs
      split at hs
      · cases hs
        intro q k hk
        by_cases hq : q = p
        · subst hq
          simp only [update_self, Option.some_inj] at hk
          subst hk
          exact ha
        · simp only [update_of_ne hq] at hk
          exact h.writable q k hk
      · cases hs
    | run p killed =>
      simp only [ConsoleSys.step] at hs
      split at hs
      · cases hs
      · rename_i k hk
        cases hs
        intro q k' hk'
        by_cases hq : q = p
        · subst hq
          simp only [ConsoleSys.afterSection, update_self] at hk'
          unfold callAfter at hk'
          split at hk'
          · cases hk'
            exact h.writable q k hk
          · cases hk'
        · simp only [ConsoleSys.afterSection, update_of_ne hq] at hk'
          exact h.writable q k' hk'
  · cases a with
    | intr ch =>
      cases hs
      exact h.done
    | read p n dst =>
      simp only [ConsoleSys.step] at hs
      split at hs
      · cases hs
        exact h.done
      · cases hs
    | run p killed =>
      simp only [ConsoleSys.step] at hs
      split at hs
      · cases hs
      · rename_i k hk
        cases hs
        obtain ⟨out, extra, hsec⟩ := h.toInv.section hk killed
        intro f hf
        rcases mem_append.1 hf with hf | hf
        · exact h.done f hf
        · exact (h.calls p k hk).doneAfter hsec (h.writable p k hk) hf

/-- **Console line discipline.**  In every state that typing and readers with writable destinations
reach: the counters are in order; erase and kill move `e` and nothing else; the editor's line is
what is between `w` and `e`, and what it has committed is what the readers removed, in order, and
what is between `r` and `w`.  Each process removed what its calls removed, one after the other, and
a call removed what it stored, or stored nothing, removed one control-D and returned 0. -/
theorem line_discipline (h : Runs.Reach step Writable start s) :
    s.cons.Ok ∧
    (∀ ch, ch = ctrl 'U' ∨ ch = ctrl 'H' ∨ ch = 0x7f →
      ∃ e, s.cons.consoleintr ch = { s.cons with e := e }) ∧
    s.editor.line = s.cons.line ∧
    s.editor.committed = s.log.map Prod.snd ++ s.cons.unread ∧
    (∀ p, s.takenBy p = s.byCalls p) ∧
    (∀ p k, s.call p = some k → k.gone = k.got ∧ ctrl 'D' ∉ k.got) ∧
    ∀ f ∈ s.finished, DoneOk f := by
  have hinit : (start : ConsoleSys ι).WritableInv :=
    ⟨inv_start, nofun, fun f hf => absurd hf not_mem_nil⟩
  have hinv := h.invariant hinit fun _ _ _ hi ha hs => WritableInv.step hi ha hs
  refine ⟨hinv.ok, fun ch hch => s.cons.consoleintr_erase hch, hinv.shows.2, hinv.shows.1,
    hinv.bytes, fun p k hk => ?_, hinv.done⟩
  exact ⟨(hinv.calls p k hk).same, (hinv.calls p k hk).noEof⟩

/-- Two characters and a control-D; one reader gets the characters, the next the end of file. -/
theorem line_discipline_eof : ∃ s : ConsoleSys (Fin 2), Runs.Reach step Writable start s ∧
    s.log = [(0, 104), (0, 105), (1, 4)] ∧ s.cons.Ok ∧
    s.editor.committed = s.log.map Prod.snd ++ s.cons.unread ∧ ∀ f ∈ s.finished, DoneOk f := by
  have hrun : ∃ s : ConsoleSys (Fin 2), Runs.Reach step Writable start s ∧
      s.log = [(0, 104), (0, 105), (1, 4)] :=
    Runs.exists_reach_of_exec
      [.intr 104, .intr 105, .intr 105, .intr (ctrl 'H'), .read 0 10 (fun _ => true),
        .intr (ctrl 'D'), .run 0 false, .read 1 10 (fun _ => true), .run 1 false]
      (by decide +kernel)
  obtain ⟨s, hreach, hlog⟩ := hrun
  have h := line_discipline hreach
  exact ⟨s, hreach, hlog, h.1, h.2.2.2.1, h.2.2.2.2.2.2⟩

end ConsoleSys

end CsklubOs
