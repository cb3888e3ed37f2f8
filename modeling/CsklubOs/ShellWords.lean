/-
**The words of a command line, terminated in place.**

`nulterminate` of `user/sh.c` stores a NUL at the end of every word of a tree, into the line that
the tree was read from.  The end of a word is where the line ends or a byte follows that is no part
of a word.

Main results:

* `words_preserved` — such a store is never into a word, whichever other word it is for and in
  whichever order the stores are made.
-/

import CsklubOs.ShellParse

set_option autoImplicit false

namespace CsklubOs


namespace Shell

open Wp List

/-! ### The words of a tree -/

/-- The start and the end of each argument and file name. -/
def Cmd.words : Cmd → List (ℕ × ℕ)
  | .exec argv => argv
  | .redir cmd file efile _ _ => cmd.words ++ [(file, efile)]
  | .pipe left right => left.words ++ right.words
  | .list left right => left.words ++ right.words
  | .back cmd => cmd.words

/-- The arguments of each simple command. -/
def Cmd.argvs : Cmd → List (List (ℕ × ℕ))
  | .exec argv => [argv]
  | .redir cmd _ _ _ _ => cmd.argvs
  | .pipe left right => left.argvs ++ right.argvs
  | .list left right => left.argvs ++ right.argvs
  | .back cmd => cmd.argvs

/-- A NUL at the end of each word. -/
def terminate (buf : List UInt8) (ws : List (ℕ × ℕ)) : List UInt8 :=
  ws.foldl (fun b w => b.set w.2 0) buf

theorem nulterminate_eq (buf : List UInt8) (c : Cmd) :
    nulterminate buf c = terminate buf c.words := by
  induction c generalizing buf with
  | exec argv => rfl
  | redir cmd file efile mode fd ih => simp [nulterminate, Cmd.words, terminate, ih]
  | pipe left right ihl ihr => simp [nulterminate, Cmd.words, terminate, ihl, ihr]
  | list left right ihl ihr => simp [nulterminate, Cmd.words, terminate, ihl, ihr]
  | back cmd ih => exact ih buf

theorem getElem?_terminate (buf : List UInt8) (ws : List (ℕ × ℕ)) (i : ℕ) :
    (terminate buf ws)[i]? = if i ∈ ws.map Prod.snd then buf[i]?.map fun _ => 0 else buf[i]? := by
  induction ws generalizing buf with
  | nil => simp [terminate]
  | cons w ws ih =>
    rw [terminate, foldl_cons, ← terminate, ih, map_cons, List.getElem?_set']
    by_cases hw : w.2 = i
    · subst hw
      simp
      rfl
    · simp only [if_neg hw, mem_cons, Ne.symm hw, false_or]

/-! ### The words of a line -/

variable {l : List UInt8} {s q eq : ℕ}

/-- From `q` to `eq` there is a word that cannot be extended. -/
structure IsWord (l : List UInt8) (q eq : ℕ) : Prop where
  lt : q < eq
  eq : eq = skipWhile isWordByte l q

theorem isWord_of_mem (h : .word q eq ∈ tokensAt l s) : IsWord l q eq := by
  induction hn : l.length - s using Nat.strong_induction_on generalizing s with
  | _ n ih =>
    have hnext : ∀ k, 0 < k → s < l.length → .word q eq ∈ lex (s + k) (l.drop (s + k)) →
      IsWord l q eq :=
      fun k hk hs hmem => ih _ (by omega) hmem rfl
    rw [tokensAt] at h
    cases hd : l.drop s with
    | nil =>
      rw [hd] at h
      cases h
    | cons c cs =>
      have hs : s < l.length := by
        by_contra hge
        rw [drop_eq_nil_of_le (not_lt.1 hge)] at hd
        cases hd
      have hcs := drop_succ_of_drop hd
      rw [hd] at h
      rcases byte_cases c with hsp | rfl | ⟨hsp, hgt, -, t, ht, -⟩ | hword
      · rw [lex_cons_space hsp, ← hcs] at h
        exact hnext 1 one_pos hs h
      · by_cases hgt : cs.head? = some '>'.toUInt8
        · obtain ⟨ds, rfl⟩ : ∃ ds, cs = '>'.toUInt8 :: ds := List.head?_eq_some_iff.1 hgt
          rw [lex_cons_gtgt, ← drop_succ_of_drop hcs] at h
          exact hnext 2 two_pos hs (by simpa using h)
        · rw [lex_cons_gt hgt, ← hcs] at h
          exact hnext 1 one_pos hs (by simpa using h)
      · rw [lex_cons_symbol hsp hgt ht, ← hcs, mem_cons] at h
        exact hnext 1 one_pos hs (h.resolve_left fun heq => ofByte_ne_word (heq ▸ ht))
      · rw [lex_word cs _ hword, ← hd, mem_cons] at h
        have hpos : 0 < ((l.drop s).takeWhile isWordByte).length := by
          rw [hd, takeWhile_cons_of_pos hword]
          exact Nat.succ_pos _
        rcases h with ⟨rfl, rfl⟩ | h
        · exact ⟨Nat.lt_add_of_pos_right hpos, rfl⟩
        · rw [← drop_skipWhile] at h
          exact hnext _ hpos hs h

section

variable {buf : List UInt8} {ws : List (ℕ × ℕ)} {i : ℕ}

theorem IsWord.byte (h : IsWord l q eq) (hq : q ≤ i) (hi : i < eq) :
    ∃ c, l[i]? = some c ∧ isWordByte c = true := by
  have hlen : i - q < ((l.drop q).takeWhile isWordByte).length := by
    have heq := h.eq
    rw [skipWhile] at heq
    omega
  refine ⟨_, ?_, mem_takeWhile_imp (getElem_mem hlen)⟩
  obtain ⟨r, hr⟩ := takeWhile_prefix (l := l.drop q) isWordByte
  have hdrop : (l.drop q)[i - q]? = l[i]? := by
    rw [List.getElem?_drop, Nat.add_sub_cancel' hq]
  rw [← hdrop, ← List.getElem?_eq_getElem hlen]
  conv_lhs => rw [← hr]
  rw [List.getElem?_append_left hlen]

theorem IsWord.stop (h : IsWord l q eq) {c : UInt8} (hc : l[eq]? = some c) :
    isWordByte c = false := by
  have hhead := List.head?_dropWhile_not isWordByte (l.drop q)
  rw [← drop_skipWhile, ← h.eq, List.head?_drop, hc] at hhead
  exact hhead

theorem getElem?_line (h : i < (line buf).length) : buf[i]? = (line buf)[i]? := by
  obtain ⟨r, hr⟩ := takeWhile_prefix (l := buf) (· ≠ 0)
  conv_lhs => rw [← hr]
  exact List.getElem?_append_left h

theorem getElem?_word (hws : ∀ w ∈ ws, IsWord (line buf) w.1 w.2) (h : IsWord (line buf) q eq)
    (hq : q ≤ i) (hi : i < eq) : (terminate buf ws)[i]? = (line buf)[i]? := by
  obtain ⟨c, hc, hword⟩ := h.byte hq hi
  rw [getElem?_terminate, if_neg, getElem?_line (List.getElem?_eq_some_iff.1 hc).1]
  intro hmem
  obtain ⟨w, hw, rfl⟩ := mem_map.1 hmem
  rw [(hws w hw).stop hc] at hword
  cases hword

theorem line_terminate (hws : ∀ w ∈ ws, IsWord (line buf) w.1 w.2) (hmem : (q, eq) ∈ ws) :
    line ((terminate buf ws).drop q) = ((line buf).drop q).take (eq - q) := by
  have h := hws _ hmem
  have hlt : q < eq := h.lt
  have htake : ((terminate buf ws).drop q).take (eq - q) = ((line buf).drop q).take (eq - q) := by
    refine ext_getElem? fun k => ?_
    rw [List.getElem?_take, List.getElem?_take, List.getElem?_drop, List.getElem?_drop]
    split_ifs with hk
    · exact getElem?_word hws h (Nat.le_add_right q k) (by omega)
    · rfl
  have hsplit : (terminate buf ws).drop q = ((line buf).drop q).take (eq - q) ++
      (terminate buf ws).drop eq := by
    rw [← htake]
    conv_lhs => rw [← take_append_drop (eq - q) ((terminate buf ws).drop q)]
    rw [drop_drop, Nat.add_sub_cancel' hlt.le]
  have hend : ((terminate buf ws).drop eq).takeWhile (· ≠ 0) = [] := by
    have hnul : (terminate buf ws)[eq]? = buf[eq]?.map fun _ => 0 := by
      rw [getElem?_terminate, if_pos (mem_map.2 ⟨_, hmem, rfl⟩)]
    rw [← List.head?_drop] at hnul
    cases hd : (terminate buf ws).drop eq with
    | nil => rfl
    | cons c cs =>
      rw [hd, List.head?_cons, eq_comm, Option.map_eq_some_iff] at hnul
      obtain ⟨-, -, rfl⟩ := hnul
      rfl
  rw [line, hsplit, takeWhile_append_of_pos, hend, append_nil]
  intro c hc
  refine decide_eq_true fun h0 => zero_notMem_line buf ?_
  exact h0 ▸ mem_of_mem_drop (mem_of_mem_take hc)

end

/-! ### The words of a tree are words of the line -/

/-- The words of the tree are among the tokens, and every `argv` has room for its terminator. -/
structure Cites (ts : List Tok) (c : Cmd) : Prop where
  words : ∀ w ∈ c.words, .word w.1 w.2 ∈ ts
  argvs : ∀ argv ∈ c.argvs, argv.length < maxArgs

theorem words_back (n : ℕ) (c : Cmd) :
    (Cmd.back^[n] c).words = c.words ∧ (Cmd.back^[n] c).argvs = c.argvs := by
  induction n generalizing c with
  | zero => exact ⟨rfl, rfl⟩
  | succ n ih => exact ih (.back c)

theorem words_wrap (rs : List Redir) (c : Cmd) :
    (rs.foldl Redir.wrap c).words = c.words ++ rs.map (fun r => (r.q, r.eq)) ∧
      (rs.foldl Redir.wrap c).argvs = c.argvs := by
  induction rs generalizing c with
  | nil => simp
  | cons r rs ih =>
    obtain ⟨op, q, eq⟩ := r
    rw [foldl_cons, (ih _).1, (ih _).2]
    cases op <;> simp [Redir.wrap, Cmd.words, Cmd.argvs]

theorem mem_redirToks {rs : List Redir} {r : Redir} (h : r ∈ rs) : .word r.q r.eq ∈ redirToks rs :=
  mem_flatMap.2 ⟨r, h, by simp [Redir.toks]⟩

theorem Line.cites {ts : List Tok} {c : Cmd} (h : Line ts c) : Cites ts c := by
  refine @Line.rec (fun ts c _ => Cites ts c) (fun ts c _ => Cites ts c) (fun ts c _ => Cites ts c)
    ?_ ?_ ?_ ?_ ?_ ?_ ts c h
  · intro ts c n _ ih
    refine ⟨fun w hw => ?_, fun argv ha => ?_⟩
    · rw [(words_back n c).1] at hw
      exact mem_append_left _ (ih.words w hw)
    · rw [(words_back n c).2] at ha
      exact ih.argvs argv ha
  · intro ts ts' c c' n _ _ ih ih'
    refine ⟨fun w hw => ?_, fun argv ha => ?_⟩
    · rw [Cmd.words, (words_back n c).1, mem_append] at hw
      rcases hw with hw | hw
      · exact mem_append_left _ (mem_append_left _ (ih.words w hw))
      · exact mem_append_right _ (mem_cons_of_mem _ (ih'.words w hw))
    · rw [Cmd.argvs, (words_back n c).2, mem_append] at ha
      exact ha.elim (ih.argvs argv) (ih'.argvs argv)
  · exact fun _ ih => ih
  · intro ts ts' c c' _ _ ih ih'
    refine ⟨fun w hw => ?_, fun argv ha => ?_⟩
    · rcases mem_append.1 hw with hw | hw
      · exact mem_append_left _ (ih.words w hw)
      · exact mem_append_right _ (mem_cons_of_mem _ (ih'.words w hw))
    · exact (mem_append.1 ha).elim (ih.argvs argv) (ih'.argvs argv)
  · intro ts c rs _ ih
    refine ⟨fun w hw => ?_, fun argv ha => ?_⟩
    · rw [(words_wrap rs c).1, mem_append, mem_map] at hw
      rcases hw with hw | ⟨r, hr, rfl⟩
      · simp [ih.words w hw]
      · simp [mem_redirToks hr]
    · rw [(words_wrap rs c).2] at ha
      exact ih.argvs argv ha
  · intro rs gs hlen
    refine ⟨fun w hw => ?_, fun argv ha => ?_⟩
    · rw [(words_wrap _ _).1, Cmd.words, mem_append, mem_map, mem_map] at hw
      rcases hw with ⟨g, hg, rfl⟩ | ⟨r, hr, rfl⟩
      · refine mem_append_right _ (mem_flatMap.2 ⟨g, hg, ?_⟩)
        simp [Group.toks]
      · rcases mem_append.1 hr with hr | hr
        · exact mem_append_left _ (mem_redirToks hr)
        · obtain ⟨g, hg, hr⟩ := mem_flatMap.1 hr
          refine mem_append_right _ (mem_flatMap.2 ⟨g, hg, ?_⟩)
          exact mem_cons_of_mem _ (mem_redirToks hr)
    · rw [(words_wrap _ _).2, Cmd.argvs, mem_singleton] at ha
      rw [ha, length_map]
      exact Nat.lt_of_le_pred (by decide) hlen

/-- **Every word is read back as its text.**  After `parsecmd` each argument and each file name is a
word of the line, and the string at its start in the buffer is the text of the word; and every
`argv` has room for the null pointer at its end. -/
theorem words_preserved {buf b : List UInt8} {n : ℕ} {c : Cmd} (hn : 4 * (line buf).length + 5 ≤ n)
    (h : parsecmd n buf = .ok (c, b)) :
    (∀ w ∈ c.words, .word w.1 w.2 ∈ tokens (line buf) ∧
      line (b.drop w.1) = ((line buf).drop w.1).take (w.2 - w.1)) ∧
    ∀ argv ∈ c.argvs, argv.length < maxArgs := by
  have hlen : 4 * (tokens (line buf)).length + 5 ≤ n := by
    have := length_lex_le (line buf) 0
    rw [tokens]
    omega
  have hsound := wp_parseAll (zero_notMem_line buf) hlen
  rw [parsecmd] at h
  cases hrun : parseAll (line buf) n 0 with
  | error e =>
    rw [hrun] at h
    cases h
  | ok r =>
    rw [hrun] at h
    cases h
    have hcites := (hsound.of_ok hrun).cites
    have hword : ∀ w ∈ r.1.words, IsWord (line buf) w.1 w.2 := fun w hw =>
      isWord_of_mem (s := 0) (hcites.words w hw)
    refine ⟨fun w hw => ⟨hcites.words w hw, ?_⟩, hcites.argvs⟩
    rw [nulterminate_eq]
    exact line_terminate hword hw

/-- The words of `ab<c|d`. -/
theorem words_preserved_example :
    ∃ c b, parsecmd 200 (bytes ['a', 'b', '<', 'c', '|', 'd']) = .ok (c, b) ∧
    c.words = [(0, 2), (3, 4), (5, 6)] ∧ line b = bytes ['a', 'b'] ∧
    line (b.drop 3) = bytes ['c'] := by
  obtain ⟨⟨c, b⟩, hrun, hf⟩ := exists_ok_of_any (x := parsecmd 200
    (bytes ['a', 'b', '<', 'c', '|', 'd'])) (f := fun r =>
    decide (r.1.words = [(0, 2), (3, 4), (5, 6)])) (by decide +kernel)
  have hwords : c.words = [(0, 2), (3, 4), (5, 6)] := of_decide_eq_true hf
  obtain ⟨hread, -⟩ := words_preserved (by decide) hrun
  exact ⟨c, b, hrun, hwords, (hread (0, 2) (by simp [hwords])).2,
    (hread (3, 4) (by simp [hwords])).2⟩

end Shell

end CsklubOs
