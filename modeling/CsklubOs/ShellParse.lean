/-
**The parser of the shell.**

`parsecmd` and the functions under it, from `user/sh.c`, on the tokens of `CsklubOs/ShellLex.lean`.
Every function takes fuel, one unit for each call and each turn of a loop; running out of it is an
outcome of its own.  A call in front of `n` tokens needs four units for each of them, since between
two tokens at most `parseline`, `parsepipe`, `parseexec` and `parseblock` are entered.

Main definitions:

* `Cmd`, `parsecmd` — the trees, and the parser;
* `Reads` — the grammar, as a relation between token sequences and trees that does not mention the
  parser.

Main results:

* `parsecmd_iff` — the parser accepts the grammar.
-/

import CsklubOs.ShellLex
import CsklubOs.Wp

set_option autoImplicit false

namespace CsklubOs

open Nat (exists_eq_add_one lt_succ_self)

namespace Shell

open Wp List

/-! ### Trees -/

def maxArgs : ℕ := 10

/-- `struct cmd`.  An argument, and the file of a redirection, are given by their start and their
end. -/
inductive Cmd
  | exec (argv : List (ℕ × ℕ))
  | redir (cmd : Cmd) (file efile mode fd : ℕ)
  | pipe (left right : Cmd)
  | list (left right : Cmd)
  | back (cmd : Cmd)
  deriving DecidableEq

/-- `cmd->argv[argc] = q; cmd->eargv[argc] = eq`, where `cmd` is the command under the redirections
that have been put around it. -/
def Cmd.addArg (q eq : ℕ) : Cmd → Cmd
  | .exec argv => .exec (argv ++ [(q, eq)])
  | .redir cmd file efile mode fd => .redir (cmd.addArg q eq) file efile mode fd
  | cmd => cmd

/-- `O_RDONLY`, `O_WRONLY|O_CREATE|O_TRUNC` and `O_WRONLY|O_CREATE`. -/
def modeRead : ℕ := 0x000
def modeTrunc : ℕ := 0x601
def modeAppend : ℕ := 0x201

/-- The `switch` of `parseredirs`. -/
def redircmd (tok : UInt8) (cmd : Cmd) (q eq : ℕ) : Cmd :=
  if tok = '<'.toUInt8 then .redir cmd q eq modeRead 0
  else if tok = '>'.toUInt8 then .redir cmd q eq modeTrunc 1
  else if tok = '+'.toUInt8 then .redir cmd q eq modeAppend 1
  else cmd

/-! ### The code -/

/-- What the parser panics with. -/
inductive ShPanic
  | syntaxError
  | missingFile
  | parseblock
  | missingParen
  | tooManyArgs

/-- How the parser stops without a tree. -/
inductive Stop
  | fuel
  | panic (msg : ShPanic)

/-- Code that moves the cursor. -/
abbrev ShM := StateT ℕ (Except Stop)

def peekM (l toks : List UInt8) : ShM Bool := do
  let s ← get
  set (peek l s toks).1
  pure (peek l s toks).2

def gettokenM (l : List UInt8) : ShM Got := do
  let s ← get
  set (gettoken l s).ps
  pure (gettoken l s)

def bytes (cs : List Char) : List UInt8 := cs.map Char.toUInt8

def parseredirs (l : List UInt8) : ℕ → Cmd → ShM Cmd
  | 0, _ => throw .fuel
  | n + 1, cmd => do
    if ← peekM l (bytes ['<', '>']) then do
      let tok ← gettokenM l
      let file ← gettokenM l
      if file.ret ≠ 'a'.toUInt8 then throw (.panic .missingFile)
      else parseredirs l n (redircmd tok.ret cmd file.q file.eq)
    else pure cmd

/-- The loop of `parseline`. -/
def backLoop (l : List UInt8) : ℕ → Cmd → ShM Cmd
  | 0, _ => throw .fuel
  | n + 1, cmd => do
    if ← peekM l (bytes ['&']) then do
      let _ ← gettokenM l
      backLoop l n (.back cmd)
    else pure cmd

/-- The loop of `parseexec`. -/
def argsLoop (l : List UInt8) : ℕ → ℕ → Cmd → ShM Cmd
  | 0, _, _ => throw .fuel
  | n + 1, argc, ret => do
    if ← peekM l (bytes ['|', ')', '&', ';']) then pure ret
    else do
      let tok ← gettokenM l
      if tok.ret = 0 then pure ret
      else if tok.ret ≠ 'a'.toUInt8 then throw (.panic .syntaxError)
      else if maxArgs ≤ argc + 1 then throw (.panic .tooManyArgs)
      else do
        let ret ← parseredirs l n (ret.addArg tok.q tok.eq)
        argsLoop l n (argc + 1) ret

mutual

def parseline (l : List UInt8) : ℕ → ShM Cmd
  | 0 => throw .fuel
  | n + 1 => do
    let cmd ← parsepipe l n
    let cmd ← backLoop l n cmd
    if ← peekM l (bytes [';']) then do
      let _ ← gettokenM l
      let right ← parseline l n
      pure (.list cmd right)
    else pure cmd

def parsepipe (l : List UInt8) : ℕ → ShM Cmd
  | 0 => throw .fuel
  | n + 1 => do
    let cmd ← parseexec l n
    if ← peekM l (bytes ['|']) then do
      let _ ← gettokenM l
      let right ← parsepipe l n
      pure (.pipe cmd right)
    else pure cmd

def parseexec (l : List UInt8) : ℕ → ShM Cmd
  | 0 => throw .fuel
  | n + 1 => do
    if ← peekM l (bytes ['(']) then parseblock l n
    else do
      let ret ← parseredirs l n (.exec [])
      argsLoop l n 0 ret

def parseblock (l : List UInt8) : ℕ → ShM Cmd
  | 0 => throw .fuel
  | n + 1 => do
    if ← peekM l (bytes ['(']) then do
      let _ ← gettokenM l
      let cmd ← parseline l n
      if ← peekM l (bytes [')']) then do
        let _ ← gettokenM l
        parseredirs l n cmd
      else throw (.panic .missingParen)
    else throw (.panic .parseblock)

end

/-- `nulterminate`: the buffer with a NUL at the end of each argument and file name. -/
def nulterminate (buf : List UInt8) : Cmd → List UInt8
  | .exec argv => argv.foldl (fun b a => b.set a.2 0) buf
  | .redir cmd _ efile _ _ => (nulterminate buf cmd).set efile 0
  | .pipe left right => nulterminate (nulterminate buf left) right
  | .list left right => nulterminate (nulterminate buf left) right
  | .back cmd => nulterminate buf cmd

/-- The part of `parsecmd` that moves the cursor. -/
def parseAll (l : List UInt8) (n : ℕ) : ShM Cmd := do
  let cmd ← parseline l n
  let _ ← peekM l []
  let s ← get
  if s ≠ l.length then throw (.panic .syntaxError) else pure cmd

/-- `parsecmd`: the tree, and the buffer that it points into. -/
def parsecmd (n : ℕ) (buf : List UInt8) : Except Stop (Cmd × List UInt8) :=
  match parseAll (line buf) n 0 with
  | .ok (cmd, _) => .ok (cmd, nulterminate buf cmd)
  | .error e => .error e

/-! ### The grammar -/

/-- `redir ::= ('<' | '>' | '>>') word`. -/
inductive RedirOp
  | lt
  | gt
  | gtgt

structure Redir where
  op : RedirOp
  q : ℕ
  eq : ℕ

def RedirOp.tok : RedirOp → Tok
  | .lt => .lt
  | .gt => .gt
  | .gtgt => .gtgt

def Redir.toks (r : Redir) : List Tok := [r.op.tok, .word r.q r.eq]

/-- The tree with a redirection around it. -/
def Redir.wrap (c : Cmd) (r : Redir) : Cmd :=
  match r.op with
  | .lt => .redir c r.q r.eq modeRead 0
  | .gt => .redir c r.q r.eq modeTrunc 1
  | .gtgt => .redir c r.q r.eq modeAppend 1

/-- `redir*`. -/
def redirToks (rs : List Redir) : List Tok := rs.flatMap Redir.toks

/-- `word redir*`. -/
structure Group where
  q : ℕ
  eq : ℕ
  redirs : List Redir

def Group.toks (g : Group) : List Tok := .word g.q g.eq :: redirToks g.redirs

mutual

/-- `line ::= pipe '&'* [';' line]`. -/
inductive Line : List Tok → Cmd → Prop
  | last {ts : List Tok} {c : Cmd} (n : ℕ) : Pipe ts c →
      Line (ts ++ replicate n .amp) (Cmd.back^[n] c)
  | cons {ts ts' : List Tok} {c c' : Cmd} (n : ℕ) : Pipe ts c → Line ts' c' →
      Line (ts ++ replicate n .amp ++ .semi :: ts') (.list (Cmd.back^[n] c) c')

/-- `pipe ::= exec ['|' pipe]`. -/
inductive Pipe : List Tok → Cmd → Prop
  | last {ts : List Tok} {c : Cmd} : Exec ts c → Pipe ts c
  | cons {ts ts' : List Tok} {c c' : Cmd} : Exec ts c → Pipe ts' c' →
      Pipe (ts ++ .bar :: ts') (.pipe c c')

/-- `exec ::= '(' line ')' redir* | redir* (word redir*)*`. -/
inductive Exec : List Tok → Cmd → Prop
  | block {ts : List Tok} {c : Cmd} (rs : List Redir) : Line ts c →
      Exec (.lpar :: ts ++ .rpar :: redirToks rs) (rs.foldl Redir.wrap c)
  | simple (rs : List Redir) (gs : List Group) : gs.length ≤ maxArgs - 1 →
      Exec (redirToks rs ++ gs.flatMap Group.toks)
        ((rs ++ gs.flatMap Group.redirs).foldl Redir.wrap (.exec (gs.map fun g => (g.q, g.eq))))

end

/-! ### Reading -/

/-- The cursor `s` is on the line, in front of the tokens `ts`. -/
structure Reads (l : List UInt8) (s : ℕ) (ts : List Tok) : Prop where
  le : s ≤ l.length
  tokens : tokensAt l s = ts

/-- The first token starts with one of the bytes. -/
def nextIn (toks : List UInt8) : List Tok → Bool
  | [] => false
  | t :: _ => t.byte.any (· ∈ toks)

variable {l : List UInt8} {s : ℕ} {ts rest : List Tok} {E : Stop → Prop}

theorem nextIn_mono {A B : List UInt8} (hsub : A ⊆ B) (h : nextIn A ts = true) :
    nextIn B ts = true := by
  cases ts with
  | nil => cases h
  | cons t ts =>
    obtain ⟨c, hc, hmem⟩ := (Option.any_eq_true ..).1 h
    exact (Option.any_eq_true ..).2 ⟨c, hc, decide_eq_true (hsub (of_decide_eq_true hmem))⟩

theorem not_nextIn {A B : List UInt8} (hdis : A.all (fun c => c ∉ B) = true)
    (h : ts = [] ∨ nextIn A ts = true) : nextIn B ts = false := by
  rcases h with rfl | h
  · rfl
  · cases ts with
    | nil => rfl
    | cons t ts =>
      obtain ⟨c, hc, hmem⟩ := (Option.any_eq_true ..).1 h
      have hB := of_decide_eq_true (all_eq_true.1 hdis c (of_decide_eq_true hmem))
      simp [nextIn, hc, hB]

theorem byteAt_ne_zero {x : ℕ} (h : byteAt l x ≠ 0) : x < l.length := by
  by_contra hge
  refine h ?_
  rw [byteAt, getD_eq_getElem?_getD, List.getElem?_eq_none (not_lt.1 hge)]
  rfl

theorem scan_le (h : s ≤ l.length) : (scan l s).2 ≤ l.length := by
  rw [scan]
  split
  · exact h
  · rename_i hne
    have hlt := byteAt_ne_zero hne
    split
    · split
      · rename_i hgt
        exact byteAt_ne_zero (by rw [hgt]; decide)
      · exact hlt
    · split
      · exact hlt
      · exact skipWhile_le h

theorem wp_peekM {Q : Bool → ℕ → Prop} {toks : List UInt8} (h0 : 0 ∉ l) (h : Reads l s ts)
    (htoks : toks.all (fun c => c ∈ symbols) = true)
    (hQ : ∀ s', Reads l s' ts → Q (nextIn toks ts) s') : wp (peekM l toks) Q E s := by
  have htoks : ∀ c ∈ toks, c ∈ symbols := fun c hc => of_decide_eq_true (all_eq_true.1 htoks c hc)
  refine wp_bind.2 (wp_get.2 (wp_bind.2 (wp_set.2 (wp_pure.2 ?_))))
  have hnext : (peek l s toks).2 = nextIn toks ts := by
    rw [Bool.eq_iff_iff, peek_iff h0 htoks, h.tokens]
    cases ts with
    | nil =>
      refine iff_of_false ?_ Bool.false_ne_true
      rintro ⟨t, ts, c, ht, -⟩
      cases ht
    | cons t ts =>
      rw [nextIn, Option.any_eq_true]
      constructor
      · rintro ⟨t', ts', c, ht, hc, hmem⟩
        obtain ⟨rfl, rfl⟩ := cons_eq_cons.1 ht
        exact ⟨c, hc, decide_eq_true hmem⟩
      · rintro ⟨c, hc, hmem⟩
        exact ⟨t, ts, c, rfl, hc, of_decide_eq_true hmem⟩
  rw [hnext]
  exact hQ _ ⟨skipWhile_le h.le, (tokensAt_peek l s toks).trans h.tokens⟩

theorem wp_gettokenM_nil {Q : Got → ℕ → Prop} (h : Reads l s [])
    (hQ : ∀ g s', g.ret = 0 → Reads l s' [] → Q g s') : wp (gettokenM l) Q E s := by
  obtain ⟨hret, hps⟩ := gettoken_nil h.tokens
  refine wp_bind.2 (wp_get.2 (wp_bind.2 (wp_set.2 (wp_pure.2 (hQ _ _ hret ⟨?_, hps⟩)))))
  exact skipWhile_le (scan_le (skipWhile_le h.le))

variable {t : Tok}

theorem wp_gettokenM {Q : Got → ℕ → Prop} (h0 : 0 ∉ l) (h : Reads l s (t :: ts))
    (hQ : ∀ g s', g.ret = t.code → (∀ q eq, t = .word q eq → g.q = q ∧ g.eq = eq) →
      Reads l s' ts → Q g s') : wp (gettokenM l) Q E s := by
  obtain ⟨hret, hps, hword⟩ := gettoken_cons h0 h.tokens
  refine wp_bind.2 (wp_get.2 (wp_bind.2 (wp_set.2 (wp_pure.2 (hQ _ _ hret hword ⟨?_, hps⟩)))))
  exact skipWhile_le (scan_le (skipWhile_le h.le))

/-! ### Redirections -/

theorem redircmd_wrap (op : RedirOp) (c : Cmd) (q eq : ℕ) :
    redircmd op.tok.code c q eq = Redir.wrap c ⟨op, q, eq⟩ := by
  cases op <;> rfl

theorem nextIn_redir (h : nextIn (bytes ['<', '>']) (t :: ts) = true) :
    ∃ op : RedirOp, t = op.tok := by
  cases t with
  | lt => exact ⟨.lt, rfl⟩
  | gt => exact ⟨.gt, rfl⟩
  | gtgt => exact ⟨.gtgt, rfl⟩
  | _ => exact absurd h Bool.false_ne_true

theorem nextIn_redir_tok (op : RedirOp) : nextIn (bytes ['<', '>']) (op.tok :: ts) = true := by
  cases op <;> rfl

theorem code_eq_word (h : t.code = 'a'.toUInt8) : ∃ q eq, t = .word q eq := by
  cases t with
  | word q eq => exact ⟨q, eq, rfl⟩
  | _ => exact absurd h (by decide)

theorem code_ne_zero (t : Tok) : t.code ≠ 0 := by
  cases t with
  | word q eq => exact (by decide : 'a'.toUInt8 ≠ 0)
  | _ => decide

theorem wp_parseredirs (h0 : 0 ∉ l) : ∀ (n s : ℕ) (ts : List Tok) (cmd : Cmd), Reads l s ts →
    ts.length < n →
    wp (parseredirs l n cmd) (fun c s' => ∃ (rs : List Redir) (rest : List Tok),
      ts = redirToks rs ++ rest ∧ Reads l s' rest ∧ c = rs.foldl Redir.wrap cmd) (· ≠ .fuel) s := by
  intro n
  induction n with
  | zero =>
    intro s ts cmd _ hlen
    exact absurd hlen (Nat.not_lt_zero _)
  | succ n ih =>
    intro s ts cmd hs hlen
    rw [parseredirs, wp_bind]
    refine wp_peekM h0 hs (by decide) fun s1 h1 => ?_
    refine wp_ite (fun hnext => ?_) fun _ => wp_pure.2 ⟨[], ts, rfl, h1, rfl⟩
    cases ts with
    | nil => cases hnext
    | cons t ts =>
      obtain ⟨op, rfl⟩ := nextIn_redir hnext
      refine wp_bind.2 (wp_gettokenM h0 h1 fun g s2 hg _ h2 => wp_bind.2 ?_)
      cases ts with
      | nil =>
        refine wp_gettokenM_nil h2 fun f s3 hf _ => wp_ite (fun _ => ?_) fun hword => ?_
        · exact wp_throw.2 (fun h => by cases h)
        · rw [hf] at hword
          exact absurd (by decide) hword
      | cons t' ts =>
        refine wp_gettokenM h0 h2 fun f s3 hf hq h3 => wp_ite (fun _ => ?_) fun hword => ?_
        · exact wp_throw.2 (fun h => by cases h)
        · rw [hf, not_not] at hword
          obtain ⟨q, eq, rfl⟩ := code_eq_word hword
          obtain ⟨rfl, rfl⟩ := hq q eq rfl
          rw [hg, redircmd_wrap]
          rw [length_cons, length_cons] at hlen
          refine (ih s3 ts _ h3 (by omega)).mono ?_
          rintro c s' ⟨rs, rest, rfl, hrest, rfl⟩
          exact ⟨⟨op, f.q, f.eq⟩ :: rs, rest, rfl, hrest, rfl⟩

theorem wp_parseredirs_complete (h0 : 0 ∉ l) : ∀ (rs : List Redir) (n s : ℕ) (cmd : Cmd),
    Reads l s (redirToks rs ++ rest) → (redirToks rs ++ rest).length < n →
    nextIn (bytes ['<', '>']) rest = false →
    wp (parseredirs l n cmd) (fun c s' => c = rs.foldl Redir.wrap cmd ∧ Reads l s' rest) E s := by
  intro rs
  induction rs with
  | nil =>
    intro n s cmd hs hlen hrest
    obtain ⟨n, rfl⟩ : ∃ m, n = m + 1 := exists_eq_add_one.2 (by omega)
    rw [parseredirs, wp_bind]
    refine wp_peekM h0 hs (by decide) fun s1 h1 => wp_ite (fun hnext => ?_) fun _ => wp_pure.2 ⟨rfl,
      h1⟩
    rw [show redirToks [] ++ rest = rest from rfl, hrest] at hnext
    cases hnext
  | cons r rs ih =>
    intro n s cmd hs hlen hrest
    obtain ⟨n, rfl⟩ : ∃ m, n = m + 1 := exists_eq_add_one.2 (by omega)
    have htoks : redirToks (r :: rs) ++ rest = r.op.tok :: .word r.q r.eq ::
      (redirToks rs ++ rest) := rfl
    rw [htoks] at hs hlen
    rw [length_cons, length_cons] at hlen
    rw [parseredirs, wp_bind]
    refine wp_peekM h0 hs (by decide) fun s1 h1 => ?_
    rw [nextIn_redir_tok]
    refine wp_bind.2 (wp_gettokenM h0 h1 fun g s2 hg _ h2 => wp_bind.2 ?_)
    refine wp_gettokenM h0 h2 fun f s3 hf hq h3 => ?_
    obtain ⟨hfq, hfe⟩ := hq r.q r.eq rfl
    rw [if_neg (by rw [hf]; exact not_not.2 rfl), hg, hfq, hfe, redircmd_wrap]
    exact ih n s3 _ h3 (by omega) hrest

/-! ### Simple commands -/

theorem addArg_foldl (rs : List Redir) : ∀ (argv : List (ℕ × ℕ)) (q eq : ℕ),
    (rs.foldl Redir.wrap (.exec argv)).addArg q eq =
    rs.foldl Redir.wrap (.exec (argv ++ [(q, eq)])) := by
  induction rs using List.reverseRecOn with
  | nil =>
    intro argv q eq
    rfl
  | append_singleton rs r ih =>
    intro argv q eq
    rw [foldl_append, foldl_append, ← ih argv q eq]
    rcases r with ⟨_ | _ | _, _, _⟩ <;> rfl

/-- Where a simple command ends. -/
def EndsExec (rest : List Tok) : Prop := rest = [] ∨ nextIn (bytes ['|', ')', '&', ';']) rest = true

/-- **The loop of `parseexec`** reads words with their redirections. -/
theorem wp_argsLoop (h0 : 0 ∉ l) :
    ∀ (n s : ℕ) (ts : List Tok) (argv : List (ℕ × ℕ)) (rs : List Redir),
    Reads l s ts → ts.length + 1 < n → argv.length ≤ maxArgs - 1 →
    wp (argsLoop l n argv.length (rs.foldl Redir.wrap (.exec argv))) (fun c s' =>
      ∃ (gs : List Group) (rest : List Tok), ts = gs.flatMap Group.toks ++ rest ∧ Reads l s' rest ∧
        argv.length + gs.length ≤ maxArgs - 1 ∧
      c = (rs ++ gs.flatMap Group.redirs).foldl Redir.wrap
        (.exec (argv ++ gs.map fun g => (g.q, g.eq)))) (· ≠ .fuel) s := by
  intro n
  induction n with
  | zero =>
    intro s ts argv rs _ hlen
    exact absurd hlen (Nat.not_lt_zero _)
  | succ n ih =>
    intro s ts argv rs hs hlen hargc
    have hend : ∀ {s1 : ℕ}, Reads l s1 ts → ∃ (gs : List Group) (rest : List Tok),
        ts = gs.flatMap Group.toks ++ rest ∧ Reads l s1 rest ∧
        argv.length + gs.length ≤ maxArgs - 1 ∧ rs.foldl Redir.wrap (.exec argv) =
          (rs ++ gs.flatMap Group.redirs).foldl Redir.wrap
            (.exec (argv ++ gs.map fun g => (g.q, g.eq))) := by
      intro s1 h1
      refine ⟨[], ts, rfl, h1, hargc, ?_⟩
      rw [flatMap_nil, append_nil, map_nil, append_nil]
    rw [argsLoop, wp_bind]
    refine wp_peekM h0 hs (by decide) fun s1 h1 => wp_ite (fun _ => wp_pure.2 (hend h1)) fun _ =>
      wp_bind.2 ?_
    cases ts with
    | nil =>
      refine wp_gettokenM_nil h1 fun g s2 hg h2 => ?_
      rw [if_pos hg]
      exact wp_pure.2 (hend h2)
    | cons t ts =>
      refine wp_gettokenM h0 h1 fun g s2 hg hq h2 => ?_
      rw [if_neg (by rw [hg]; exact code_ne_zero t)]
      refine wp_ite (fun _ => wp_throw.2 (fun h => by cases h)) fun hword => ?_
      refine wp_ite (fun _ => wp_throw.2 (fun h => by cases h)) fun hmax => wp_bind.2 ?_
      rw [hg, not_not] at hword
      obtain ⟨q, eq, rfl⟩ := code_eq_word hword
      obtain ⟨hgq, hge⟩ := hq q eq rfl
      rw [hgq, hge, addArg_foldl]
      rw [length_cons] at hlen
      refine (wp_parseredirs h0 n s2 ts _ h2 (by omega)).mono ?_
      rintro c3 s3 ⟨rs', rest, rfl, h3, rfl⟩
      rw [← foldl_append, show argv.length + 1 = (argv ++ [(q, eq)]).length by simp]
      rw [length_append] at hlen
      refine (ih s3 rest _ _ h3 (by omega) ?_).mono ?_
      · rw [length_append, length_singleton]
        omega
      rintro c s' ⟨gs, rest', rfl, h', hcount, rfl⟩
      refine ⟨⟨q, eq, rs'⟩ :: gs, rest', ?_, h', ?_, ?_⟩
      · rw [flatMap_cons, Group.toks, cons_append, cons_append, append_assoc]
      · rw [length_append, length_singleton] at hcount
        rw [length_cons]
        omega
      · rw [append_assoc, append_assoc]
        rfl

theorem wp_argsLoop_complete (h0 : 0 ∉ l) (hrest : EndsExec rest) : ∀ (gs : List Group) (n s : ℕ)
    (argv : List (ℕ × ℕ)) (rs : List Redir), Reads l s (gs.flatMap Group.toks ++ rest) →
    (gs.flatMap Group.toks ++ rest).length + 1 < n → argv.length + gs.length ≤ maxArgs - 1 →
    wp (argsLoop l n argv.length (rs.foldl Redir.wrap (.exec argv))) (fun c s' =>
      c = (rs ++ gs.flatMap Group.redirs).foldl Redir.wrap
        (.exec (argv ++ gs.map fun g => (g.q, g.eq))) ∧ Reads l s' rest) E s := by
  intro gs
  induction gs with
  | nil =>
    intro n s argv rs hs hlen _
    obtain ⟨n, rfl⟩ : ∃ m, n = m + 1 := exists_eq_add_one.2 (by omega)
    rw [flatMap_nil, nil_append] at hs
    rw [flatMap_nil, append_nil, map_nil, append_nil, argsLoop, wp_bind]
    refine wp_peekM h0 hs (by decide) fun s1 h1 => ?_
    rcases hrest with rfl | hnext
    · refine wp_ite (fun _ => wp_pure.2 ⟨rfl, h1⟩) fun _ => wp_bind.2 ?_
      refine wp_gettokenM_nil h1 fun g s2 hg h2 => ?_
      rw [if_pos hg]
      exact wp_pure.2 ⟨rfl, h2⟩
    · rw [hnext]
      exact wp_pure.2 ⟨rfl, h1⟩
  | cons g gs ih =>
    intro n s argv rs hs hlen hargc
    obtain ⟨n, rfl⟩ : ∃ m, n = m + 1 := exists_eq_add_one.2 (by omega)
    have htoks : (g :: gs).flatMap Group.toks ++ rest =
        .word g.q g.eq :: (redirToks g.redirs ++ (gs.flatMap Group.toks ++ rest)) := by
      rw [flatMap_cons, Group.toks, cons_append, cons_append, append_assoc]
    have hstop : nextIn (bytes ['<', '>']) (gs.flatMap Group.toks ++ rest) = false := by
      cases gs with
      | nil => exact not_nextIn (by decide) hrest
      | cons g' gs => rfl
    rw [htoks] at hs hlen
    rw [length_cons] at hlen hargc
    rw [argsLoop, wp_bind]
    refine wp_peekM h0 hs (by decide) fun s1 h1 => ?_
    refine wp_bind.2 (wp_gettokenM h0 h1 fun t s2 ht hq h2 => ?_)
    obtain ⟨htq, hte⟩ := hq g.q g.eq rfl
    rw [if_neg (by rw [ht]; exact code_ne_zero _), if_neg (by rw [ht]; exact not_not.2 rfl),
      if_neg (by omega), htq, hte, addArg_foldl, wp_bind]
    refine (wp_parseredirs_complete h0 g.redirs n s2 _ h2 (by omega) hstop).mono ?_
    rintro c3 s3 ⟨rfl, h3⟩
    rw [← foldl_append, show argv.length + 1 = (argv ++ [(g.q, g.eq)]).length by simp]
    rw [length_append] at hlen
    refine (ih n s3 _ _ h3 (by omega) ?_).mono ?_
    · rw [length_append, length_singleton]
      omega
    rintro c s' ⟨rfl, h'⟩
    refine ⟨?_, h'⟩
    rw [append_assoc, append_assoc]
    rfl

/-! ### Soundness -/

/-- A part of the tokens was read, and `c` is its tree. -/
def Parsed (l : List UInt8) (D : List Tok → Cmd → Prop) (ts : List Tok) (c : Cmd) (s : ℕ) : Prop :=
  ∃ ts' rest, ts = ts' ++ rest ∧ D ts' c ∧ Reads l s rest

theorem wp_backLoop (h0 : 0 ∉ l) : ∀ (n s : ℕ) (ts : List Tok) (cmd : Cmd), Reads l s ts →
    ts.length < n →
    wp (backLoop l n cmd) (fun c s' => ∃ (k : ℕ) (rest : List Tok),
      ts = replicate k .amp ++ rest ∧ c = Cmd.back^[k] cmd ∧ Reads l s' rest) (· ≠ .fuel) s := by
  intro n
  induction n with
  | zero =>
    intro s ts cmd _ hlen
    exact absurd hlen (Nat.not_lt_zero _)
  | succ n ih =>
    intro s ts cmd hs hlen
    rw [backLoop, wp_bind]
    refine wp_peekM h0 hs (by decide) fun s1 h1 => ?_
    refine wp_ite (fun hnext => wp_bind.2 ?_) fun _ => wp_pure.2 ⟨0, ts, rfl, rfl, h1⟩
    obtain ⟨ts, rfl⟩ : ∃ ts', ts = .amp :: ts' := by
      cases ts with
      | nil => cases hnext
      | cons t ts => cases t <;> first | exact ⟨ts, rfl⟩ | exact absurd hnext Bool.false_ne_true
    refine wp_gettokenM h0 h1 fun _ s2 _ _ h2 => ?_
    rw [length_cons] at hlen
    refine (ih s2 ts _ h2 (by omega)).mono ?_
    rintro c s' ⟨k, rest, rfl, rfl, h'⟩
    exact ⟨k + 1, rest, rfl, rfl, h'⟩

theorem exists_of_nextIn {c : Char} (huniq : ∀ t', t' ≠ t → nextIn (bytes [c]) [t'] = false)
    (h : nextIn (bytes [c]) ts = true) : ∃ ts', ts = t :: ts' := by
  cases ts with
  | nil => cases h
  | cons t' ts =>
    by_cases heq : t' = t
    · exact ⟨ts, by rw [heq]⟩
    · have hno := huniq t' heq
      rw [show nextIn (bytes [c]) [t'] = nextIn (bytes [c]) (t' :: ts) from rfl, h] at hno
      cases hno

/-- **Soundness**: what the parser returns is derived from the tokens that it has read, and it does
not run out of fuel. -/
theorem wp_parse (h0 : 0 ∉ l) : ∀ (n : ℕ) {s : ℕ} {ts : List Tok}, Reads l s ts →
    (4 * ts.length + 5 ≤ n → wp (parseline l n) (Parsed l Line ts) (· ≠ .fuel) s) ∧
    (4 * ts.length + 4 ≤ n → wp (parsepipe l n) (Parsed l Pipe ts) (· ≠ .fuel) s) ∧
    (4 * ts.length + 3 ≤ n → wp (parseexec l n) (Parsed l Exec ts) (· ≠ .fuel) s) ∧
    (4 * ts.length + 2 ≤ n → wp (parseblock l n) (Parsed l Exec ts) (· ≠ .fuel) s) := by
  intro n
  induction n with
  | zero =>
    intro s ts _
    exact ⟨fun h => by omega, fun h => by omega, fun h => by omega, fun h => by omega⟩
  | succ n ih =>
    intro s ts hs
    refine ⟨fun hn => ?_, fun hn => ?_, fun hn => ?_, fun hn => ?_⟩
    · rw [parseline, wp_bind]
      refine ((ih hs).2.1 (by omega)).mono ?_
      rintro c1 s1 ⟨ts1, rest1, rfl, hc1, h1⟩
      rw [length_append] at hn
      refine wp_bind.2 ((wp_backLoop h0 n s1 rest1 c1 h1 (by omega)).mono ?_)
      rintro c2 s2 ⟨k, rest2, rfl, rfl, h2⟩
      rw [length_append, length_replicate] at hn
      refine wp_bind.2 (wp_peekM h0 h2 (by decide) fun s3 h3 => ?_)
      refine wp_ite (fun hnext => wp_bind.2 ?_) fun _ => wp_pure.2 ?_
      · obtain ⟨rest3, rfl⟩ : ∃ ts', rest2 = .semi :: ts' :=
          exists_of_nextIn (fun t ht => by cases t <;> first | rfl | exact absurd rfl ht) hnext
        refine wp_gettokenM h0 h3 fun _ s4 _ _ h4 => wp_bind.2 ?_
        rw [length_cons] at hn
        refine ((ih h4).1 (by omega)).mono ?_
        rintro c5 s5 ⟨ts5, rest5, rfl, hc5, h5⟩
        refine wp_pure.2 ⟨ts1 ++ replicate k .amp ++ .semi :: ts5, rest5, ?_, .cons k hc1 hc5, h5⟩
        rw [append_assoc, append_assoc, cons_append]
      · exact ⟨ts1 ++ replicate k .amp, rest2, (append_assoc ..).symm, .last k hc1, h3⟩
    · rw [parsepipe, wp_bind]
      refine ((ih hs).2.2.1 (by omega)).mono ?_
      rintro c1 s1 ⟨ts1, rest1, rfl, hc1, h1⟩
      rw [length_append] at hn
      refine wp_bind.2 (wp_peekM h0 h1 (by decide) fun s2 h2 => ?_)
      refine wp_ite (fun hnext => wp_bind.2 ?_) fun _ => wp_pure.2 ⟨ts1, rest1, rfl, .last hc1, h2⟩
      obtain ⟨rest2, rfl⟩ : ∃ ts', rest1 = .bar :: ts' :=
        exists_of_nextIn (fun t ht => by cases t <;> first | rfl | exact absurd rfl ht) hnext
      refine wp_gettokenM h0 h2 fun _ s3 _ _ h3 => wp_bind.2 ?_
      rw [length_cons] at hn
      refine ((ih h3).2.1 (by omega)).mono ?_
      rintro c4 s4 ⟨ts4, rest4, rfl, hc4, h4⟩
      refine wp_pure.2 ⟨ts1 ++ .bar :: ts4, rest4, ?_, .cons hc1 hc4, h4⟩
      rw [append_assoc, cons_append]
    · rw [parseexec, wp_bind]
      refine wp_peekM h0 hs (by decide) fun s1 h1 => ?_
      refine wp_ite (fun _ => (ih h1).2.2.2 (by omega)) fun _ => wp_bind.2 ?_
      refine (wp_parseredirs h0 n s1 ts (.exec []) h1 (by omega)).mono ?_
      rintro c2 s2 ⟨rs, rest2, rfl, h2, rfl⟩
      rw [length_append] at hn
      refine (wp_argsLoop h0 n s2 rest2 [] rs h2 (by omega) (Nat.zero_le _)).mono ?_
      rintro c3 s3 ⟨gs, rest3, rfl, h3, hcount, rfl⟩
      rw [length_nil, Nat.zero_add] at hcount
      exact ⟨redirToks rs ++ gs.flatMap Group.toks, rest3, (append_assoc ..).symm,
        .simple rs gs hcount, h3⟩
    · rw [parseblock, wp_bind]
      refine wp_peekM h0 hs (by decide) fun s1 h1 => ?_
      refine wp_ite (fun hnext => wp_bind.2 ?_) fun _ => wp_throw.2 (fun h => by cases h)
      obtain ⟨ts1, rfl⟩ : ∃ ts', ts = .lpar :: ts' :=
        exists_of_nextIn (fun t ht => by cases t <;> first | rfl | exact absurd rfl ht) hnext
      refine wp_gettokenM h0 h1 fun _ s2 _ _ h2 => wp_bind.2 ?_
      rw [length_cons] at hn
      refine ((ih h2).1 (by omega)).mono ?_
      rintro c3 s3 ⟨ts3, rest3, rfl, hc3, h3⟩
      rw [length_append] at hn
      refine wp_bind.2 (wp_peekM h0 h3 (by decide) fun s4 h4 => ?_)
      refine wp_ite (fun hnext => wp_bind.2 ?_) fun _ => wp_throw.2 (fun h => by cases h)
      obtain ⟨rest4, rfl⟩ : ∃ ts', rest3 = .rpar :: ts' :=
        exists_of_nextIn (fun t ht => by cases t <;> first | rfl | exact absurd rfl ht) hnext
      refine wp_gettokenM h0 h4 fun _ s5 _ _ h5 => ?_
      rw [length_cons] at hn
      refine (wp_parseredirs h0 n s5 rest4 c3 h5 (by omega)).mono ?_
      rintro c6 s6 ⟨rs, rest6, rfl, h6, rfl⟩
      refine ⟨.lpar :: ts3 ++ .rpar :: redirToks rs, rest6, ?_, .block rs hc3, h6⟩
      simp only [cons_append, append_assoc]

/-! ### Completeness -/

/-- Where a pipe ends. -/
def EndsPipe (rest : List Tok) : Prop := rest = [] ∨ nextIn (bytes [')', '&', ';']) rest = true

/-- Where a line ends. -/
def EndsLine (rest : List Tok) : Prop := rest = [] ∨ nextIn (bytes [')']) rest = true

theorem EndsPipe.exec (h : EndsPipe rest) : EndsExec rest := h.imp_right (nextIn_mono (by decide))

theorem EndsLine.pipe (h : EndsLine rest) : EndsPipe rest := h.imp_right (nextIn_mono (by decide))

theorem EndsExec.no_redir (h : EndsExec rest) : nextIn (bytes ['<', '>']) rest = false :=
  not_nextIn (by decide) h

theorem EndsExec.no_lpar (h : EndsExec rest) : nextIn (bytes ['(']) rest = false :=
  not_nextIn (by decide) h

theorem EndsPipe.no_bar (h : EndsPipe rest) : nextIn (bytes ['|']) rest = false :=
  not_nextIn (by decide) h

theorem EndsLine.no_amp (h : EndsLine rest) : nextIn (bytes ['&']) rest = false :=
  not_nextIn (by decide) h

theorem EndsLine.no_semi (h : EndsLine rest) : nextIn (bytes [';']) rest = false :=
  not_nextIn (by decide) h

theorem endsPipe_replicate (k : ℕ) (h : EndsPipe rest) : EndsPipe (replicate k .amp ++ rest) := by
  cases k with
  | zero => exact h
  | succ k => exact .inr rfl

theorem wp_backLoop_complete (h0 : 0 ∉ l) (hrest : nextIn (bytes ['&']) rest = false) :
    ∀ (k n s : ℕ) (cmd : Cmd), Reads l s (replicate k .amp ++ rest) →
    (replicate k Tok.amp ++ rest).length < n →
    wp (backLoop l n cmd) (fun c s' => c = Cmd.back^[k] cmd ∧ Reads l s' rest) E s := by
  intro k
  induction k with
  | zero =>
    intro n s cmd hs hlen
    obtain ⟨n, rfl⟩ : ∃ m, n = m + 1 := exists_eq_add_one.2 (by omega)
    rw [backLoop, wp_bind]
    refine wp_peekM h0 hs (by decide) fun s1 h1 => wp_ite (fun hnext => ?_) fun _ => wp_pure.2 ⟨rfl,
      h1⟩
    rw [show replicate 0 Tok.amp ++ rest = rest from rfl, hrest] at hnext
    cases hnext
  | succ k ih =>
    intro n s cmd hs hlen
    obtain ⟨n, rfl⟩ : ∃ m, n = m + 1 := exists_eq_add_one.2 (by omega)
    rw [replicate_succ, cons_append] at hs hlen
    rw [length_cons] at hlen
    rw [backLoop, wp_bind]
    refine wp_peekM h0 hs (by decide) fun s1 h1 => ?_
    refine wp_bind.2 (wp_gettokenM h0 h1 fun _ s2 _ _ h2 => ?_)
    exact ih n s2 (.back cmd) h2 (by omega)

theorem no_lpar_simple (rs : List Redir) (gs : List Group) (h : EndsExec rest) :
    nextIn (bytes ['(']) (redirToks rs ++ (gs.flatMap Group.toks ++ rest)) = false := by
  cases rs with
  | nil =>
    cases gs with
    | nil => exact h.no_lpar
    | cons g gs => rfl
  | cons r rs =>
    rcases r with ⟨_ | _ | _, _, _⟩ <;> rfl

theorem no_redir_groups (gs : List Group) (h : EndsExec rest) :
    nextIn (bytes ['<', '>']) (gs.flatMap Group.toks ++ rest) = false := by
  cases gs with
  | nil => exact h.no_redir
  | cons g gs => rfl

/-- **Completeness**: the parser finds a derivation that ends where it can end. -/
theorem wp_complete (h0 : 0 ∉ l) : ∀ (n : ℕ) {s : ℕ} {ts rest : List Tok} {c : Cmd},
    Reads l s (ts ++ rest) →
    (Line ts c → EndsLine rest → 4 * (ts ++ rest).length + 5 ≤ n →
      wp (parseline l n) (fun c' s' => c' = c ∧ Reads l s' rest) E s) ∧
    (Pipe ts c → EndsPipe rest → 4 * (ts ++ rest).length + 4 ≤ n →
      wp (parsepipe l n) (fun c' s' => c' = c ∧ Reads l s' rest) E s) ∧
    (Exec ts c → EndsExec rest → 4 * (ts ++ rest).length + 3 ≤ n →
      wp (parseexec l n) (fun c' s' => c' = c ∧ Reads l s' rest) E s) := by
  intro n
  induction n using Nat.strong_induction_on with
  | _ n ih =>
    intro s ts rest c hs
    refine ⟨fun hd hend hn => ?_, fun hd hend hn => ?_, fun hd hend hn => ?_⟩
    · obtain ⟨n, rfl⟩ : ∃ m, n = m + 1 := exists_eq_add_one.2 (by omega)
      rw [parseline, wp_bind]
      cases hd with
      | @last ts1 c1 k hpipe =>
        rw [append_assoc] at hs hn
        refine ((ih n (lt_succ_self n) hs).2.1 hpipe (endsPipe_replicate k hend.pipe)
          (by omega)).mono ?_
        rintro _ s1 ⟨rfl, h1⟩
        rw [length_append] at hn
        refine wp_bind.2 ((wp_backLoop_complete h0 hend.no_amp k n s1 _ h1 (by omega)).mono ?_)
        rintro _ s2 ⟨rfl, h2⟩
        refine wp_bind.2 (wp_peekM h0 h2 (by decide) fun s3 h3 => ?_)
        rw [hend.no_semi]
        exact wp_pure.2 ⟨rfl, h3⟩
      | @cons ts1 ts2 c1 c2 k hpipe hline =>
        have hassoc : ts1 ++ replicate k Tok.amp ++ .semi :: ts2 ++ rest =
            ts1 ++ (replicate k Tok.amp ++ .semi :: (ts2 ++ rest)) := by
          simp only [append_assoc, cons_append]
        rw [hassoc] at hs hn
        have hsemi : EndsPipe (.semi :: (ts2 ++ rest)) := .inr rfl
        refine ((ih n (lt_succ_self n) hs).2.1 hpipe (endsPipe_replicate k hsemi)
          (by omega)).mono ?_
        rintro _ s1 ⟨rfl, h1⟩
        rw [length_append] at hn
        refine wp_bind.2 ((wp_backLoop_complete h0 rfl k n s1 _ h1 (by omega)).mono ?_)
        rintro _ s2 ⟨rfl, h2⟩
        refine wp_bind.2 (wp_peekM h0 h2 (by decide) fun s3 h3 => ?_)
        refine wp_bind.2 (wp_gettokenM h0 h3 fun _ s4 _ _ h4 => wp_bind.2 ?_)
        rw [length_append, length_cons] at hn
        refine ((ih n (lt_succ_self n) h4).1 hline hend (by omega)).mono ?_
        rintro _ s5 ⟨rfl, h5⟩
        exact wp_pure.2 ⟨rfl, h5⟩
    · obtain ⟨n, rfl⟩ : ∃ m, n = m + 1 := exists_eq_add_one.2 (by omega)
      rw [parsepipe, wp_bind]
      cases hd with
      | last hexec =>
        refine ((ih n (lt_succ_self n) hs).2.2 hexec hend.exec (by omega)).mono ?_
        rintro _ s1 ⟨rfl, h1⟩
        refine wp_bind.2 (wp_peekM h0 h1 (by decide) fun s2 h2 => ?_)
        rw [hend.no_bar]
        exact wp_pure.2 ⟨rfl, h2⟩
      | @cons ts1 ts2 c1 c2 hexec hpipe =>
        rw [append_assoc, cons_append] at hs hn
        refine ((ih n (lt_succ_self n) hs).2.2 hexec (.inr rfl) (by omega)).mono ?_
        rintro _ s1 ⟨rfl, h1⟩
        refine wp_bind.2 (wp_peekM h0 h1 (by decide) fun s2 h2 => ?_)
        refine wp_bind.2 (wp_gettokenM h0 h2 fun _ s3 _ _ h3 => wp_bind.2 ?_)
        rw [length_append, length_cons] at hn
        refine ((ih n (lt_succ_self n) h3).2.1 hpipe hend (by omega)).mono ?_
        rintro _ s4 ⟨rfl, h4⟩
        exact wp_pure.2 ⟨rfl, h4⟩
    · obtain ⟨n, rfl⟩ : ∃ m, n = m + 1 := exists_eq_add_one.2 (by omega)
      rw [parseexec, wp_bind]
      cases hd with
      | @block ts1 c1 rs hline =>
        have hassoc : .lpar :: ts1 ++ .rpar :: redirToks rs ++ rest =
            .lpar :: (ts1 ++ .rpar :: (redirToks rs ++ rest)) := by
          simp only [append_assoc, cons_append]
        rw [hassoc] at hs hn
        rw [length_cons] at hn
        obtain ⟨n, rfl⟩ : ∃ m, n = m + 1 := exists_eq_add_one.2 (by omega)
        have hopen : ∀ ts, nextIn (bytes ['(']) (.lpar :: ts) = true := fun _ => rfl
        refine wp_peekM h0 hs (by decide) fun s1 h1 => ?_
        rw [hopen, if_pos rfl, parseblock, wp_bind]
        refine wp_peekM h0 h1 (by decide) fun s2 h2 => ?_
        refine wp_bind.2 (wp_gettokenM h0 h2 fun _ s3 _ _ h3 => wp_bind.2 ?_)
        refine ((ih n (by omega) h3).1 hline (.inr rfl) (by omega)).mono ?_
        rintro _ s4 ⟨rfl, h4⟩
        refine wp_bind.2 (wp_peekM h0 h4 (by decide) fun s5 h5 => ?_)
        refine wp_bind.2 (wp_gettokenM h0 h5 fun _ s6 _ _ h6 => ?_)
        rw [length_append, length_cons] at hn
        exact wp_parseredirs_complete h0 rs n s6 _ h6 (by omega) hend.no_redir
      | simple rs gs hcount =>
        rw [append_assoc] at hs hn
        refine wp_peekM h0 hs (by decide) fun s1 h1 => ?_
        rw [no_lpar_simple rs gs hend, if_neg Bool.false_ne_true, wp_bind]
        refine (wp_parseredirs_complete h0 rs n s1 _ h1 (by omega) (no_redir_groups gs hend)).mono
          ?_
        rintro _ s2 ⟨rfl, h2⟩
        rw [length_append] at hn
        refine (wp_argsLoop_complete h0 hend gs n s2 [] rs h2 (by omega) ?_).mono ?_
        · rw [length_nil, Nat.zero_add]
          exact hcount
        · rintro _ s3 ⟨rfl, h3⟩
          exact ⟨rfl, h3⟩

/-! ### The whole line -/

theorem wp_parseAll (h0 : 0 ∉ l) {n : ℕ} (hn : 4 * (tokens l).length + 5 ≤ n) :
    wp (parseAll l n) (fun c _ => Line (tokens l) c) (· ≠ .fuel) 0 := by
  have hstart : Reads l 0 (tokens l) := ⟨Nat.zero_le _, rfl⟩
  refine wp_bind.2 (((wp_parse h0 n hstart).1 hn).mono ?_)
  rintro c s1 ⟨ts, rest, hts, hc, h1⟩
  refine wp_bind.2 (wp_peekM h0 h1 rfl fun s2 h2 => ?_)
  refine wp_bind.2 (wp_get.2 (wp_ite (fun _ => wp_throw.2 fun h => by cases h) fun hend =>
    wp_pure.2 ?_))
  have hrest : rest = [] := by
    rw [← h2.tokens, not_not.1 hend, tokensAt, drop_length]
    rfl
  rw [hts, hrest, append_nil]
  exact hc

theorem wp_parseAll_complete (h0 : 0 ∉ l) {n : ℕ} {c : Cmd} (hn : 4 * (tokens l).length + 5 ≤ n)
    (hc : Line (tokens l) c) : wp (parseAll l n) (fun c' _ => c' = c) E 0 := by
  have hstart : Reads l 0 (tokens l ++ []) := ⟨Nat.zero_le _, (append_nil _).symm⟩
  refine wp_bind.2 (((wp_complete h0 n hstart).1 hc (.inl rfl) (by rwa [append_nil])).mono ?_)
  rintro _ s1 ⟨rfl, h1⟩
  refine wp_bind.2 (wp_bind.2 (wp_get.2 (wp_bind.2 (wp_set.2 (wp_pure.2 ?_)))))
  refine wp_bind.2 (wp_get.2 (wp_ite (fun hne => absurd ?_ hne) fun _ => wp_pure.2 rfl))
  exact skip_eq_length h1.le h1.tokens

/-- **`parsecmd` accepts exactly its grammar**: with fuel for every byte it ends, and it returns a
tree just when the tokens of the line derive it. -/
theorem parsecmd_iff (buf : List UInt8) (n : ℕ) (hn : 4 * (line buf).length + 5 ≤ n) :
    parsecmd n buf ≠ .error .fuel ∧
      ∀ c, (∃ b, parsecmd n buf = .ok (c, b)) ↔ Line (tokens (line buf)) c := by
  have h0 := zero_notMem_line buf
  have hlen : 4 * (tokens (line buf)).length + 5 ≤ n := by
    have := length_lex_le (line buf) 0
    rw [tokens]
    omega
  have hsound := wp_parseAll h0 hlen
  constructor
  · intro hfuel
    rw [parsecmd] at hfuel
    cases hrun : parseAll (line buf) n 0 with
    | ok r =>
      rw [hrun] at hfuel
      cases hfuel
    | error e =>
      rw [hrun] at hfuel
      exact hsound.of_error hrun (Except.error.inj hfuel)
  · intro c
    constructor
    · rintro ⟨b, hb⟩
      rw [parsecmd] at hb
      cases hrun : parseAll (line buf) n 0 with
      | ok r =>
        rw [hrun] at hb
        rw [← (Prod.mk.inj (Except.ok.inj hb)).1]
        exact hsound.of_ok hrun
      | error e =>
        rw [hrun] at hb
        cases hb
    · intro hc
      obtain ⟨_, s, hrun, rfl⟩ := (wp_parseAll_complete h0 hlen hc).exists_ok
      exact ⟨_, by rw [parsecmd, hrun]⟩

/-- The trees of `a >b&;(c|d)>>e`. -/
theorem parsecmd_iff_example :
    parsecmd 200 (bytes ['a', ' ', '>', 'b', '&', ';', '(', 'c', '|', 'd', ')', '>', '>', 'e']) ≠
      .error .fuel ∧
    ∀ c, (∃ b, parsecmd 200 (bytes ['a', ' ', '>', 'b', '&', ';', '(', 'c', '|', 'd', ')', '>', '>',
        'e']) = .ok (c, b)) ↔
      Line [.word 0 1, .gt, .word 3 4, .amp, .semi, .lpar, .word 7 8, .bar, .word 9 10, .rpar,
        .gtgt, .word 13 14] c :=
  parsecmd_iff (bytes ['a', ' ', '>', 'b', '&', ';', '(', 'c', '|', 'd', ')', '>', '>', 'e']) 200
    (by decide)

end Shell

end CsklubOs
