/-
**Runs of a system of atomic actions.**

A system is given by a step function: an action is either not possible in a state, or it takes the
state to another one, or it stops the system with an error.  Interleavings of several parties are
runs of one such system whose actions name the party that acts.

Main definitions:

* `Runs.Reach` — the states that runs reach;
* `Runs.Trace` — runs with the list of their actions;
* `Runs.exec` — performing a list of actions, which can be evaluated.

Main results:

* `Runs.Reach.invariant` — the rule for invariants;
* `Runs.Trace.simulation` — the rule for simulations, with the same actions on both sides;
* `Runs.exists_reach_of_exec` — a run from an evaluation.
-/

import Mathlib

set_option autoImplicit false

namespace Runs

variable {σ α ε : Type}

/-- The states reached from `s0` by actions that are possible, satisfy `ok` and do not stop the
system. -/
inductive Reach (step : σ → α → Option (Except ε σ)) (ok : σ → α → Prop) (s0 : σ) : σ → Prop
  | init : Reach step ok s0 s0
  | step {s s' : σ} {a : α} : Reach step ok s0 s → ok s a → step s a = some (.ok s') →
      Reach step ok s0 s'

variable {step : σ → α → Option (Except ε σ)} {ok : σ → α → Prop} {s0 s : σ}

/-- **The invariant rule**: what holds initially and is kept by every allowed action holds in every
state that is reached. -/
theorem Reach.invariant {I : σ → Prop} (h : Reach step ok s0 s) (h0 : I s0)
    (hstep : ∀ s a s', I s → ok s a → step s a = some (.ok s') → I s') : I s := by
  induction h with
  | init => exact h0
  | step _ hok hs ih => exact hstep _ _ _ ih hok hs

theorem Reach.mono {ok' : σ → α → Prop} (h : Reach step ok s0 s) (hok : ∀ s a, ok s a → ok' s a) :
    Reach step ok' s0 s := by
  induction h with
  | init => exact .init
  | step _ ha hs ih => exact .step ih (hok _ _ ha) hs

theorem Reach.trans {t : σ} (h : Reach step ok s0 s) (h' : Reach step ok s t) :
    Reach step ok s0 t := by
  induction h' with
  | init => exact h
  | step _ ha hs ih => exact .step ih ha hs

/-- The runs from `s`, each with the list of its actions. -/
inductive Trace (step : σ → α → Option (Except ε σ)) (ok : σ → α → Prop) : σ → List α → σ → Prop
  | nil {s : σ} : Trace step ok s [] s
  | cons {s s' t : σ} {a : α} {as : List α} : ok s a → step s a = some (.ok s') →
      Trace step ok s' as t → Trace step ok s (a :: as) t

theorem Trace.concat {as : List α} {a : α} {s' : σ} (h : Trace step ok s0 as s) (hok : ok s a)
    (hs : step s a = some (.ok s')) : Trace step ok s0 (as ++ [a]) s' := by
  induction h with
  | nil => exact .cons hok hs .nil
  | cons hok' hs' _ ih => exact .cons hok' hs' (ih hok hs)

theorem reach_iff : Reach step ok s0 s ↔ ∃ as, Trace step ok s0 as s := by
  refine ⟨fun h => ?_, ?_⟩
  · induction h with
    | init => exact ⟨[], .nil⟩
    | step _ hok hs ih =>
      obtain ⟨as, ih⟩ := ih
      exact ⟨_, ih.concat hok hs⟩
  · rintro ⟨as, h⟩
    induction h with
    | nil => exact .init
    | cons hok hs _ ih => exact (Reach.init.step hok hs).trans ih

/-- Performing a list of actions; `none` if one of them is not possible, is not allowed, or stops
the system. -/
def exec (step : σ → α → Option (Except ε σ)) (ok : σ → α → Prop) [∀ s a, Decidable (ok s a)] :
    σ → List α → Option σ
  | s, [] => some s
  | s, a :: as =>
    if ok s a then
      match step s a with
      | some (.ok s') => exec step ok s' as
      | _ => none
    else none

/-- **The simulation rule**: if a relation holds initially, and every allowed action leads to
related states and does not stop the system, then a run ends in a state that is related to the one
in which the same actions end in the other system. -/
theorem Trace.simulation {τ : Type} {step' : τ → α → Option (Except ε τ)} {R : σ → τ → Prop}
    {as : List α} {t0 : τ} (h : Trace step ok s0 as s) (h0 : R s0 t0)
    (hstep : ∀ s t a r, R s t → ok s a → step s a = some r →
      ∃ s' t', r = .ok s' ∧ step' t a = some (.ok t') ∧ R s' t') :
    ∃ t, exec step' (fun _ _ => True) t0 as = some t ∧ R s t ∧
      ∀ a r, ok s a → step s a = some r → ∃ s', r = .ok s' := by
  induction h generalizing t0 with
  | nil =>
    refine ⟨t0, rfl, h0, fun a r hok hs => ?_⟩
    obtain ⟨s', -, hr, -⟩ := hstep _ t0 a r h0 hok hs
    exact ⟨s', hr⟩
  | cons hok hs _ ih =>
    obtain ⟨s', t', heq, ht', hR⟩ := hstep _ t0 _ _ h0 hok hs
    cases heq
    obtain ⟨t, hexec, hrest⟩ := ih hR
    refine ⟨t, ?_, hrest⟩
    rw [exec, if_pos trivial, ht']
    exact hexec

theorem taken {c : Prop} [Decidable c] {x y : α} (h : (if c then some x else none) = some y) :
    c ∧ x = y :=
  (Option.ite_none_right_eq_some.1 h).imp_right Option.some.inj

theorem taken_ok {c : Prop} [Decidable c] {x y : σ}
    (h : (if c then some (.ok x) else none : Option (Except ε σ)) = some (.ok y)) : c ∧ x = y :=
  (taken h).imp_right Except.ok.inj

theorem reach_of_exec [∀ s a, Decidable (ok s a)] {as : List α} {t : σ} (h : Reach step ok s0 s)
    (hexec : exec step ok s as = some t) : Reach step ok s0 t := by
  induction as generalizing s with
  | nil =>
    rw [exec, Option.some_inj] at hexec
    exact hexec ▸ h
  | cons a as ih =>
    obtain ⟨hok, hexec⟩ := Option.ite_none_right_eq_some.1 hexec
    split at hexec
    · rename_i s' hs
      exact ih (h.step hok hs) hexec
    · cases hexec

theorem exists_reach_of_exec [∀ s a, Decidable (ok s a)] {Q : σ → Prop} [DecidablePred Q]
    (as : List α) (h : (exec step ok s0 as).any (fun s => decide (Q s)) = true) :
    ∃ s, Reach step ok s0 s ∧ Q s := by
  obtain ⟨hsome, hQ⟩ := (Option.any_eq_true_iff_get _ _).1 h
  exact ⟨_, reach_of_exec .init (Option.some_get hsome).symm, of_decide_eq_true hQ⟩

end Runs
