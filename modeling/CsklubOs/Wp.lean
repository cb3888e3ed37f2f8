/-
**Weakest preconditions for stateful code that can stop with an error.**

Code is a `StateT σ (Except ε)` computation: it reads and writes a state and either returns or stops
with an error.  The computations are total functions, so `wp` is a statement of total correctness.

Main definitions:

* `wp` — `wp m Q E s` says that `m`, started in `s`, returns in `Q` or stops with an error in `E`;
* `zoom`, `embed` — code on a part of a state, and code with errors of another kind;
* `callStep` — a call as a step of a machine.

Main results:

* `wp_forM` — the rule for a loop over a list.
-/

import Mathlib

set_option autoImplicit false

namespace Wp

variable {σ τ ε α β : Type}

/-- `m`, started in `s`, returns with `Q` or stops with an error in `E`. -/
def wp (m : StateT σ (Except ε) α) (Q : α → σ → Prop) (E : ε → Prop) (s : σ) : Prop :=
  match m s with
  | .ok (a, s') => Q a s'
  | .error e => E e

variable {m : StateT σ (Except ε) α} {Q R : α → σ → Prop} {E F : ε → Prop} {s : σ}

theorem wp_of_ok {a : α} {s' : σ} (h : m s = .ok (a, s')) : wp m Q E s ↔ Q a s' := by
  simp only [wp, h]

theorem wp_of_error {e : ε} (h : m s = .error e) : wp m Q E s ↔ E e := by
  simp only [wp, h]

theorem wp.exists_ok (h : wp m Q (fun _ => False) s) : ∃ a s', m s = .ok (a, s') ∧ Q a s' := by
  cases hm : m s with
  | ok r => exact ⟨r.1, r.2, rfl, (wp_of_ok hm).1 h⟩
  | error e => exact ((wp_of_error hm).1 h).elim

theorem exists_ok_of_any {x : Except ε α} {f : α → Bool} (h : x.toOption.any f = true) :
    ∃ a, x = .ok a ∧ f a = true := by
  cases x with
  | ok a => exact ⟨a, rfl, h⟩
  | error e => cases h

theorem eq_ok_of_wp {a : α} {t : σ} (h : wp m (fun b s' => b = a ∧ s' = t) (fun _ => False) s) :
    m s = .ok (a, t) := by
  obtain ⟨b, s', hm, rfl, rfl⟩ := h.exists_ok
  exact hm

theorem eq_error_of_wp {e : ε} (h : wp m (fun _ _ => False) (fun e' => e' = e) s) :
    m s = .error e := by
  cases hm : m s with
  | ok r => exact ((wp_of_ok hm).1 h).elim
  | error e' => rw [(wp_of_error hm).1 h]

section

variable (h : wp m Q E s)

include h

theorem wp.of_ok {a : α} {s' : σ} (hm : m s = .ok (a, s')) : Q a s' :=
  (wp_of_ok hm).1 h

theorem wp.of_error {e : ε} (hm : m s = .error e) : E e :=
  (wp_of_error hm).1 h

theorem wp.and (h' : wp m R E s) : wp m (fun a s' => Q a s' ∧ R a s') E s := by
  cases hm : m s with
  | ok r => exact (wp_of_ok hm).2 ⟨h.of_ok hm, h'.of_ok hm⟩
  | error e => exact (wp_of_error hm).2 (h.of_error hm)

theorem wp_mono (hQ : ∀ a s', Q a s' → R a s') (hE : ∀ e, E e → F e) : wp m R F s := by
  unfold wp at h ⊢
  split at h
  · exact hQ _ _ h
  · exact hE _ h

theorem wp.mono (hQ : ∀ a s', Q a s' → R a s') : wp m R E s :=
  wp_mono h hQ fun _ he => he

theorem wp.exclude (h' : wp m R F s) (hEF : ∀ e, E e → F e → False) :
    wp m Q (fun _ => False) s := by
  cases hm : m s with
  | ok r => exact (wp_of_ok hm).2 (h.of_ok hm)
  | error e => exact (hEF e (h.of_error hm) (h'.of_error hm)).elim

end

theorem wp_true (m : StateT σ (Except ε) α) (hE : ∀ e, E e) (s : σ) :
    wp m (fun _ _ => True) E s := by
  rw [wp]
  split
  · trivial
  · exact hE _

theorem wp_pure {a : α} : wp (pure a) Q E s ↔ Q a s :=
  Iff.rfl

theorem wp_bind {f : α → StateT σ (Except ε) β} {Q : β → σ → Prop} :
    wp (m >>= f) Q E s ↔ wp m (fun a s' => wp (f a) Q E s') E s := by
  cases hm : m s with
  | ok r => simp only [wp, bind, StateT.bind, Except.bind, hm]
  | error e => simp only [wp, bind, StateT.bind, Except.bind, hm]

theorem wp_get {Q : σ → σ → Prop} : wp (get : StateT σ (Except ε) σ) Q E s ↔ Q s s :=
  Iff.rfl

theorem wp_set {t : σ} {Q : PUnit → σ → Prop} :
    wp (set t : StateT σ (Except ε) PUnit) Q E s ↔ Q ⟨⟩ t :=
  Iff.rfl

theorem wp_modify {f : σ → σ} {Q : PUnit → σ → Prop} :
    wp (modify f : StateT σ (Except ε) PUnit) Q E s ↔ Q ⟨⟩ (f s) :=
  Iff.rfl

theorem wp_throw {e : ε} : wp (throw e : StateT σ (Except ε) α) Q E s ↔ E e :=
  Iff.rfl

theorem wp_ite {c : Prop} [Decidable c] {m n : StateT σ (Except ε) α} (ht : c → wp m Q E s)
    (hf : ¬ c → wp n Q E s) : wp (if c then m else n) Q E s := by
  split
  · exact ht ‹_›
  · exact hf ‹_›

/-- Running code of a component on the state that contains it. -/
def zoom (view : τ → σ) (put : σ → τ → τ) (m : StateT σ (Except ε) α) : StateT τ (Except ε) α :=
  fun t =>
    match m (view t) with
    | .ok (a, s) => .ok (a, put s t)
    | .error e => .error e

theorem wp_zoom {view : τ → σ} {put : σ → τ → τ} {Q : α → τ → Prop} {t : τ} :
    wp (zoom view put m) Q E t ↔ wp m (fun a s => Q a (put s t)) E (view t) := by
  cases hm : m (view t) with
  | ok r => simp only [wp, zoom, hm]
  | error e => simp only [wp, zoom, hm]

/-- Running code of a component that has errors of its own. -/
def embed {ε' : Type} (wrap : ε → ε') (view : τ → σ) (put : σ → τ → τ) (m : StateT σ (Except ε) α) :
    StateT τ (Except ε') α :=
  fun t =>
    match m (view t) with
    | .ok (a, s) => .ok (a, put s t)
    | .error e => .error (wrap e)

theorem wp_embed {ε' : Type} {wrap : ε → ε'} {view : τ → σ} {put : σ → τ → τ} {Q : α → τ → Prop}
    {F : ε' → Prop} {t : τ} :
    wp (embed wrap view put m) Q F t ↔
      wp m (fun a s => Q a (put s t)) (fun e => F (wrap e)) (view t) := by
  cases hm : m (view t) with
  | ok r => simp only [wp, embed, hm]
  | error e => simp only [wp, embed, hm]

/-- A call as a step of a system: it is made when `c` holds, and `out` is the state that it
leaves. -/
def callStep (c : Prop) [Decidable c] (m : StateT σ (Except ε) α) (out : α → σ → τ) (s : σ) :
    Option (Except ε τ) :=
  if c then
    match m s with
    | .ok (a, s') => some (.ok (out a s'))
    | .error e => some (.error e)
  else none

theorem wp.callStep_ok {c : Prop} [Decidable c] {out : α → σ → τ} {t : τ} {P : τ → Prop}
    (hm : c → wp m (fun a s' => P (out a s')) E s) (h : callStep c m out s = some (.ok t)) :
    P t := by
  obtain ⟨hc, h⟩ := Option.ite_none_right_eq_some.1 h
  have hwp := hm hc
  cases hrun : m s with
  | ok r =>
    rw [hrun] at h
    cases h
    exact hwp.of_ok hrun
  | error e =>
    rw [hrun] at h
    cases h

theorem wp.callStep_error {c : Prop} [Decidable c] {out : α → σ → τ} {e : ε} (hm : c → wp m Q E s)
    (h : callStep c m out s = some (.error e)) : E e := by
  obtain ⟨hc, h⟩ := Option.ite_none_right_eq_some.1 h
  have hwp := hm hc
  cases hrun : m s with
  | ok r =>
    rw [hrun] at h
    cases h
  | error e =>
    rw [hrun] at h
    cases h
    exact hwp.of_error hrun

-- from here on code is taken apart by the rules only, never by unfolding
attribute [irreducible] wp

/-- **Loops over a list**: an invariant indexed by the elements still to come. -/
theorem wp_forM {f : β → StateT σ (Except ε) PUnit} {l : List β} {I : List β → σ → Prop}
    {Q : PUnit → σ → Prop} (h0 : I l s)
    (hstep : ∀ b l s, I (b :: l) s → wp (f b) (fun _ s' => I l s') E s)
    (hQ : ∀ s, I [] s → Q ⟨⟩ s) : wp (forM l f) Q E s := by
  induction l generalizing s with
  | nil => exact wp_pure.2 (hQ s h0)
  | cons b l ih =>
    rw [List.forM_cons, wp_bind]
    exact (hstep b l s h0).mono fun _ s' h' => ih h'

end Wp
