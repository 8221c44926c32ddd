/-
Runs of an event system.

A step function takes an event and a state to a new state, or fails. A run is a list of
events; `Along` says that a side condition holds of every event in the state where it
happens. The condition may depend on that state, because what is allowed of an environment
often does.

* `run_simulates`: the rule for runs. A relation to an abstract system that every step keeps
  holds at the end of every run, and the run does not fail;
* `run_keeps`: its special case for an invariant;
* `along_keeps`: an invariant that is kept under a condition holds at every event of the
  run, so that it may be used to show another condition there;
* `holds_throughout_iff`: where steps never fail and keep the invariant exactly when a
  condition is met, it holds in every state of a run exactly if the condition is met at
  every event.

Each is an induction on the list of events, done here once. A step lemma of a development
has the form that `run_keeps` asks for, with the invariant and the condition as hypotheses.
Runs of infinite length are not considered: what is shown is safety.
-/

import Mathlib.Tactic.TypeStar

namespace Lib.Events

variable {E σ τ ε : Type} (step : E → σ → Except ε σ)

def runAll : List E → σ → Except ε σ
  | [], s => .ok s
  | e :: es, s =>
      match step e s with
      | .error err => .error err
      | .ok s' => runAll es s'

/-- `cond` holds of every event of the run, in the state where it happens. -/
def Along (cond : E → σ → Prop) : List E → σ → Prop
  | [], _ => True
  | e :: es, s => cond e s ∧ ∀ s', step e s = .ok s' → Along cond es s'

variable {step} {cond : E → σ → Prop}

@[simp] theorem runAll_nil (s : σ) : runAll step [] s = .ok s := rfl

theorem runAll_cons {e : E} {es : List E} {s s' : σ} (h : step e s = .ok s') :
    runAll step (e :: es) s = runAll step es s' := by
  simp only [runAll, h]

theorem exists_of_runAll_cons {e : E} {es : List E} {s s' : σ}
    (h : runAll step (e :: es) s = .ok s') :
    ∃ s₁, step e s = .ok s₁ ∧ runAll step es s₁ = .ok s' := by
  rw [runAll] at h
  split at h
  · cases h
  · exact ⟨_, ‹_›, h⟩

theorem runAll_append {es es' : List E} {s s' : σ} (h : runAll step es s = .ok s') :
    runAll step (es ++ es') s = runAll step es' s' := by
  induction es generalizing s with
  | nil =>
      simp only [runAll, Except.ok.injEq] at h
      subst h
      rfl
  | cons e es ih =>
      simp only [List.cons_append, runAll] at h ⊢
      cases hstep : step e s with
      | error err => simp [hstep] at h
      | ok s₁ =>
          simp only [hstep] at h ⊢
          exact ih h

theorem along_append {es es' : List E} {s s' : σ} (h : Along step cond (es ++ es') s)
    (hrun : runAll step es s = .ok s') :
    Along step cond es s ∧ Along step cond es' s' := by
  induction es generalizing s with
  | nil =>
      simp only [runAll, Except.ok.injEq] at hrun
      subst hrun
      exact ⟨trivial, h⟩
  | cons e es ih =>
      simp only [runAll] at hrun
      cases hstep : step e s with
      | error err => simp [hstep] at hrun
      | ok s₁ =>
          simp only [hstep] at hrun
          obtain ⟨hes, hes'⟩ := ih (h.2 s₁ hstep) hrun
          refine ⟨⟨h.1, fun s₂ hs₂ => ?_⟩, hes'⟩
          rw [hstep] at hs₂
          cases hs₂
          exact hes

theorem Along.append {es es' : List E} {s s' : σ} (h : Along step cond es s)
    (hrun : runAll step es s = .ok s') (h' : Along step cond es' s') :
    Along step cond (es ++ es') s := by
  induction es generalizing s with
  | nil =>
      simp only [runAll, Except.ok.injEq] at hrun
      subst hrun
      exact h'
  | cons e es ih =>
      refine ⟨h.1, fun s₁ hs₁ => ih (h.2 s₁ hs₁) ?_⟩
      rwa [runAll_cons hs₁] at hrun

theorem Along.mono {cond' : E → σ → Prop} {es : List E} {s : σ}
    (h : Along step cond es s) (himp : ∀ e s, cond e s → cond' e s) :
    Along step cond' es s := by
  induction es generalizing s with
  | nil => trivial
  | cons e es ih => exact ⟨himp e s h.1, fun s' hs' => ih (h.2 s' hs')⟩

/-- A side condition that does not depend on the state. -/
theorem along_of_forall {es : List E} (h : ∀ e ∈ es, ∀ s, cond e s) (s : σ) :
    Along step cond es s := by
  induction es generalizing s with
  | nil => trivial
  | cons e es ih =>
      exact ⟨h e (by simp) s, fun s' _ => ih (fun e' he' => h e' (by simp [he'])) s'⟩

theorem Along.and {cond' : E → σ → Prop} {es : List E} {s : σ} (h : Along step cond es s)
    (h' : Along step cond' es s) : Along step (fun e s => cond e s ∧ cond' e s) es s := by
  induction es generalizing s with
  | nil => trivial
  | cons e es ih => exact ⟨⟨h.1, h'.1⟩, fun s' hs' => ih (h.2 s' hs') (h'.2 s' hs')⟩

theorem Along.cons {e : E} {es : List E} {s s' : σ} (he : cond e s)
    (hstep : step e s = .ok s') (h : Along step cond es s') : Along step cond (e :: es) s := by
  refine ⟨he, fun s₁ hs₁ => ?_⟩
  rw [hstep] at hs₁
  cases hs₁
  exact h

theorem Along.tail {e : E} {es : List E} {s s' : σ} (h : Along step cond (e :: es) s)
    (hstep : step e s = .ok s') : Along step cond es s' :=
  h.2 s' hstep

/-- An invariant that every step keeps, if it does not fail, holds at every event of
a run. -/
theorem along_keeps {I : σ → Prop}
    (hstep : ∀ e s s', I s → cond e s → step e s = .ok s' → I s')
    {es : List E} {s : σ} (hI : I s) (hes : Along step cond es s) :
    Along step (fun e s => I s ∧ cond e s) es s := by
  induction es generalizing s with
  | nil => trivial
  | cons e es ih =>
      exact ⟨⟨hI, hes.1⟩, fun s' hs' => ih (hstep e s s' hI hes.1 hs') (hes.2 s' hs')⟩

/-- **Simulation over a run.** When every step keeps the relation to an abstract
system, a run does not fail and ends related to the abstract run. -/
theorem run_simulates (astep : τ → E → τ) {R : σ → τ → Prop}
    (hstep : ∀ e s a, R s a → cond e s → ∃ s', step e s = .ok s' ∧ R s' (astep a e))
    {es : List E} {s : σ} {a : τ} (hR : R s a) (hes : Along step cond es s) :
    ∃ s', runAll step es s = .ok s' ∧ R s' (es.foldl astep a) := by
  induction es generalizing s a with
  | nil => exact ⟨s, rfl, hR⟩
  | cons e es ih =>
      obtain ⟨s₁, hs₁, hR₁⟩ := hstep e s a hR hes.1
      obtain ⟨s₂, hs₂, hR₂⟩ := ih hR₁ (hes.2 s₁ hs₁)
      exact ⟨s₂, by rw [runAll_cons hs₁]; exact hs₂, hR₂⟩

/-- An invariant that every step keeps holds at the end of every run. -/
theorem run_keeps {I : σ → Prop}
    (hstep : ∀ e s, I s → cond e s → ∃ s', step e s = .ok s' ∧ I s')
    {es : List E} {s : σ} (hI : I s) (hes : Along step cond es s) :
    ∃ s', runAll step es s = .ok s' ∧ I s' :=
  run_simulates (fun _ _ => ()) (R := fun s _ => I s) (a := ())
    (fun e s _ hI hc => hstep e s hI hc) hI hes

/-- Where no step fails and a step keeps the invariant exactly if the condition holds, the
invariant holds throughout a run if and only if the condition does. -/
theorem holds_throughout_iff {I : σ → Prop} (hok : ∀ e s, ∃ s', step e s = .ok s')
    (hstep : ∀ e s s', I s → step e s = .ok s' → (I s' ↔ cond e s)) {es : List E} {s : σ}
    (hI : I s) :
    (∀ es₁ es₂ s', es = es₁ ++ es₂ → runAll step es₁ s = .ok s' → I s') ↔
      Along step cond es s := by
  induction es generalizing s with
  | nil =>
      refine ⟨fun _ => trivial, fun _ es₁ es₂ s' hes hrun => ?_⟩
      obtain ⟨rfl, -⟩ := List.nil_eq_append_iff.mp hes
      rw [runAll_nil, Except.ok.injEq] at hrun
      exact hrun ▸ hI
  | cons e es ih =>
      obtain ⟨s₁, hs₁⟩ := hok e s
      constructor
      · intro h
        have hI₁ : I s₁ := h [e] es s₁ rfl (by rw [runAll_cons hs₁, runAll_nil])
        refine Along.cons ((hstep e s s₁ hI hs₁).mp hI₁) hs₁ ((ih hI₁).mp ?_)
        intro es₁ es₂ s' hes hrun
        exact h (e :: es₁) es₂ s' (by rw [hes, List.cons_append]) (by rw [runAll_cons hs₁, hrun])
      · intro h es₁ es₂ s' hes hrun
        have hI₁ : I s₁ := (hstep e s s₁ hI hs₁).mpr h.1
        cases es₁ with
        | nil =>
            rw [runAll_nil, Except.ok.injEq] at hrun
            exact hrun ▸ hI
        | cons e' es₁ =>
            rw [List.cons_append] at hes
            obtain ⟨rfl, hrest⟩ := List.cons.inj hes
            rw [runAll_cons hs₁] at hrun
            exact (ih hI₁).mpr (h.tail hs₁) es₁ es₂ s' hrest hrun

end Lib.Events
