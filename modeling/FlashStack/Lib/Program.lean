/-
Programs as trees of atomic actions, run alone or interrupted.

A program either returns or performs one action and continues with its result. The meaning
of the actions is a parameter `exec`, which may fail. The same tree therefore has two
readings:

* `run exec p s` runs `p` as one atomic step, which performs the actions `performed exec p
  s`;
* `run (interrupted exec deliver) p (hs, s)` delivers one of the handlers `hs` before each
  action.

`ensures_bind` is the rule of composition for the first reading. For the second,
`Withstands` says that a program tolerates every schedule of handlers that meets a side
condition at each boundary; `withstands_act` asks for an assertion that the allowed handlers
keep, and `withstands_bind` composes.

Trees are finite, so every run ends; a loop of the program that is modelled is a recursion
with a bound, and a program that runs out of it says so in its result. A program is a monad
in its result, and the equations of `run` for it are stated as lemmas, so that a function
written with `do` is run line by line. A third reading, among the actions of other threads,
is the subject of `Lib.Interleaving`.
-/

import Mathlib.Tactic.TypeStar

namespace Lib.Program

/-- A program over the actions `Op`, where action `op` answers in `Res op`. What it does next may
depend on the answer, and every path ends. -/
inductive Prog (Op : Type) (Res : Op → Type) (α : Type) where
  | ret (a : α)
  | act (op : Op) (k : Res op → Prog Op Res α)

variable {Op : Type} {Res : Op → Type} {α β σ ε H : Type}

namespace Prog

def bind (p : Prog Op Res α) (f : α → Prog Op Res β) : Prog Op Res β :=
  match p with
  | .ret a => f a
  | .act op k => .act op fun r => (k r).bind f

/-- The program that performs one action and returns its answer. -/
def lift (op : Op) : Prog Op Res (Res op) := .act op .ret

instance : Monad (Prog Op Res) where
  pure := .ret
  bind := bind

@[simp] theorem pure_eq (a : α) : (pure a : Prog Op Res α) = .ret a := rfl

@[simp] theorem ret_bind (a : α) (f : α → Prog Op Res β) :
    ((.ret a : Prog Op Res α) >>= f) = f a := rfl

@[simp] theorem lift_bind (op : Op) (f : Res op → Prog Op Res β) :
    (lift op >>= f) = .act op f := rfl

@[simp] theorem act_bind (op : Op) (k : Res op → Prog Op Res α) (f : α → Prog Op Res β) :
    (.act op k >>= f) = .act op fun r => k r >>= f := rfl

end Prog

/-! ### Atomic runs -/

section Run

variable (exec : (op : Op) → σ → Except ε (Res op × σ))

def run : Prog Op Res α → σ → Except ε (α × σ)
  | .ret a, s => .ok (a, s)
  | .act op k, s =>
      match exec op s with
      | .error e => .error e
      | .ok (r, s') => run (k r) s'

/-- `p` runs from `s` without failing, and its answer and final state satisfy
`Q`. -/
def Ensures (p : Prog Op Res α) (s : σ) (Q : α → σ → Prop) : Prop :=
  ∃ a s', run exec p s = .ok (a, s') ∧ Q a s'

variable {exec}

theorem run_bind (p : Prog Op Res α) (f : α → Prog Op Res β) (s : σ) :
    run exec (p >>= f) s =
      match run exec p s with
      | .error e => .error e
      | .ok (a, s') => run exec (f a) s' := by
  induction p generalizing s with
  | ret a => rfl
  | act op k ih =>
      simp only [Prog.act_bind, run]
      cases exec op s with
      | error e => rfl
      | ok out => exact ih out.1 out.2

@[simp] theorem ensures_ret {a : α} {s : σ} {Q : α → σ → Prop} :
    Ensures exec (.ret a) s Q ↔ Q a s := by
  constructor
  · rintro ⟨a', s', hrun, hQ⟩
    simp only [run, Except.ok.injEq, Prod.mk.injEq] at hrun
    obtain ⟨rfl, rfl⟩ := hrun
    exact hQ
  · exact fun hQ => ⟨a, s, rfl, hQ⟩

theorem ensures_act {op : Op} {k : Res op → Prog Op Res α} {s s' : σ} {r : Res op}
    {Q : α → σ → Prop} (hop : exec op s = .ok (r, s')) :
    Ensures exec (.act op k) s Q ↔ Ensures exec (k r) s' Q := by
  simp only [Ensures, run, hop]

/-- A sequence ensures what its second part ensures from wherever the first part
ends. -/
theorem ensures_bind {p : Prog Op Res α} {f : α → Prog Op Res β} {s : σ} {Q : β → σ → Prop} :
    Ensures exec (p >>= f) s Q ↔ Ensures exec p s fun a s' => Ensures exec (f a) s' Q := by
  simp only [Ensures, run_bind]
  cases run exec p s with
  | error e => simp
  | ok out =>
      constructor
      · exact fun h => ⟨out.1, out.2, rfl, h⟩
      · rintro ⟨a, s', hout, h⟩
        cases hout
        exact h

theorem Ensures.mono {p : Prog Op Res α} {s : σ} {Q Q' : α → σ → Prop}
    (h : Ensures exec p s Q) (himp : ∀ a s', Q a s' → Q' a s') : Ensures exec p s Q' := by
  obtain ⟨a, s', hrun, hQ⟩ := h
  exact ⟨a, s', hrun, himp a s' hQ⟩

/-- An action that fails makes the program fail. -/
theorem run_act_error {op : Op} {k : Res op → Prog Op Res α} {s : σ} {e : ε}
    (hop : exec op s = .error e) : run exec (.act op k) s = .error e := by
  simp only [run, hop]

theorem run_act_ok {op : Op} {k : Res op → Prog Op Res α} {s s' : σ} {r : Res op}
    (hop : exec op s = .ok (r, s')) : run exec (.act op k) s = run exec (k r) s' := by
  simp only [run, hop]

theorem exists_of_run_act {op : Op} {k : Res op → Prog Op Res α} {s : σ} {out : α × σ}
    (h : run exec (.act op k) s = .ok out) :
    ∃ r s', exec op s = .ok (r, s') ∧ run exec (k r) s' = .ok out := by
  rw [run] at h
  split at h
  · cases h
  · exact ⟨_, _, ‹_›, h⟩

theorem exists_of_run_bind {p : Prog Op Res α} {f : α → Prog Op Res β} {s : σ} {out : β × σ}
    (h : run exec (p >>= f) s = .ok out) :
    ∃ a s', run exec p s = .ok (a, s') ∧ run exec (f a) s' = .ok out := by
  rw [run_bind] at h
  split at h
  · cases h
  · exact ⟨_, _, ‹_›, h⟩

/-- The actions that a run performs, in order, up to and with the one that fails. -/
def performed (exec : (op : Op) → σ → Except ε (Res op × σ)) : Prog Op Res α → σ → List Op
  | .ret _, _ => []
  | .act op k, s =>
      op :: match exec op s with
        | .error _ => []
        | .ok (r, s') => performed exec (k r) s'

theorem performed_act {op : Op} {k : Res op → Prog Op Res α} {s s' : σ} {r : Res op}
    (hop : exec op s = .ok (r, s')) :
    performed exec (.act op k) s = op :: performed exec (k r) s' := by
  simp only [performed, hop]

theorem performed_bind (p : Prog Op Res α) (f : α → Prog Op Res β) (s : σ) :
    performed exec (p >>= f) s = performed exec p s ++
      match run exec p s with
      | .error _ => []
      | .ok (a, s') => performed exec (f a) s' := by
  induction p generalizing s with
  | ret a => rfl
  | act op k ih =>
      simp only [Prog.act_bind, performed, run, List.cons_append]
      cases exec op s with
      | error e => rfl
      | ok out => exact congrArg (op :: ·) (ih out.1 out.2)

end Run

/-! ### Interrupted runs -/

section Interrupted

variable (exec : (op : Op) → σ → Except ε (Res op × σ)) (deliver : H → σ → Except ε σ)

/-- Deliver the next handler, if one is left, and then perform the action. A handler that fails
ends the run. -/
def interrupted (op : Op) : List H × σ → Except ε (Res op × (List H × σ))
  | ([], s) =>
      match exec op s with
      | .error e => .error e
      | .ok (r, s') => .ok (r, [], s')
  | (h :: hs, s) =>
      match deliver h s with
      | .error e => .error e
      | .ok s₁ =>
          match exec op s₁ with
          | .error e => .error e
          | .ok (r, s₂) => .ok (r, hs, s₂)

/-- Every boundary of the interrupted run is allowed: `allowed op h s` speaks of the
boundary just before action `op`, in state `s`, where handler `h` is delivered if there
is one. -/
def Meets (allowed : Op → Option H → σ → Prop) : Prog Op Res α → List H → σ → Prop
  | .ret _, _, _ => True
  | .act op k, [], s =>
      allowed op none s ∧ ∀ r s', exec op s = .ok (r, s') → Meets allowed (k r) [] s'
  | .act op k, h :: hs, s =>
      allowed op (some h) s ∧ ∀ s₁, deliver h s = .ok s₁ →
        ∀ r s₂, exec op s₁ = .ok (r, s₂) → Meets allowed (k r) hs s₂

/-- From a state satisfying `P`, under every schedule that meets `allowed`, `p`
runs without failing and ends in `Q`. -/
def Withstands (allowed : Op → Option H → σ → Prop) (P : σ → Prop) (p : Prog Op Res α)
    (Q : α → σ → Prop) : Prop :=
  ∀ hs s, P s → Meets exec deliver allowed p hs s →
    ∃ a hs' s', run (interrupted exec deliver) p (hs, s) = .ok (a, hs', s') ∧ Q a s'

variable {exec deliver} {allowed : Op → Option H → σ → Prop} {P P' : σ → Prop}

theorem withstands_ret {a : α} {Q : α → σ → Prop} (h : ∀ s, P s → Q a s) :
    Withstands exec deliver allowed P (.ret a) Q :=
  fun hs s hP _ => ⟨a, hs, s, rfl, h s hP⟩

theorem Withstands.pre {p : Prog Op Res α} {Q : α → σ → Prop}
    (h : Withstands exec deliver allowed P' p Q) (himp : ∀ s, P s → P' s) :
    Withstands exec deliver allowed P p Q :=
  fun hs s hP hmeets => h hs s (himp s hP) hmeets

/-- Where no handler is left, only the boundaries without one matter. -/
theorem meets_nil (h : ∀ op s, allowed op none s) (p : Prog Op Res α) (s : σ) :
    Meets exec deliver allowed p [] s := by
  induction p generalizing s with
  | ret a => trivial
  | act op k ih => exact ⟨h op s, fun r s' _ => ih r s'⟩

/-- A condition on the handlers alone holds at every boundary. -/
theorem meets_of_forall {ok : H → Prop} {hs : List H} (h : ∀ g ∈ hs, ok g)
    (p : Prog Op Res α) (s : σ) :
    Meets exec deliver (fun _ g _ => ∀ g' ∈ g, ok g') p hs s := by
  induction p generalizing hs s with
  | ret a => trivial
  | act op k ih =>
      cases hs with
      | nil => exact ⟨by simp, fun r s' _ => ih r h s'⟩
      | cons g hs =>
          obtain ⟨hg, hrest⟩ := List.forall_mem_cons.mp h
          refine ⟨?_, fun s₁ _ r s₂ _ => ih r hrest s₂⟩
          intro g' hg'
          obtain rfl := Option.mem_some_iff.mp hg'
          exact hg

/-- Where no handler is left, the run is the atomic one. -/
theorem run_interrupted_nil {p : Prog Op Res α} {s s' : σ} {a : α}
    (h : run exec p s = .ok (a, s')) :
    run (interrupted exec deliver) p ([], s) = .ok (a, [], s') := by
  induction p generalizing s with
  | ret b =>
      obtain ⟨rfl, rfl⟩ := Prod.mk.inj (Except.ok.inj h)
      rfl
  | act op k ih =>
      cases hop : exec op s with
      | error e => simp [run, hop] at h
      | ok out =>
          rw [run, hop] at h
          rw [run, interrupted, hop]
          exact ih out.1 h

/-- A handler delivered before an action that succeeds. -/
theorem run_interrupted_cons {op : Op} {k : Res op → Prog Op Res α} {s s₁ s₂ : σ} {r : Res op}
    {h : H} (hdel : deliver h s = .ok s₁) (hop : exec op s₁ = .ok (r, s₂)) (hs : List H) :
    run (interrupted exec deliver) (.act op k) (h :: hs, s) =
      run (interrupted exec deliver) (k r) (hs, s₂) := by
  rw [run, interrupted, hdel]
  simp only [hop]

/-- A fact that the assertion carries may be used as a hypothesis. -/
theorem withstands_of_fact {φ : Prop} {p : Prog Op Res α} {Q : α → σ → Prop}
    (h : φ → Withstands exec deliver allowed P p Q) :
    Withstands exec deliver allowed (fun s => φ ∧ P s) p Q :=
  fun hs s hP hmeets => h hP.1 hs s hP.2 hmeets

/-- One action: the allowed handlers keep the assertion, the action succeeds from it
at an allowed boundary, and the rest withstands what follows. -/
theorem withstands_act {op : Op} {k : Res op → Prog Op Res α} {R : Res op → σ → Prop}
    {Q : α → σ → Prop}
    (hkeep : ∀ h s, P s → allowed op (some h) s → ∃ s', deliver h s = .ok s' ∧ P s')
    (hexec : ∀ s h s₀, P s → allowed op h s₀ → ∃ r s', exec op s = .ok (r, s') ∧ R r s')
    (hrest : ∀ r, Withstands exec deliver allowed (R r) (k r) Q) :
    Withstands exec deliver allowed P (.act op k) Q := by
  intro hs s hP hmeets
  cases hs with
  | nil =>
      obtain ⟨r, s', hop, hR⟩ := hexec s none s hP hmeets.1
      obtain ⟨a, hs', s'', hrun, hQ⟩ := hrest r [] s' hR (hmeets.2 r s' hop)
      exact ⟨a, hs', s'', by rw [run, interrupted, hop]; exact hrun, hQ⟩
  | cons h hs =>
      obtain ⟨s₁, hdel, hP₁⟩ := hkeep h s hP hmeets.1
      obtain ⟨r, s₂, hop, hR⟩ := hexec s₁ (some h) s hP₁ hmeets.1
      obtain ⟨a, hs', s'', hrun, hQ⟩ := hrest r hs s₂ hR (hmeets.2 s₁ hdel r s₂ hop)
      exact ⟨a, hs', s'', by rw [run, interrupted, hdel]; simp only [hop]; exact hrun, hQ⟩

theorem meets_bind {p : Prog Op Res α} {f : α → Prog Op Res β} {hs : List H} {s : σ}
    (h : Meets exec deliver allowed (p >>= f) hs s) :
    Meets exec deliver allowed p hs s ∧
      ∀ a hs' s', run (interrupted exec deliver) p (hs, s) = .ok (a, hs', s') →
        Meets exec deliver allowed (f a) hs' s' := by
  induction p generalizing hs s with
  | ret a =>
      refine ⟨trivial, ?_⟩
      rintro a' hs' s' hrun
      simp only [run, Except.ok.injEq, Prod.mk.injEq] at hrun
      obtain ⟨rfl, rfl, rfl⟩ := hrun
      exact h
  | act op k ih =>
      cases hs with
      | nil =>
          refine ⟨⟨h.1, fun r s' hop => (ih r (h.2 r s' hop)).1⟩, ?_⟩
          intro a hs' s' hrun
          cases hop : exec op s with
          | error e => simp [run, interrupted, hop] at hrun
          | ok out =>
              rw [run, interrupted, hop] at hrun
              exact (ih out.1 (h.2 out.1 out.2 hop)).2 a hs' s' hrun
      | cons g hs =>
          refine ⟨⟨h.1, fun s₁ hdel r s₂ hop => (ih r (h.2 s₁ hdel r s₂ hop)).1⟩, ?_⟩
          intro a hs' s' hrun
          cases hdel : deliver g s with
          | error e => simp [run, interrupted, hdel] at hrun
          | ok s₁ =>
              cases hop : exec op s₁ with
              | error e => simp [run, interrupted, hdel, hop] at hrun
              | ok out =>
                  rw [run, interrupted, hdel] at hrun
                  simp only [hop] at hrun
                  exact (ih out.1 (h.2 s₁ hdel out.1 out.2 hop)).2 a hs' s' hrun

theorem withstands_bind {p : Prog Op Res α} {f : α → Prog Op Res β} {R : α → σ → Prop}
    {Q : β → σ → Prop} (hp : Withstands exec deliver allowed P p R)
    (hf : ∀ a, Withstands exec deliver allowed (R a) (f a) Q) :
    Withstands exec deliver allowed P (p >>= f) Q := by
  intro hs s hP hmeets
  obtain ⟨hfirst, hthen⟩ := meets_bind hmeets
  obtain ⟨a, hs₁, s₁, hrun, hR⟩ := hp hs s hP hfirst
  obtain ⟨b, hs₂, s₂, hrun₂, hQ⟩ := hf a hs₁ s₁ hR (hthen a hs₁ s₁ hrun)
  exact ⟨b, hs₂, s₂, by rw [run_bind, hrun]; exact hrun₂, hQ⟩

end Interrupted

end Lib.Program
