/-
Programs of several threads, interleaved action by action.

`Safe exec rely guar P p Q` is the judgement of one thread: from a state that satisfies
`P`, and whatever steps `rely` the other threads take between its actions, no action of
`p` fails, each one changes the state as `guar` says, and `p` ends in `Q`. The assertions
between the actions are part of the judgement, and each of them is stable under `rely`.
The rules are `safe_ret`, `safe_act`, `safe_bind` and `safe_exists`.

A pool runs one program on each thread, over a shared state and a state of its own, and
a schedule starts programs and lets threads take one action at a time.
`Discipline.run_inv` is the rule for schedules: threads whose guarantees imply what the
others rely on do not fail in any interleaving, and at every moment the action that a
thread takes next succeeds and meets its guarantee (`Discipline.Inv.act`).
-/

import FlashStack.Lib.Events
import FlashStack.Lib.Program
import Mathlib.Logic.Function.Basic
import Mathlib.Tactic.Choose

namespace Lib.Interleaving

open Lib.Program Lib.Events

/-! ### One thread among others -/

section Judgement

variable {Op : Type} {Res : Op → Type} {α β σ ε : Type}

/-- The steps `rely` keep `P`: it does not matter whether they happen before or after one looks.
-/
def Stable (rely : σ → σ → Prop) (P : σ → Prop) : Prop := ∀ s s', P s → rely s s' → P s'

theorem Stable.and {rely : σ → σ → Prop} {P P' : σ → Prop} (h : Stable rely P)
    (h' : Stable rely P') : Stable rely fun s => P s ∧ P' s :=
  fun s s' hs hr => ⟨h s s' hs.1 hr, h' s s' hs.2 hr⟩

variable (exec : (op : Op) → σ → Except ε (Res op × σ)) (rely : σ → σ → Prop)
  (guar : Op → σ → σ → Prop)

def Safe : (σ → Prop) → Prog Op Res α → (α → σ → Prop) → Prop
  | P, .ret a, Q => Stable rely P ∧ ∀ s, P s → Q a s
  | P, .act op k, Q =>
      Stable rely P ∧ ∃ R : Res op → σ → Prop,
        (∀ s, P s → ∃ r s', exec op s = .ok (r, s') ∧ guar op s s' ∧ R r s') ∧
          ∀ r, Safe (R r) (k r) Q

variable {exec rely guar} {P P' : σ → Prop}

theorem Safe.stable {p : Prog Op Res α} {Q : α → σ → Prop} (h : Safe exec rely guar P p Q) :
    Stable rely P := by
  cases p with
  | ret a => exact h.1
  | act op k => exact h.1

theorem safe_ret {a : α} {Q : α → σ → Prop} (hstable : Stable rely P) (h : ∀ s, P s → Q a s) :
    Safe exec rely guar P (.ret a) Q :=
  ⟨hstable, h⟩

/-- One action: it succeeds from the assertion, as the guarantee says, and the rest is
safe from where it leads. -/
theorem safe_act {op : Op} {k : Res op → Prog Op Res α} {R : Res op → σ → Prop}
    {Q : α → σ → Prop} (hstable : Stable rely P)
    (hexec : ∀ s, P s → ∃ r s', exec op s = .ok (r, s') ∧ guar op s s' ∧ R r s')
    (hrest : ∀ r, Safe exec rely guar (R r) (k r) Q) : Safe exec rely guar P (.act op k) Q :=
  ⟨hstable, R, hexec, hrest⟩

/-- What the assertion of a thread about to act promises: the action succeeds, and the rest is
safe again. -/
theorem Safe.act {op : Op} {k : Res op → Prog Op Res α} {Q : α → σ → Prop}
    (h : Safe exec rely guar P (.act op k) Q) {s : σ} (hs : P s) :
    ∃ r s' R, exec op s = .ok (r, s') ∧ guar op s s' ∧ R s' ∧ Safe exec rely guar R (k r) Q := by
  obtain ⟨-, R, hexec, hrest⟩ := h
  obtain ⟨r, s', hop, hguar, hR⟩ := hexec s hs
  exact ⟨r, s', R r, hop, hguar, hR, hrest r⟩

theorem Safe.pre {p : Prog Op Res α} {Q : α → σ → Prop} (h : Safe exec rely guar P' p Q)
    (hstable : Stable rely P) (himp : ∀ s, P s → P' s) : Safe exec rely guar P p Q := by
  cases p with
  | ret a => exact ⟨hstable, fun s hs => h.2 s (himp s hs)⟩
  | act op k =>
      obtain ⟨-, R, hexec, hrest⟩ := h
      exact ⟨hstable, R, fun s hs => hexec s (himp s hs), hrest⟩

theorem Safe.post {p : Prog Op Res α} {Q Q' : α → σ → Prop} (h : Safe exec rely guar P p Q)
    (himp : ∀ a s, Q a s → Q' a s) : Safe exec rely guar P p Q' := by
  induction p generalizing P with
  | ret a => exact ⟨h.1, fun s hs => himp a s (h.2 s hs)⟩
  | act op k ih =>
      obtain ⟨hstable, R, hexec, hrest⟩ := h
      exact ⟨hstable, R, hexec, fun r => ih r (hrest r)⟩

/-- An assertion with an unknown is safe if it is for every value of the unknown. -/
theorem safe_exists {γ : Sort*} {P : γ → σ → Prop} {p : Prog Op Res α} {Q : α → σ → Prop}
    (h : ∀ x, Safe exec rely guar (P x) p Q) :
    Safe exec rely guar (fun s => ∃ x, P x s) p Q := by
  have hstable : Stable rely fun s => ∃ x, P x s := by
    rintro s s' ⟨x, hx⟩ hr
    exact ⟨x, (h x).stable s s' hx hr⟩
  induction p generalizing γ P with
  | ret a =>
      refine ⟨hstable, ?_⟩
      rintro s ⟨x, hx⟩
      exact (h x).2 s hx
  | act op k ih =>
      choose _ R hexec hrest using h
      refine ⟨hstable, fun r s => ∃ x, R x r s, ?_, fun r => ih r (fun x => hrest x r) ?_⟩
      · rintro s ⟨x, hx⟩
        obtain ⟨r, s', hop, hguar, hR⟩ := hexec x s hx
        exact ⟨r, s', hop, hguar, x, hR⟩
      · rintro s s' ⟨x, hx⟩ hr
        exact ⟨x, (hrest x r).stable s s' hx hr⟩

/-- A fact that the assertion carries may be used as a hypothesis. -/
theorem safe_of_fact {φ : Prop} {p : Prog Op Res α} {Q : α → σ → Prop}
    (h : φ → Safe exec rely guar P p Q) : Safe exec rely guar (fun s => φ ∧ P s) p Q := by
  have hexists := safe_exists (P := fun (_ : φ) s => P s) h
  simpa only [exists_prop] using hexists

/-- A sequence is safe if its second part is from wherever the first part ends. -/
theorem safe_bind {p : Prog Op Res α} {f : α → Prog Op Res β} {R : α → σ → Prop}
    {Q : β → σ → Prop} (hp : Safe exec rely guar P p R)
    (hf : ∀ a, Safe exec rely guar (R a) (f a) Q) : Safe exec rely guar P (p >>= f) Q := by
  induction p generalizing P with
  | ret a => exact (hf a).pre hp.1 hp.2
  | act op k ih =>
      obtain ⟨hstable, S, hexec, hrest⟩ := hp
      exact ⟨hstable, S, hexec, fun r => ih r (hrest r)⟩

end Judgement

/-! ### Pools -/

/-- The shared state, the state of each thread, and what is left of the program that the
thread runs. -/
structure Pool (Op : Type) (Res : Op → Type) (S L ι : Type) where
  shared : S
  own : ι → L
  running : ι → Option (Prog Op Res Unit)

/-- What thread `t` sees of a pool: the shared state, and its own. -/
def Pool.view {Op : Type} {Res : Op → Type} {S L ι : Type} (s : Pool Op Res S L ι) (t : ι) :
    S × L := (s.shared, s.own t)

inductive Event (ι Label : Type) where
  /-- Thread `t` starts the program `l`. -/
  | start (t : ι) (l : Label)
  /-- Thread `t` takes its next action. -/
  | step (t : ι)

/-- Steps of other threads, as one thread sees them. -/
def among {S L : Type} (rely : S → S → Prop) (v v' : S × L) : Prop :=
  v'.2 = v.2 ∧ rely v.1 v'.1

/-- Every action of a program satisfies `φ`, whatever the answers. It is a property of the text of
the program, not of a run. -/
def Performs {Op : Type} {Res : Op → Type} {α : Type} (φ : Op → Prop) : Prog Op Res α → Prop
  | .ret _ => True
  | .act op k => φ op ∧ ∀ r, Performs φ (k r)

theorem performs_bind {Op : Type} {Res : Op → Type} {α β : Type} {φ : Op → Prop}
    {p : Prog Op Res α} {f : α → Prog Op Res β} (hp : Performs φ p) (hf : ∀ a, Performs φ (f a)) :
    Performs φ (p >>= f) := by
  induction p with
  | ret a => exact hf a
  | act op k ih => exact ⟨hp.1, fun r => ih r (hp.2 r)⟩

section Pools

variable {Op : Type} {Res : Op → Type} {S L ε ι Label : Type} [DecidableEq ι]

variable (exec : ι → (op : Op) → S × L → Except ε (Res op × (S × L)))
  (code : Label → Prog Op Res Unit)

def step : Event ι Label → Pool Op Res S L ι → Except ε (Pool Op Res S L ι)
  | .start t l, s => .ok { s with running := Function.update s.running t (some (code l)) }
  | .step t, s =>
      match s.running t with
      | none => .ok s
      | some (.ret _) => .ok { s with running := Function.update s.running t none }
      | some (.act op k) =>
          match exec t op (s.view t) with
          | .error e => .error e
          | .ok (r, v) =>
              .ok
                { shared := v.1
                  own := Function.update s.own t v.2
                  running := Function.update s.running t (some (k r)) }

section

variable {exec code} {s : Pool Op Res S L ι} {t : ι}

theorem step_idle (h : s.running t = none) : step exec code (.step t) s = .ok s := by
  simp only [step, h]

theorem step_ret {a : Unit} (h : s.running t = some (.ret a)) :
    step exec code (.step t) s =
      .ok { s with running := Function.update s.running t none } := by
  simp only [step, h]

theorem step_act {op : Op} {k : Res op → Prog Op Res Unit} {r : Res op} {v : S × L}
    (h : s.running t = some (.act op k)) (hop : exec t op (s.view t) = .ok (r, v)) :
    step exec code (.step t) s =
      .ok
        { shared := v.1
          own := Function.update s.own t v.2
          running := Function.update s.running t (some (k r)) } := by
  simp only [step, h, hop]

end

/-- What every thread may assume of the others, and promises to them. -/
structure Discipline where
  rely : ι → S → S → Prop
  guar : ι → Op → S × L → S × L → Prop
  /-- The assertion of a thread between two programs. -/
  Idle : ι → S × L → Prop
  /-- When a thread may start a program. -/
  may : ι → Label → S × L → Prop
  compatible : ∀ {t u op v v'}, u ≠ t → guar t op v v' → rely u v.1 v'.1
  idle_stable : ∀ t, Stable (among (rely t)) (Idle t)
  safe : ∀ t l, Safe (exec t) (among (rely t)) (guar t) (fun v => Idle t v ∧ may t l v) (code l)
    fun _ => Idle t

namespace Discipline

variable {exec code} (d : Discipline exec code)

/-- A thread starts a program when it is idle and may do so. -/
def Allowed : Event ι Label → Pool Op Res S L ι → Prop
  | .start t l, s => s.running t = none ∧ d.may t l (s.view t)
  | .step _, _ => True

/-- Every thread is where some assertion of its program holds, or, without a program, is idle. -/
structure Inv (s : Pool Op Res S L ι) : Prop where
  idle : ∀ t, s.running t = none → d.Idle t (s.view t)
  busy : ∀ t p, s.running t = some p →
    ∃ P, P (s.view t) ∧
      Safe (exec t) (among (d.rely t)) (d.guar t) P p fun _ => d.Idle t

variable {d} {s : Pool Op Res S L ι}

omit [DecidableEq ι] in
/-- No thread runs, and each is idle: the invariant holds where a pool begins. -/
theorem inv_of_idle (hrunning : ∀ t, s.running t = none) (hidle : ∀ t, d.Idle t (s.view t)) :
    d.Inv s where
  idle t _ := hidle t
  busy t p hp := by rw [hrunning t] at hp; cases hp

omit [DecidableEq ι] in
/-- **The next action of a thread** succeeds and meets its guarantee. -/
theorem Inv.act (h : d.Inv s) {t : ι} {op : Op} {k : Res op → Prog Op Res Unit}
    (ht : s.running t = some (.act op k)) :
    ∃ r v, exec t op (s.view t) = .ok (r, v) ∧ d.guar t op (s.view t) v := by
  obtain ⟨P, hP, hsafe⟩ := h.busy t _ ht
  obtain ⟨r, v, R, hop, hguar, -⟩ := hsafe.act hP
  exact ⟨r, v, hop, hguar⟩

omit [DecidableEq ι] in
/-- A step that only concerns thread `t` keeps what the others assert: their assertions are
stable, and the step is one they rely on. -/
theorem Inv.of_rely (h : d.Inv s) (t : ι) {s' : Pool Op Res S L ι}
    (hothers : ∀ u, u ≠ t → d.rely u s.shared s'.shared ∨ s'.shared = s.shared)
    (hown : ∀ u, u ≠ t → s'.own u = s.own u)
    (hrunning : ∀ u, u ≠ t → s'.running u = s.running u)
    (hidle : s'.running t = none → d.Idle t (s'.view t))
    (hbusy : ∀ p, s'.running t = some p →
      ∃ P, P (s'.view t) ∧
        Safe (exec t) (among (d.rely t)) (d.guar t) P p fun _ => d.Idle t) :
    d.Inv s' := by
  have hkeep : ∀ u, u ≠ t → ∀ P, Stable (among (d.rely u)) P → P (s.view u) → P (s'.view u) := by
    intro u hu P hstable hP
    rcases hothers u hu with hr | hsame
    · exact hstable _ _ hP ⟨hown u hu, hr⟩
    · have hview : s'.view u = s.view u := Prod.ext hsame (hown u hu)
      rw [hview]
      exact hP
  refine ⟨fun u hu => ?_, fun u p hp => ?_⟩
  · by_cases hut : u = t
    · subst hut
      exact hidle hu
    · rw [hrunning u hut] at hu
      exact hkeep u hut _ (d.idle_stable u) (h.idle u hu)
  · by_cases hut : u = t
    · subst hut
      exact hbusy p hp
    · rw [hrunning u hut] at hp
      obtain ⟨P, hP, hsafe⟩ := h.busy u p hp
      exact ⟨P, hkeep u hut P hsafe.stable hP, hsafe⟩

/-- **Every step keeps the invariant** and does not fail. -/
theorem step_inv (e : Event ι Label) (s : Pool Op Res S L ι) (h : d.Inv s)
    (he : d.Allowed e s) : ∃ s', step exec code e s = .ok s' ∧ d.Inv s' := by
  cases e with
  | start t l =>
      obtain ⟨hnone, hmay⟩ := he
      refine ⟨_, rfl, h.of_rely t (fun _ _ => .inr rfl) (fun _ _ => rfl) (fun u hu => ?_) ?_ ?_⟩
      · exact Function.update_of_ne hu _ _
      · simp
      · intro p hp
        simp only [Function.update_self, Option.some.injEq] at hp
        subst hp
        exact ⟨_, ⟨h.idle t hnone, hmay⟩, d.safe t l⟩
  | step t =>
      cases hrun : s.running t with
      | none => exact ⟨s, step_idle hrun, h⟩
      | some p =>
          obtain ⟨P, hP, hsafe⟩ := h.busy t p hrun
          cases p with
          | ret a =>
              refine ⟨_, step_ret hrun, h.of_rely t (fun _ _ => .inr rfl) (fun _ _ => rfl)
                (fun u hu => ?_) (fun _ => hsafe.2 _ hP) ?_⟩
              · exact Function.update_of_ne hu _ _
              · simp
          | act op k =>
              obtain ⟨r, v, R, hop, hguar, hR, hrest⟩ := hsafe.act hP
              refine ⟨_, step_act hrun hop, h.of_rely t
                (fun u hu => .inl (d.compatible hu hguar)) (fun u hu => ?_) (fun u hu => ?_)
                ?_ ?_⟩
              · exact Function.update_of_ne hu _ _
              · exact Function.update_of_ne hu _ _
              · simp
              · intro p hp
                simp only [Function.update_self, Option.some.injEq] at hp
                subst hp
                refine ⟨R, ?_, hrest⟩
                simpa [Pool.view] using hR

/-- A thread takes its next action. The others keep their assertions, which are stable. -/
theorem Inv.step (h : d.Inv s) {t : ι} {op : Op} {k : Res op → Prog Op Res Unit}
    (ht : s.running t = some (.act op k)) :
    ∃ r s', Interleaving.step exec code (.step t) s = .ok s' ∧ d.Inv s' ∧
      d.guar t op (s.view t) (s'.view t) ∧ s'.running t = some (k r) ∧
      ∀ u, u ≠ t → s'.own u = s.own u ∧ s'.running u = s.running u := by
  obtain ⟨r, v, hop, hguar⟩ := h.act ht
  obtain ⟨s', hstep, hinv⟩ := step_inv (.step t) s h trivial
  obtain rfl := Except.ok.inj ((step_act ht hop).symm.trans hstep)
  refine ⟨r, _, hstep, hinv, ?_, Function.update_self _ _ _, fun u hu => ⟨?_, ?_⟩⟩
  · simpa [Pool.view] using hguar
  · exact Function.update_of_ne hu _ _
  · exact Function.update_of_ne hu _ _

/-- **Every interleaving.** No schedule fails, and the invariant holds after it. A step lemma and
an induction on the schedule are all there is to it. -/
theorem run_inv (h : d.Inv s) {es : List (Event ι Label)}
    (hes : Along (step exec code) d.Allowed es s) :
    ∃ s', runAll (step exec code) es s = .ok s' ∧ d.Inv s' :=
  run_keeps step_inv h hes

/-- The action that thread `t` takes in event `e` satisfies `side`. Nothing is said when the
thread takes none. -/
def Taken (side : ι → Op → S × L → Prop) (e : Event ι Label) (s : Pool Op Res S L ι) : Prop :=
  ∀ t op k, e = .step t → s.running t = some (.act op k) → side t op (s.view t)

/-- What the guarantees keep of the state of each thread, as long as `side` holds of the
actions taken, holds after every schedule. -/
theorem run_keeps_own (h : d.Inv s) {J : ι → L → Prop} {side : ι → Op → S × L → Prop}
    (hkeep : ∀ t op v v', J t v.2 → side t op v → d.guar t op v v' → J t v'.2)
    (hJ : ∀ t, J t (s.own t)) {es : List (Event ι Label)}
    (hes : Along (step exec code) (fun e s => d.Allowed e s ∧ Taken side e s) es s) :
    ∃ s', runAll (step exec code) es s = .ok s' ∧ d.Inv s' ∧ ∀ t, J t (s'.own t) := by
  refine run_keeps (fun e s hs he => ?_) ⟨h, hJ⟩ hes
  obtain ⟨s', hstep, hinv⟩ := step_inv e s hs.1 he.1
  refine ⟨s', hstep, hinv, ?_⟩
  cases e with
  | start t l =>
      obtain rfl := Except.ok.inj hstep
      exact hs.2
  | step t =>
      cases hrun : s.running t with
      | none =>
          obtain rfl := Except.ok.inj ((step_idle hrun).symm.trans hstep)
          exact hs.2
      | some p =>
          cases p with
          | ret a =>
              obtain rfl := Except.ok.inj ((step_ret hrun).symm.trans hstep)
              exact hs.2
          | act op k =>
              obtain ⟨r, v, hop, hguar⟩ := hs.1.act hrun
              obtain rfl := Except.ok.inj ((step_act hrun hop).symm.trans hstep)
              intro u
              by_cases hu : u = t
              · subst hu
                simpa using hkeep u op _ _ (hs.2 u) (he.2 u op k rfl hrun) hguar
              · simpa [Function.update_of_ne hu] using hs.2 u

/-- Where every program started performs only actions `φ`, so does every step. -/
theorem along_performs {φ : Op → Prop} {es : List (Event ι Label)}
    (hes : ∀ t l, .start t l ∈ es → Performs φ (code l))
    (hs : ∀ t p, s.running t = some p → Performs φ p) :
    Along (step exec code) (Taken fun _ op _ => φ op) es s := by
  induction es generalizing s with
  | nil => trivial
  | cons e es ih =>
      refine ⟨fun t op k _ hrun => (hs t _ hrun).1, fun s' hstep => ih ?_ fun u p hp => ?_⟩
      · exact fun t l hl => hes t l (List.mem_cons_of_mem _ hl)
      have hupdate : ∀ t (q : Option (Prog Op Res Unit)), (∀ p, q = some p → Performs φ p) →
          Function.update s.running t q u = some p → Performs φ p := by
        intro t q hq hu
        by_cases hut : u = t
        · subst hut
          rw [Function.update_self] at hu
          exact hq p hu
        · rw [Function.update_of_ne hut] at hu
          exact hs u p hu
      cases e with
      | start t l =>
          obtain rfl := Except.ok.inj hstep
          refine hupdate t _ (fun q hq => ?_) hp
          obtain rfl := Option.some.inj hq
          exact hes t l (by simp)
      | step t =>
          cases hrun : s.running t with
          | none =>
              obtain rfl := Except.ok.inj ((step_idle hrun).symm.trans hstep)
              exact hs u p hp
          | some q =>
              cases q with
              | ret a =>
                  obtain rfl := Except.ok.inj ((step_ret hrun).symm.trans hstep)
                  exact hupdate t none (fun _ h => by cases h) hp
              | act op k =>
                  cases hop : exec t op (s.view t) with
                  | error err => simp [step, hrun, hop] at hstep
                  | ok out =>
                      obtain rfl := Except.ok.inj ((step_act hrun hop).symm.trans hstep)
                      refine hupdate t _ (fun q hq => ?_) hp
                      obtain rfl := Option.some.inj hq
                      exact (hs t _ hrun).2 out.1

/-! ### Chosen schedules -/

/-- The schedule `es` is allowed and leads from `s` to `s'`. -/
def Runs (d : Discipline exec code) (es : List (Event ι Label)) (s s' : Pool Op Res S L ι) :
    Prop :=
  Along (Interleaving.step exec code) d.Allowed es s ∧
    runAll (Interleaving.step exec code) es s = .ok s'

theorem Runs.append {es es' : List (Event ι Label)} {s s' s'' : Pool Op Res S L ι}
    (h : Runs d es s s') (h' : Runs d es' s' s'') : Runs d (es ++ es') s s'' :=
  ⟨h.1.append h.2 h'.1, (runAll_append h.2).trans h'.2⟩

theorem Runs.single {e : Event ι Label} {s s' : Pool Op Res S L ι} (he : d.Allowed e s)
    (h : Interleaving.step exec code e s = .ok s') : Runs d [e] s s' :=
  ⟨.cons he h trivial, by rw [runAll_cons h, runAll_nil]⟩

/-- Thread `t` starts a program. -/
theorem Inv.runs_start (h : d.Inv s) {t : ι} {l : Label} (hnone : s.running t = none)
    (hmay : d.may t l (s.view t)) :
    ∃ s', Runs d [.start t l] s s' ∧ d.Inv s' ∧ s'.shared = s.shared ∧ s'.own = s.own ∧
      s'.running = Function.update s.running t (some (code l)) := by
  have hallowed : d.Allowed (.start t l) s := ⟨hnone, hmay⟩
  obtain ⟨s', hstep, hinv⟩ := step_inv (.start t l) s h hallowed
  have hruns := Runs.single hallowed hstep
  obtain rfl := Except.ok.inj hstep
  exact ⟨_, hruns, hinv, rfl, rfl, rfl⟩

/-- Thread `t` takes one action. -/
theorem Inv.runs_act (h : d.Inv s) {t : ι} {op : Op} {k : Res op → Prog Op Res Unit}
    {r : Res op} {v : S × L} (ht : s.running t = some (.act op k))
    (hop : exec t op (s.view t) = .ok (r, v)) :
    ∃ s', Runs d [.step t] s s' ∧ d.Inv s' ∧ d.guar t op (s.view t) v ∧ s'.shared = v.1 ∧
      s'.own = Function.update s.own t v.2 ∧
      s'.running = Function.update s.running t (some (k r)) := by
  obtain ⟨r', v', hop', hguar⟩ := h.act ht
  obtain ⟨rfl, rfl⟩ := Prod.mk.inj (Except.ok.inj (hop.symm.trans hop'))
  have hallowed : d.Allowed (.step t) s := trivial
  obtain ⟨s', hstep, hinv⟩ := step_inv (.step t) s h hallowed
  have hruns := Runs.single hallowed hstep
  obtain rfl := Except.ok.inj ((step_act ht hop).symm.trans hstep)
  exact ⟨_, hruns, hinv, hguar, rfl, rfl, rfl⟩

/-- Thread `t` is done. -/
theorem Inv.runs_ret (h : d.Inv s) {t : ι} {a : Unit} (ht : s.running t = some (.ret a)) :
    ∃ s', Runs d [.step t] s s' ∧ d.Inv s' ∧ s'.shared = s.shared ∧ s'.own = s.own ∧
      s'.running = Function.update s.running t none := by
  have hallowed : d.Allowed (.step t) s := trivial
  obtain ⟨s', hstep, hinv⟩ := step_inv (.step t) s h hallowed
  have hruns := Runs.single hallowed hstep
  obtain rfl := Except.ok.inj ((step_ret ht).symm.trans hstep)
  exact ⟨_, hruns, hinv, rfl, rfl, rfl⟩

/-- Thread `t`, undisturbed, runs what is left of its program as it would run alone. -/
theorem Inv.runs_program {t : ι} {p : Prog Op Res Unit} (h : d.Inv s)
    (ht : s.running t = some p) :
    ∃ n s', Runs d (List.replicate n (.step t)) s s' ∧ d.Inv s' ∧
      run (exec t) p (s.view t) = .ok ((), s'.view t) ∧ (∀ u, u ≠ t → s'.own u = s.own u) ∧
      s'.running = Function.update s.running t none := by
  induction p generalizing s with
  | ret a =>
      obtain ⟨s', hruns, hinv, hshared, hown, hrunning⟩ := h.runs_ret ht
      have hview : s'.view t = s.view t := Prod.ext hshared (congrFun hown t)
      exact ⟨1, s', hruns, hinv, by rw [hview]; rfl, fun u _ => congrFun hown u, hrunning⟩
  | act op k ih =>
      obtain ⟨r, v, hop, -⟩ := h.act ht
      obtain ⟨s₁, hruns₁, hinv₁, -, hshared, hown, hrunning⟩ := h.runs_act ht hop
      have hview : s₁.view t = v := Prod.ext hshared (by rw [Pool.view, hown, Function.update_self])
      obtain ⟨n, s₂, hruns₂, hinv₂, hrun, hown₂, hrunning₂⟩ :=
        ih r hinv₁ (by rw [hrunning, Function.update_self])
      refine ⟨n + 1, s₂, hruns₁.append hruns₂, hinv₂, ?_, fun u hu => ?_, ?_⟩
      · rw [run_act_ok hop, ← hview, hrun]
      · rw [hown₂ u hu, hown, Function.update_of_ne hu]
      · rw [hrunning₂, hrunning, Function.update_idem]

end Discipline

end Pools

end Lib.Interleaving
