/-
A process with several threads in the fs/gs mode.

The threads share one memory; each has its own GS base, metadata page and shadow stack. A
step is a step of one thread, the initialisation of a new one, or a change of memory that no
thread owns. A call of the runtime is one step: between its stores other threads act on
other memory, which changes nothing for either.

`threads_independent`: whatever the order of the steps, the regions of two threads have no
address in common, what the others do is to each thread a change elsewhere, and so every
live activation of every thread decodes.

The invariant has two parts, that each thread is at rest with its activations decoded, and
that what two threads own is apart. A step of one thread keeps the first part for the others
because it is confined (`Confined`), and the second because what it takes is fresh: the
kernel gives no memory that is mapped. The results about one thread are used as they are,
for the machine that the thread sees (`Threads.machine`).

No thread ends, and the queue of regions to be released is left out with it. The condition
on the steps is that of a single thread, `Covered`, for each of them.
-/

import FlashStack.FsGs.Confinement
import FlashStack.FsGs.Decoding

namespace FlashStack.FsGs

open Lib.Memory Lib.Pages

abbrev Tid := Nat

/-- The threads of a process; `stack` gives the call stack of an initialised thread. -/
structure Threads where
  mem : Paged
  gs : Tid → Word
  saved : Tid → Word
  stack : Tid → Option Stack
  live : Tid → Word → Option Word

namespace Threads

/-- What thread `t` sees of the process: the memory, which it shares with the others, and what it
has of its own. -/
def machine (s : Threads) (t : Tid) : Machine := ⟨s.mem, s.gs t, (s.stack t).isSome, s.saved t⟩

def state (s : Threads) (t : Tid) : State := ⟨s.machine t, s.live t⟩

/-- Thread `t`, with the call stack `k`, has come to `st`. -/
def put (s : Threads) (t : Tid) (k : Stack) (st : State) : Threads where
  mem := st.machine.mem
  gs := Function.update s.gs t st.machine.gs
  saved := Function.update s.saved t st.machine.saved
  stack := Function.update s.stack t (some k)
  live := Function.update s.live t st.live

inductive Event where
  | start (t : Tid) (k : Stack) (env : Env) (fuel : Nat)
  | act (t : Tid) (a : Action)
  | rest (mem : Paged)

/-- The steps of a process. Memory that no thread owns may change in every way. -/
inductive Step (msr : Bool) : Threads → Event → Threads → Prop where
  | start {s : Threads} {t : Tid} {k : Stack} {env : Env} {fuel : Nat} {m : Machine}
      (hnew : s.stack t = none)
      (hrun : initShadowStack env fuel k.r0 k.stackLow k.stackSize (s.machine t) = some m) :
      Step msr s (.start t k env fuel) (s.put t k ⟨m, fun _ => none⟩)
  | act {s : Threads} {t : Tid} {k : Stack} {a : Action} {st : State} (hk : s.stack t = some k)
      (ha : ∀ m, a ≠ .elsewhere m) (hstep : FsGs.Step k msr (s.state t) a st) :
      Step msr s (.act t a) (s.put t k st)
  | rest {s : Threads} {mem : Paged} (hmem : ∀ t, KeptOutside (fun x => ¬ Own (s.machine t) x)
      s.mem mem) : Step msr s (.rest mem) { s with mem := mem }

/-- The steps of each thread meet the condition of `Covered`. A new thread and other memory need
none. -/
def Allowed (msr : Bool) (s : Threads) : Event → Prop
  | .act t a => ∀ k, s.stack t = some k → Covered k msr (s.state t) a
  | _ => True

/-- The states of a process that begins without threads, and in which every step is allowed where
it is made. -/
inductive Reachable (msr : Bool) : Threads → Prop where
  | init {s : Threads} (hnew : ∀ t, s.stack t = none) : Reachable msr s
  | step {s s' : Threads} {e : Event} (h : Reachable msr s) (he : Allowed msr s e)
      (hstep : Step msr s e s') : Reachable msr s'

variable {s s' : Threads} {t u : Tid} {k : Stack} {st : State} {msr : Bool}

/-! ### One thread moves -/

theorem stack_put_self : (s.put t k st).stack t = some k := Function.update_self ..

theorem state_put_self (hst : st.machine.inited = true) : (s.put t k st).state t = st := by
  obtain ⟨⟨mem, gs, inited, saved⟩, live⟩ := st
  obtain rfl : inited = true := hst
  simp [state, machine, put]

theorem machine_put_of_ne (hut : u ≠ t) :
    (s.put t k st).machine u = { s.machine u with mem := st.machine.mem } := by
  simp [machine, put, Function.update_of_ne hut]

theorem state_put_of_ne (hut : u ≠ t) :
    (s.put t k st).state u =
      { s.state u with machine := { s.machine u with mem := st.machine.mem } } := by
  rw [state, machine_put_of_ne hut]
  simp [state, put, Function.update_of_ne hut]

/-- What is kept where a thread owns is a change elsewhere. -/
theorem elsewhere_of_kept {m : Machine} {mem : Paged} (hin : m.inited = true)
    (h : ∀ x, Own m x → mem.word x = m.mem.word x ∧ mem.prot x = m.mem.prot x) :
    Elsewhere m { m with mem := mem } where
  gs := rfl
  inited := rfl
  saved := rfl
  page x hx := h x ⟨hin, .inl hx⟩
  region x hx := h x ⟨hin, .inr hx⟩

/-- Thread `t` is in a state of its own runs: those of the module on one thread, with the other
threads as the rest of the process. -/
def Runs (msr : Bool) (s : Threads) (t : Tid) : Prop :=
  ∀ k, s.stack t = some k → FsGs.Reachable k msr (Covered k msr) (s.state t)

/-- What a thread owns is mapped, so a fresh mapping cannot overlap it. -/
theorem Runs.mapped (h : Runs msr s t) {x : Word} (hx : Own (s.machine t) x) :
    s.mem.prot x ≠ .none := by
  obtain ⟨k, hk⟩ := Option.isSome_iff_exists.mp hx.1
  obtain ⟨p, ss, md, slots, hinv⟩ := reachable_inv (h k hk)
  have hgs : s.gs t = p := hinv.rest.gs
  have hsaved : s.saved t = ss := hinv.rest.saved
  rcases hx.2 with hx | hx
  · exact hinv.rest.page x (hgs ▸ hx)
  · exact hinv.rest.region.mapped (by simp) x (hsaved ▸ hx)

/-- **The invariant**: each thread is in a state of its own runs, and no two threads own the
same address. -/
structure Inv (msr : Bool) (s : Threads) : Prop where
  runs : ∀ t, Runs msr s t
  apart : ∀ t u, t ≠ u → ∀ x, Own (s.machine t) x → ¬ Own (s.machine u) x

/-- What another thread owns is out of reach of a step that is confined to its own thread. -/
theorem Inv.not_reach (h : Inv msr s) (hut : u ≠ t) {x : Word} (hx : Own (s.machine u) x) :
    ¬ Reach (s.machine t) x := by
  rintro (hown | hfree)
  · exact h.apart u t hut x hx hown
  · exact (h.runs u).mapped hx hfree

/-- **A confined step** of one thread keeps the invariant. -/
theorem Inv.put (h : Inv msr s) (hconf : Confined (s.machine t) st.machine)
    (hin : st.machine.inited = true) (hst : FsGs.Reachable k msr (Covered k msr) st) :
    Inv msr (s.put t k st) := by
  have hown : ∀ u, u ≠ t → ∀ x, Own ((s.put t k st).machine u) x → Own (s.machine u) x := by
    intro u hut x hx
    rwa [machine_put_of_ne hut] at hx
  have hself : (s.put t k st).machine t = st.machine := congrArg State.machine (state_put_self hin)
  have happart : ∀ u, u ≠ t → ∀ x, Own ((s.put t k st).machine u) x →
      ¬ Own ((s.put t k st).machine t) x := by
    intro u hut x hx hx'
    rw [hself] at hx'
    exact h.not_reach hut (hown u hut x hx) (hconf.owned x hx')
  refine ⟨fun u => ?_, fun u v huv x hx hx' => ?_⟩
  · intro k' hk'
    by_cases hut : u = t
    · subst hut
      obtain rfl := Option.some.inj (stack_put_self.symm.trans hk')
      rwa [state_put_self hin]
    · have hk : s.stack u = some k' := by simpa [Threads.put, hut] using hk'
      have hinited : (s.machine u).inited = true := by simp [machine, hk]
      rw [state_put_of_ne hut]
      refine (h.runs u k' hk).step (a := .elsewhere _) trivial (.elsewhere ?_)
      exact elsewhere_of_kept hinited fun x hx => hconf.kept x (h.not_reach hut hx)
  · by_cases hut : u = t
    · subst hut
      exact happart v (Ne.symm huv) x hx' hx
    · by_cases hvt : v = t
      · subst hvt
        exact happart u hut x hx hx'
      · exact h.apart u v huv x (hown u hut x hx) (hown v hvt x hx')

theorem Inv.step (h : Inv msr s) {e : Event} (he : Allowed msr s e) (hstep : Step msr s e s') :
    Inv msr s' := by
  cases hstep with
  | @start t k env fuel m hnew hrun =>
      have hinited : (s.machine t).inited = false := by simp [machine, hnew]
      obtain ⟨p, ss, md, slots, hrest, -⟩ := atRest_init hinited hrun
      exact h.put (confined_init hinited hrun) hrest.inited (.init hinited hrun)
  | @act t k a st hk ha hstep =>
      have hcond := he k hk
      have hruns := h.runs t k hk
      obtain ⟨p, ss, md, slots, hinv⟩ := reachable_inv hruns
      have hst := hruns.step hcond hstep
      obtain ⟨p', ss', md', slots', hinv'⟩ := reachable_inv hst
      have hslot : ∀ r, a = .prologue r → k.HasSlot r := by
        rintro r rfl
        exact hcond
      exact h.put (hinv.rest.confined_step hstep ha hslot) hinv'.rest.inited hst
  | @rest mem hmem =>
      refine ⟨fun t k hk => ?_, fun t u htu x hx => h.apart t u htu x hx⟩
      have hinited : (s.machine t).inited = true := by
        have hsome : s.stack t = some k := hk
        simp [machine, hsome]
      refine (h.runs t k hk).step (a := .elsewhere _) trivial (.elsewhere ?_)
      exact elsewhere_of_kept hinited fun x hx => hmem t x (not_not_intro hx)

theorem reachable_inv (h : Reachable msr s) : Inv msr s := by
  induction h with
  | @init s hnew =>
      refine ⟨fun t k hk => ?_, fun t u htu x hx => ?_⟩
      · rw [hnew t] at hk
        cases hk
      · have hsome := hx.1
        simp [machine, hnew t] at hsome
  | step hs he hstep ih => exact ih.step he hstep

/-- **The threads of a process.** In every run whose steps are covered, each thread is in a
state of a run of its own, the others being elsewhere; no two threads own the same address; and
every live activation of every thread decodes. -/
theorem threads_independent (h : Reachable msr s) :
    (∀ t k, s.stack t = some k → FsGs.Reachable k msr (Covered k msr) (s.state t) ∧
      ∀ r ra, s.live t r = some ra → epilogue msr r (s.machine t) = ra) ∧
    ∀ t u, t ≠ u → ∀ x, Own (s.machine t) x → ¬ Own (s.machine u) x := by
  have hinv := reachable_inv h
  refine ⟨fun t k hk => ?_, hinv.apart⟩
  have hruns := hinv.runs t k hk
  obtain ⟨p, ss, md, slots, hthread⟩ := FsGs.reachable_inv hruns
  exact ⟨hruns, fun r ra hr => hthread.epilogue_eq hr⟩

/-! ### Two threads -/

/-- A process before its first thread, in which no memory is mapped. -/
def noThreads : Threads :=
  ⟨emptyMachine.mem, fun _ => 0, fun _ => 0, fun _ => none, fun _ _ => none⟩

/-- A call stack below that of `firstStack`. -/
def secondStack : Stack where
  stackLow := 0x7fffe7800000
  stackSize := callStackSize
  r0 := 0x7fffe7fff000
  r0_aligned := by decide
  r0_high := by decide

/-- The first thread has entered a function when the second one starts. -/
theorem threads_independent_two :
    ∃ s, Reachable true s ∧ s.stack 1 = some secondStack ∧
      (∃ r ra, s.live 0 r = some ra ∧ epilogue true r (s.machine 0) = ra) ∧
      ∀ x, Own (s.machine 0) x → ¬ Own (s.machine 1) x := by
  obtain ⟨m, hinited, hinit, hnew, hnss⟩ := exists_first 0 77
  have hr : firstStack.InStack 0x7ffff7ffefc0 := ⟨by decide, by decide, by decide⟩
  have hslot : firstStack.HasSlot 0x7ffff7ffefc0 := by
    unfold Stack.HasSlot
    decide
  have hs₁ : Reachable true (noThreads.put 0 firstStack ⟨m, fun _ => none⟩) :=
    (Reachable.init fun _ => rfl).step (e := .start 0 firstStack _ 1) trivial (.start rfl hinit)
  generalize hs : noThreads.put 0 firstStack ⟨m, fun _ => none⟩ = s₁ at hs₁
  have hk₁ : s₁.stack 0 = some firstStack := hs ▸ stack_put_self
  have hmem₁ : s₁.mem = m.mem := by simp [← hs, put]
  have hcovered : Allowed true s₁ (.act 0 (.prologue 0x7ffff7ffefc0)) := by
    intro k hk
    obtain rfl := Option.some.inj (hk₁.symm.trans hk)
    exact hslot
  have hs₂ := hs₁.step hcovered (.act hk₁ (by simp) (.prologue hr))
  generalize hs' : s₁.put 0 firstStack _ = s₂ at hs₂
  have hnew₂ : s₂.stack 1 = none := by simp [← hs', ← hs, put, noThreads]
  have hlive₂ : s₂.live 0 0x7ffff7ffefc0 = some (m.mem.word 0x7ffff7ffefc0) := by
    simp [← hs', put, state, machine, hmem₁]
  have hmem₂ : s₂.mem.prot = m.mem.prot := by simp [← hs', put, prologue, state, machine, hmem₁]
  have hinited₂ : (s₂.machine 1).inited = false := by simp [machine, hnew₂]
  have hfree : ∀ x, m.mem.prot x = .none → s₂.mem.prot x = .none := by
    rw [hmem₂]
    exact fun _ hx => hx
  obtain ⟨m₂, hinit₂, -⟩ := @exists_init (firstEnv 0 55 0x7f2000000000 0x7f3000000000)
    (s₂.machine 1) 0x7f2000000000 0x7f3000000000 hinited₂ (fun _ => rfl) (fun _ => rfl)
    (hnew.of_isFree hfree) (hnss.of_isFree (Machine.mapZero_free hfree)) secondStack.r0
    secondStack.stackLow secondStack.stackSize
  have hs₃ := hs₂.step (e := .start 1 secondStack _ 1) trivial (.start hnew₂ hinit₂)
  obtain ⟨hthreads, happart⟩ := threads_independent hs₃
  have hk₃ : (s₂.put 1 secondStack ⟨m₂, fun _ => none⟩).stack 0 = some firstStack := by
    simp [← hs', put]
  have hlive₃ : (s₂.put 1 secondStack ⟨m₂, fun _ => none⟩).live 0 0x7ffff7ffefc0 =
      some (m.mem.word 0x7ffff7ffefc0) := by
    rw [← hlive₂]
    simp [put]
  exact ⟨_, hs₃, stack_put_self, ⟨_, _, hlive₃, (hthreads 0 _ hk₃).2 _ _ hlive₃⟩,
    happart 0 1 (by decide)⟩

end Threads

end FlashStack.FsGs
