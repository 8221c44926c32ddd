/-
Where returns go in the fs/gs mode.

An execution is a run of events: calls, rewritten direct calls and tail jumps with the
prologues they enter, return sequences, re-randomizations of the value and of the regions,
and whatever else happens outside the metadata page and the shadow stack, which may
overwrite any part of the call stack.

* `Inv.called`, `Inv.tailJump`, `Inv.ret`: what the inserted code does, for a thread whose
  live activations are in step;
* `returns_home`: in every such run no event fails, and a return goes home.

The conditions on the events are in `Allowed`: a call pushes to mapped memory of the stack
below the live activations, with a slot in the region, which ends 1 MB above the stack
pointer of the initialisation; a re-randomization returns, moves with an `mremap` that
succeeds, and changes the value only while the live activations are below that stack
pointer. A tail jump finds its return address untouched (`Intact`). Without these the result
fails, and the modules on decoding and on the exit state say how.

The invariant `Inv` is that of the run of `FsGs.Run`, for the activations as what is live;
an event is a step there, and the instructions are taken from `FsGs.Sequences`.
-/

import FlashStack.FsGs.Sequences
import FlashStack.FsGs.Confinement
import FlashStack.FsGs.Decoding
import FlashStack.Asm.Returns

namespace FlashStack.FsGs

open Lib.Memory Lib.Pages Lib.Program Lib.Events FlashStack.Asm

/-- The CPU, and the activations from the innermost on. An activation is entered by a call and
left by a return or a tail jump. -/
structure Execution where
  cpu : Cpu
  activations : List Activation

/-- An instruction faults, or no memory can be had. The second is a loop of the source that goes
on forever. -/
inductive Failure where
  | fault (f : Fault)
  | noMemory

namespace Execution

inductive Event where
  /-- The body computes: any registers. -/
  | compute (regs : Reg → Word) (rip : Word) (flags : Flags)
  /-- The body and the rest of the process write to memory, and change its mappings. -/
  | elsewhere (m : Machine)
  /-- The build sets `ratio_factor`. -/
  | ratio (v : Word)
  | rerandomize (env : Env) (fuel : Nat) (rsp : Word)
  /-- `callq f` and the prologue of `f`. -/
  | call (f : Word)
  /-- The rewritten call of `f`. -/
  | directCall (f : Word)
  /-- `jmp f` and the prologue of `f`. -/
  | tailJump (f : Word)
  /-- The epilogue. -/
  | ret

/-- On another machine. -/
def on (s : Execution) (m : Machine) : Execution := { s with cpu := { s.cpu with machine := m } }

/-- Run inserted code, as a whole. What its instructions mean for the activations is said beside.
-/
def inserted (code : List Instr) (c : Cpu) (activations : Cpu → List Activation) :
    Except Failure Execution :=
  match runCode code c with
  | .error e => .error (.fault e)
  | .ok (_, c') => .ok ⟨c', activations c'⟩

/-- The activation of a call that returns to `v`, in front of those there are. Its prologue has
read `v` so far. -/
def entered (v : Word) (s : Execution) (c : Cpu) : List Activation := ⟨c.rsp, v, v⟩ :: s.activations

def step (msr : Bool) : Event → Execution → Except Failure Execution
  | .compute regs rip flags, s =>
      .ok { s with cpu := { s.cpu with regs := regs, rip := rip, flags := flags } }
  | .elsewhere m, s => .ok (s.on m)
  | .ratio v, s => .ok (s.on (s.cpu.machine.set s.cpu.machine.gs .ratioFactor v))
  | .rerandomize env fuel rsp, s =>
      match fsgsRuntimeRerandomize msr env fuel rsp s.cpu.machine with
      | none => .error .noMemory
      | some m => .ok (s.on m)
  | .call f, s => inserted (plainCall msr f) s.cpu (s.entered (s.cpu.next (.call f)))
  | .directCall f, s =>
      inserted (directCallCode msr f) s.cpu (s.entered (s.cpu.behind msr f))
  | .tailJump f, s =>
      inserted (prologueCode msr) (s.cpu.jump f) fun _ =>
        Asm.Execution.reread (s.cpu.machine.mem.word s.cpu.rsp) s.activations
  | .ret, s => inserted (epilogueCode msr) s.cpu fun _ => s.activations.tail

/-- Compiled code calls from below its entry, on mapped memory of the call stack. -/
structure Calls (k : Stack) (s : Execution) : Prop where
  inStack : k.InStack s.cpu.pushed
  hasSlot : k.HasSlot s.cpu.pushed
  mapped : s.cpu.machine.mem.prot s.cpu.pushed = .readWrite
  outside : ¬ Own s.cpu.machine s.cpu.pushed
  below : ∀ f ∈ s.activations.head?, s.cpu.pushed.toNat < f.entry.toNat

/-- What the steps rest on. A re-randomization returns, has its `mremap` when it moves, and when
it changes the value only activations below `r0` are live. -/
def Allowed (k : Stack) (msr : Bool) : Event → Execution → Prop
  | .elsewhere m, s => Elsewhere s.cpu.machine m
  | .rerandomize env fuel rsp, s =>
      k.InStack rsp ∧ (∀ f ∈ s.activations, rsp.toNat ≤ f.entry.toNat) ∧
        (fsgsRuntimeRerandomize msr env fuel rsp s.cpu.machine).isSome ∧
        (elapsed env (s.cpu.machine.get s.cpu.machine.gs .cpuCycles) = true →
          (Moves (s.cpu.machine.get s.cpu.machine.gs) → env.mremap = true) ∧
          (msr = true → env.rdrand = 0 ∨ ∀ f ∈ s.activations, f.entry.toNat < k.r0.toNat))
  | .call _, s => s.Calls k
  | .directCall _, s => s.Calls k
  | .tailJump _, s => ∃ f ∈ s.activations.head?, s.cpu.rsp = f.entry ∧
      s.cpu.machine.mem.prot f.entry ≠ .none
  | .ret, s => ∃ f ∈ s.activations.head?, s.cpu.rsp = f.entry
  | _, _ => True

/-- A tail jump finds the return address of its activation on the call stack. -/
def Intact : Event → Execution → Prop
  | .tailJump _, s => ∀ f ∈ s.activations.head?, s.cpu.machine.mem.word f.entry = f.home
  | _, _ => True

/-- A thread that has just been initialised, and has no activation: what called the initialisation
is left out of the run. -/
def Initial (k : Stack) (s : Execution) : Prop :=
  (∃ env fuel m, m.inited = false ∧
    initShadowStack env fuel k.r0 k.stackLow k.stackSize m = some s.cpu.machine) ∧
    s.activations = []

/-! ### The invariant -/

/-- What the latest prologue at each stack pointer has encoded: the word that it has read, for the
live activations. -/
def live : List Activation → Word → Option Word
  | [] => fun _ => none
  | f :: fs => Function.update (live fs) f.entry (some f.read)

def state (s : Execution) : State := ⟨s.cpu.machine, live s.activations⟩

/-- The thread is at rest with every activation in step, and inner activations lie below outer
ones. -/
structure Inv (k : Stack) (msr : Bool) (s : Execution) : Prop where
  thread : ∃ p ss md slots, FsGs.Inv k msr s.state p ss md slots
  nested : s.activations.Pairwise fun f g => f.entry.toNat < g.entry.toNat

theorem live_isSome {fs : List Activation} {r : Word} (h : (live fs r).isSome = true) :
    ∃ f ∈ fs, f.entry = r := by
  induction fs with
  | nil => simp [live] at h
  | cons f fs ih =>
      by_cases hr : r = f.entry
      · exact ⟨f, by simp, hr.symm⟩
      · rw [live, Function.update_of_ne hr] at h
        obtain ⟨g, hg, hentry⟩ := ih h
        exact ⟨g, by simp [hg], hentry⟩

/-- When the innermost function is left, its slot is no longer live. -/
theorem live_leave {f : Activation} {fs : List Activation}
    (h : ∀ g ∈ fs, f.entry.toNat < g.entry.toNat) :
    Function.update (live (f :: fs)) f.entry none = live fs := by
  rw [live, Function.update_idem]
  refine Function.update_eq_self_iff.mpr ?_
  cases hlive : live fs f.entry with
  | none => rfl
  | some v =>
      obtain ⟨g, hg, hentry⟩ := live_isSome (Option.isSome_of_mem hlive)
      have hlt := h g hg
      rw [hentry] at hlt
      exact absurd hlt (lt_irrefl _)

section

variable {k : Stack} {msr : Bool} {s s' : Execution}

/-- A step of the thread, as a step of the module on runs. What is added here is the order of the
activations on the call stack. -/
theorem Inv.act (h : Inv k msr s) {a : Action} (hcond : Covered k msr s.state a)
    (hstep : Step k msr s.state a s'.state)
    (hnested : s'.activations.Pairwise fun f g => f.entry.toNat < g.entry.toNat) :
    Inv k msr s' := by
  obtain ⟨p, ss, md, slots, hthread⟩ := h.thread
  exact ⟨inv_step hthread hcond hstep, hnested⟩

theorem Initial.inv (h : Initial k s) : Inv k msr s := by
  obtain ⟨⟨env, fuel, m, hinited, hrun⟩, hnil⟩ := h
  obtain ⟨p, ss, md, slots, hrest, -⟩ := atRest_init hinited hrun
  refine ⟨⟨p, ss, md, slots, hrest, ?_⟩, by simp [hnil]⟩
  intro r ra hlive
  simp [state, hnil, live] at hlive

theorem Inv.elsewhere (h : Inv k msr s) {m : Machine} (hm : Elsewhere s.cpu.machine m) :
    Inv k msr (s.on m) :=
  h.act (a := .elsewhere m) trivial (.elsewhere hm) h.nested

/-- The metadata is mapped. -/
theorem Inv.mapped (h : Inv k msr s) :
    IsMapped s.cpu.machine.mem s.cpu.machine.gs realMetaDataSize := by
  obtain ⟨p, ss, md, slots, hthread⟩ := h.thread
  have hgs : s.cpu.machine.gs = p := hthread.rest.gs
  rw [hgs]
  exact hthread.rest.page

/-- A slot is in the shadow stack. -/
theorem Inv.slot (h : Inv k msr s) {r : Word} (hr : k.InStack r) (hslot : k.HasSlot r) :
    s.cpu.machine.mem.prot (r + s.cpu.machine.get s.cpu.machine.gs .diff) = .readWrite ∧
      Own s.cpu.machine (r + s.cpu.machine.get s.cpu.machine.gs .diff) := by
  obtain ⟨p, ss, md, slots, hthread⟩ := h.thread
  have haddr : r + s.cpu.machine.get s.cpu.machine.gs .diff = ss + k.slotOffset r :=
    hthread.rest.add_diff r
  have hin : InRange ss realShadowStackSize (ss + k.slotOffset r) :=
    inRange_offset (k.slotOffset_lt hr hslot)
  have hsaved : s.cpu.machine.saved = ss := hthread.rest.saved
  rw [haddr]
  refine ⟨hthread.rest.region _ hin, hthread.rest.inited, .inr ?_⟩
  rw [hsaved]
  exact hin

theorem Inv.inited (h : Inv k msr s) : s.cpu.machine.inited = true := by
  obtain ⟨p, ss, md, slots, hthread⟩ := h.thread
  exact hthread.rest.inited

/-- A store outside what the thread owns. -/
theorem Inv.elsewhere_set (h : Inv k msr s) {a : Word} (ha : ¬ Own s.cpu.machine a) (v : Word) :
    Elsewhere s.cpu.machine { s.cpu.machine with mem := s.cpu.machine.mem.set a v } where
  gs := rfl
  inited := rfl
  saved := rfl
  page _ hx := ⟨s.cpu.machine.mem.set_of_ne fun heq => ha (heq ▸ ⟨h.inited, .inl hx⟩), rfl⟩
  region _ hx := ⟨s.cpu.machine.mem.set_of_ne fun heq => ha (heq ▸ ⟨h.inited, .inr hx⟩), rfl⟩

/-- The new activation lies below all others. -/
theorem Inv.below (h : Inv k msr s) {r : Word}
    (hr : ∀ f ∈ s.activations.head?, r.toNat < f.entry.toNat) :
    ∀ f ∈ s.activations, r.toNat < f.entry.toNat := by
  have hnested := h.nested
  cases hacts : s.activations with
  | nil => simp
  | cons g gs =>
      rw [hacts] at hr hnested
      intro f hf
      obtain rfl | hf := List.mem_cons.mp hf
      · exact hr f rfl
      · exact lt_trans (hr g rfl) ((List.pairwise_cons.mp hnested).1 f hf)

/-- The stack pointer of a call is not in the metadata. -/
theorem Inv.pushed_out (h : Inv k msr s) (hcalls : s.Calls k) :
    ¬ InRange s.cpu.machine.gs realMetaDataSize s.cpu.pushed :=
  fun hin => hcalls.outside ⟨h.inited, .inl hin⟩

/-- **A call** with the return address `v`: it is encoded in the slot. -/
theorem Inv.called (h : Inv k msr s) (hcalls : s.Calls k) (f v : Word) :
    Inv k msr ⟨s.cpu.called msr f v, s.entered v (s.cpu.called msr f v)⟩ := by
  have hpushed : Inv k msr (s.on (s.cpu.push v)) := h.elsewhere (h.elsewhere_set hcalls.outside v)
  have hmachine := prologue_push msr f (h.pushed_out hcalls) v
  have hword : (s.cpu.push v).mem.word s.cpu.pushed = v := s.cpu.machine.mem.set_self _ _
  have hstep : Step k msr (s.on (s.cpu.push v)).state (.prologue s.cpu.pushed) _ :=
    .prologue hcalls.inStack
  have hend : State.mk (prologue msr s.cpu.pushed (s.cpu.push v))
      (Function.update (live s.activations) s.cpu.pushed
        (some ((s.cpu.push v).mem.word s.cpu.pushed))) =
      state ⟨s.cpu.called msr f v, s.entered v (s.cpu.called msr f v)⟩ := by
    rw [hmachine, hword]
    rfl
  have hnested : (s.entered v (s.cpu.called msr f v)).Pairwise
      fun f g => f.entry.toNat < g.entry.toNat :=
    List.pairwise_cons.mpr ⟨h.below hcalls.below, h.nested⟩
  exact hpushed.act (a := .prologue s.cpu.pushed) hcalls.hasSlot (hend ▸ hstep) hnested

/-- Both ways to call get there, to states that differ in the return address only, which is behind
the one code or the other. -/
theorem Inv.call (h : Inv k msr s) (hcalls : s.Calls k) (f : Word) :
    runCode (plainCall msr f) s.cpu = .ok ((), s.cpu.called msr f (s.cpu.next (.call f))) ∧
      runCode (directCallCode msr f) s.cpu =
        .ok ((), s.cpu.called msr f (s.cpu.behind msr f)) := by
  obtain ⟨hslot, hown⟩ := h.slot hcalls.inStack hcalls.hasSlot
  have hne : s.cpu.callSlot ≠ s.cpu.pushed := fun heq => hcalls.outside (heq ▸ hown)
  exact ⟨run_plainCall h.mapped (h.pushed_out hcalls) hslot hcalls.mapped,
    run_directCall h.mapped hne hslot hcalls.mapped⟩

/-- The innermost activation is live. -/
theorem live_head (f : Activation) (fs : List Activation) :
    live (f :: fs) f.entry = some f.read := Function.update_self ..

theorem Inv.head (h : Inv k msr s) {f : Activation} {fs : List Activation}
    (hacts : s.activations = f :: fs) :
    k.InStack f.entry ∧ k.HasSlot f.entry ∧ epilogue msr f.entry s.cpu.machine = f.read := by
  obtain ⟨p, ss, md, slots, hthread⟩ := h.thread
  have hlive : s.state.live f.entry = some f.read := by
    rw [state, hacts]
    exact live_head f fs
  have hslot := hthread.slot _ _ hlive
  exact ⟨hslot.inStack, hslot.hasSlot, hthread.epilogue_eq hlive⟩

/-- **A tail jump** encodes what it finds at the entry of its activation. -/
theorem Inv.tailJump (h : Inv k msr s) {f : Activation} {fs : List Activation}
    (hacts : s.activations = f :: fs) (hrsp : s.cpu.rsp = f.entry)
    (hmapped : s.cpu.machine.mem.prot f.entry ≠ .none) (g : Word) :
    ∃ s', step msr (.tailJump g) s = .ok s' ∧ Inv k msr s' ∧
      s'.activations = { f with read := s.cpu.machine.mem.word f.entry } :: fs := by
  obtain ⟨hin, hslot, -⟩ := h.head hacts
  have hwritable := (h.slot hin hslot).1
  rw [← hrsp] at hmapped hwritable
  obtain ⟨c, hrun, hmachine⟩ : ∃ c, runCode (prologueCode msr) (s.cpu.jump g) = .ok ((), c) ∧
      c.machine = prologue msr f.entry s.cpu.machine :=
    ⟨_, run_prologue (c := s.cpu.jump g) msr h.mapped hmapped hwritable, by rw [← hrsp]; rfl⟩
  have hreread : Asm.Execution.reread (s.cpu.machine.mem.word s.cpu.rsp) s.activations =
      { f with read := s.cpu.machine.mem.word f.entry } :: fs := by
    rw [hacts, hrsp, Asm.Execution.reread]
  have hnested := h.nested
  rw [hacts] at hnested
  have hpair := List.pairwise_cons.mp hnested
  refine ⟨⟨c, _⟩, by simp only [step, inserted, hrun, hreread], ?_, rfl⟩
  have hlive : Function.update s.state.live f.entry (some (s.cpu.machine.mem.word f.entry)) =
      live ({ f with read := s.cpu.machine.mem.word f.entry } :: fs) := by
    rw [state, hacts]
    exact Function.update_idem ..
  refine h.act (a := .prologue f.entry) hslot ?_ (List.pairwise_cons.mpr ⟨hpair.1, hpair.2⟩)
  have hstate : s.state.machine = s.cpu.machine := rfl
  have hstep : Step k msr s.state (.prologue f.entry) _ := .prologue hin
  rw [hstate, hlive, ← hmachine] at hstep
  exact hstep

/-- **A return** goes to what the latest prologue of its activation has encoded. -/
theorem Inv.ret (h : Inv k msr s) {f : Activation} {fs : List Activation}
    (hacts : s.activations = f :: fs) (hrsp : s.cpu.rsp = f.entry) :
    ∃ s', step msr .ret s = .ok s' ∧ Inv k msr s' ∧ s'.cpu.rip = f.read ∧
      s'.cpu.rsp = f.entry + BitVec.ofNat 64 spaCpuWordLength ∧ s'.activations = fs := by
  obtain ⟨hin, hslot, hread⟩ := h.head hacts
  have hreadable : s.cpu.machine.mem.prot
      (s.cpu.rsp + s.cpu.machine.get s.cpu.machine.gs .diff) ≠ .none := by
    rw [hrsp, (h.slot hin hslot).1]
    simp
  obtain ⟨c, hrun, hmachine, hrip, hrsp'⟩ : ∃ c, runCode (epilogueCode msr) s.cpu = .ok ((), c) ∧
      c.machine = s.cpu.machine ∧ c.rip = epilogue msr s.cpu.rsp s.cpu.machine ∧
      c.rsp = s.cpu.rsp + BitVec.ofNat 64 spaCpuWordLength :=
    ⟨_, run_epilogue msr h.mapped hreadable, rfl, rfl, by simp [Cpu.rsp]⟩
  rw [hrsp] at hrip hrsp'
  have hnested := h.nested
  rw [hacts] at hnested
  have hpair := List.pairwise_cons.mp hnested
  have hleave : Function.update s.state.live f.entry none = live fs := by
    rw [state, hacts]
    exact live_leave hpair.1
  refine ⟨⟨c, fs⟩, by simp only [step, inserted, hrun, hacts, List.tail_cons], ?_,
    hrip.trans hread, hrsp', rfl⟩
  refine h.act (a := .leave f.entry) trivial ?_ hpair.2
  have hstep : Step k msr s.state (.leave f.entry) _ := .leave f.entry
  have hstate : s.state.machine = s.cpu.machine := rfl
  rw [hleave, hstate, ← hmachine] at hstep
  exact hstep

/-! ### Runs -/

/-- Every activation would return home: what its latest prologue has read is what its call has
pushed. -/
def ReadsHome (s : Execution) : Prop := ∀ f ∈ s.activations, f.read = f.home

theorem ReadsHome.entered (h : ReadsHome s) {v : Word} {c : Cpu} :
    ReadsHome ⟨c, s.entered v c⟩ := by
  intro f hf
  obtain rfl | hf := List.mem_cons.mp hf
  · rfl
  · exact h f hf

/-- **Every allowed event** keeps the invariant, and if a tail jump finds the return address
intact, the activations go on returning home. -/
theorem step_inv (e : Event) (s : Execution) (h : Inv k msr s) (he : Allowed k msr e s) :
    ∃ s', step msr e s = .ok s' ∧ Inv k msr s' ∧ (ReadsHome s → Intact e s → ReadsHome s') := by
  cases e with
  | compute regs rip flags =>
      exact ⟨_, rfl, ⟨h.thread, h.nested⟩, fun hhome _ => hhome⟩
  | elsewhere m => exact ⟨_, rfl, h.elsewhere he, fun hhome _ => hhome⟩
  | ratio v =>
      have hratio : Inv k msr (s.on (s.cpu.machine.set s.cpu.machine.gs .ratioFactor v)) :=
        h.act (a := .ratio v) trivial (.ratio v) h.nested
      exact ⟨_, rfl, hratio, fun hhome _ => hhome⟩
  | rerandomize env fuel rsp =>
      obtain ⟨hrsp, habove, hreturns, hcond⟩ := he
      obtain ⟨m, hrun⟩ := Option.isSome_iff_exists.mp hreturns
      refine ⟨s.on m, by simp only [step, hrun], ?_, fun hhome _ => hhome⟩
      have hlive : ∀ r, (s.state.live r).isSome = true → rsp.toNat ≤ r.toNat := by
        intro r hr
        obtain ⟨f, hf, rfl⟩ := live_isSome hr
        exact habove f hf
      refine h.act (a := .rerandomize env fuel rsp) ⟨?_, ?_⟩ (.rerandomize hrsp hlive hrun) h.nested
      · exact fun helapsed => (hcond helapsed).1
      · intro hmsr helapsed
        refine ((hcond helapsed).2 hmsr).imp_right fun hlow r hr => ?_
        obtain ⟨f, hf, rfl⟩ := live_isSome hr
        exact hlow f hf
  | call f =>
      obtain ⟨hrun, -⟩ := h.call he f
      exact ⟨_, by simp only [step, inserted, hrun], h.called he f (s.cpu.next (.call f)),
        fun hhome _ => hhome.entered⟩
  | directCall f =>
      obtain ⟨-, hrun⟩ := h.call he f
      exact ⟨_, by simp only [step, inserted, hrun], h.called he f (s.cpu.behind msr f),
        fun hhome _ => hhome.entered⟩
  | tailJump g =>
      obtain ⟨f, hf, hrsp, hmapped⟩ := he
      obtain ⟨fs, hacts⟩ : ∃ fs, s.activations = f :: fs := List.head?_eq_some_iff.mp hf
      obtain ⟨s', hstep, hinv, hacts'⟩ := h.tailJump hacts hrsp hmapped g
      refine ⟨s', hstep, hinv, fun hhome hintact f' hf' => ?_⟩
      rw [hacts'] at hf'
      obtain rfl | hf' := List.mem_cons.mp hf'
      · exact hintact f (by simp [hacts])
      · exact hhome f' (by simp [hacts, hf'])
  | ret =>
      obtain ⟨f, hf, hrsp⟩ := he
      obtain ⟨fs, hacts⟩ : ∃ fs, s.activations = f :: fs := List.head?_eq_some_iff.mp hf
      obtain ⟨s', hstep, hinv, -, -, hacts'⟩ := h.ret hacts hrsp
      exact ⟨s', hstep, hinv, fun hhome _ f' hf' => hhome f' (by simp [hacts, hacts' ▸ hf'])⟩

/-- **Return address integrity in the fs/gs mode.** In every run in which the value changes while
only activations below `r0` are live and each tail jump finds the return address of its
activation on the call stack, whatever else the process overwrites there: no event fails, and a
return goes to the address behind the call that created the activation. -/
theorem returns_home {s₀ : Execution} (h₀ : Initial k s₀) {es : List Event}
    (hes : Along (step msr) (fun e s => Allowed k msr e s ∧ Intact e s) es s₀) :
    ∃ s, runAll (step msr) es s₀ = .ok s ∧
      ∀ f fs, s.activations = f :: fs → s.cpu.rsp = f.entry →
        ∃ s', step msr .ret s = .ok s' ∧ s'.cpu.rip = f.home ∧
          s'.cpu.rsp = f.entry + BitVec.ofNat 64 spaCpuWordLength ∧ s'.activations = fs := by
  have hhome₀ : ReadsHome s₀ := fun f hf => by simp [h₀.2] at hf
  obtain ⟨s, hrun, hinv, hhome⟩ := run_keeps (I := fun s => Inv k msr s ∧ ReadsHome s)
    (fun e s hs he => by
      obtain ⟨s', hstep, hinv, hkeeps⟩ := step_inv e s hs.1 he.1
      exact ⟨s', hstep, hinv, hkeeps hs.2 he.2⟩) ⟨h₀.inv, hhome₀⟩ hes
  refine ⟨s, hrun, fun f fs hacts hrsp => ?_⟩
  obtain ⟨s', hstep, -, hrip, hrsp', hacts'⟩ := hinv.ret hacts hrsp
  exact ⟨s', hstep, hrip.trans (hhome f (by simp [hacts])), hrsp', hacts'⟩

end

/-! ### A run -/

/-- A machine with a page of the first call stack. -/
def stackMachine : Machine := emptyMachine.mapZero 0x7ffff7ffe000 4096

/-- What lies far below the page is free. -/
theorem stackMachine_fresh {a : Word} {n : Nat} (haligned : a.toNat % 4096 = 0)
    (hlow : a.toNat + 2 ^ 31 ≤ 0x7ffff7ffe000) (hn : n ≤ realShadowStackSize) :
    Fresh stackMachine a n := by
  have hsize : realShadowStackSize ≤ 2 ^ 31 := by decide
  refine ⟨haligned, by omega, fun i hi => if_neg ?_⟩
  unfold InRange
  bv_omega

/-- Memory that is free stays so when a mapping below is made. -/
theorem fresh_mapZero {m : Machine} {a b : Word} {n j : Nat} (h : Fresh m a n)
    (hn : n ≤ realShadowStackSize) (hj : j ≤ realShadowStackSize)
    (hab : b.toNat + 2 ^ 31 ≤ a.toNat) : Fresh (m.mapZero b j) a n := by
  have hlow := h.low
  exact ⟨h.aligned, hlow, fun i hi =>
    (if_neg (not_inRange_apart hj hn hab (by omega) hi)).trans (h.isFree i hi)⟩

/-- A thread that has been initialised, at a call. -/
theorem exists_started : ∃ s : Execution, Initial firstStack s ∧ s.Calls firstStack ∧
    s.cpu.rip = 0x401000 ∧ s.cpu.pushed = 0x7ffff7ffefc0 ∧
    Fresh s.cpu.machine 0x7f2000000000 realMetaDataSize ∧
    Fresh (s.cpu.machine.mapZero 0x7f2000000000 realMetaDataSize) 0x7f3000000000
      realShadowStackSize := by
  let m₀ : Machine := { stackMachine with inited := true }
  have hfree : ∀ x, stackMachine.mem.prot x = .none → m₀.mem.prot x = .none := fun _ hx => hx
  have hsmall : realMetaDataSize ≤ realShadowStackSize := by decide
  have hpage : ∀ a : Word, a.toNat % 4096 = 0 → a.toNat + 2 ^ 31 ≤ 0x7ffff7ffe000 →
      Fresh m₀ a realMetaDataSize := fun a haligned hlow =>
    (stackMachine_fresh haligned hlow hsmall).of_isFree hfree
  have hregion : ∀ a : Word, a.toNat % 4096 = 0 → a.toNat + 2 ^ 31 ≤ 0x7ffff7ffe000 →
      Fresh m₀ a realShadowStackSize := fun a haligned hlow =>
    (stackMachine_fresh haligned hlow le_rfl).of_isFree hfree
  have hss : Fresh (m₀.mapZero 0x7f0000000000 realMetaDataSize) 0x7f1000000000
      realShadowStackSize :=
    fresh_mapZero (hregion _ (by decide) (by decide)) le_rfl hsmall (by decide)
  obtain ⟨m, hinit, hprot⟩ := @exists_init (firstEnv 0 77 0x7f0000000000 0x7f1000000000)
    stackMachine 0x7f0000000000 0x7f1000000000 rfl (fun _ => rfl) (fun _ => rfl)
    (hpage _ (by decide) (by decide)) hss firstStack.r0 firstStack.stackLow firstStack.stackSize
  let m₂ : Machine := (m₀.mapZero 0x7f0000000000 realMetaDataSize).mapZero 0x7f1000000000
    realShadowStackSize
  have hkept : ∀ x, m₂.mem.prot x = .none → m.mem.prot x = .none := by
    rw [hprot]
    exact fun _ hx => hx
  have hnew : Fresh m₂ 0x7f2000000000 realMetaDataSize :=
    fresh_mapZero (fresh_mapZero (hpage _ (by decide) (by decide)) hsmall hsmall (by decide)) hsmall
      le_rfl (by decide)
  have hnss : Fresh (m₂.mapZero 0x7f2000000000 realMetaDataSize) 0x7f3000000000
      realShadowStackSize :=
    fresh_mapZero (fresh_mapZero (fresh_mapZero (hregion _ (by decide) (by decide)) le_rfl hsmall
      (by decide)) le_rfl le_rfl (by decide)) le_rfl hsmall (by decide)
  have hconf := confined_init (k := firstStack) rfl hinit
  have hmapped : stackMachine.mem.prot 0x7ffff7ffefc0 = .readWrite := by decide
  have hout : ¬ Reach stackMachine 0x7ffff7ffefc0 := by
    rintro (⟨hinited, -⟩ | hnone)
    · cases hinited
    · rw [hmapped] at hnone
      cases hnone
  let c : Cpu := ⟨fun _ => 0x7ffff7ffefc8, 0x401000, ⟨false, false, false, false, false, false⟩, m⟩
  have hsub : (0x7ffff7ffefc8 : Word) - BitVec.ofNat 64 spaCpuWordLength = 0x7ffff7ffefc0 := by
    decide
  have hpushed : c.pushed = 0x7ffff7ffefc0 := hsub
  refine ⟨⟨c, []⟩, ⟨⟨_, _, _, rfl, hinit⟩, rfl⟩, ⟨?_, ?_, ?_, ?_, by simp⟩, rfl, hsub,
    hnew.of_isFree hkept, hnss.of_isFree (Machine.mapZero_free hkept)⟩
  all_goals rw [hpushed]
  · exact ⟨by decide, by decide, by decide⟩
  · unfold Stack.HasSlot
    decide
  · exact (hconf.kept _ hout).2.trans hmapped
  · exact fun hown => hout (hconf.owned _ hown)

/-- A function is called, its return address overwritten, the value and the regions change, and
it returns. -/
theorem returns_home_changed :
    ∃ s₀ m s f s', Initial firstStack s₀ ∧
      runAll (step true) [.call 0x402000, .elsewhere m, .rerandomize changeEnv 1 firstRsp] s₀ =
        .ok s ∧
      s.activations = [f] ∧ m.mem.word f.entry = 0x666000 ∧ step true .ret s = .ok s' ∧
      s'.cpu.rip = 0x401005 := by
  obtain ⟨s, hinit, hcalls, hrip, hpushed, hnew, hnss⟩ := exists_started
  have h : Inv firstStack true s := hinit.inv
  have hnil : s.activations = [] := hinit.2
  have hnext : s.cpu.next (.call 0x402000) = 0x401005 := by
    rw [Cpu.next, hrip]
    decide
  obtain ⟨hcall, -⟩ := h.call hcalls 0x402000
  rw [hnext] at hcall
  let s₁ : Execution := ⟨s.cpu.called true 0x402000 0x401005,
    s.entered 0x401005 (s.cpu.called true 0x402000 0x401005)⟩
  have hstep₁ : step true (.call 0x402000) s = .ok s₁ := by
    simp only [step, inserted, hnext, hcall, s₁]
  have h₁ : Inv firstStack true s₁ := h.called hcalls 0x402000 0x401005
  let m : Machine :=
    { s₁.cpu.machine with mem := s₁.cpu.machine.mem.set s.cpu.pushed 0x666000 }
  have helsewhere : Elsewhere s₁.cpu.machine m := h₁.elsewhere_set hcalls.outside 0x666000
  have h₂ : Inv firstStack true (s₁.on m) := h₁.elsewhere helsewhere
  obtain ⟨p, ss, md, slots, hthread⟩ := h₂.thread
  obtain ⟨m₃, hreturns⟩ := hthread.rest.returns true changeEnv inStack_firstRsp (fun _ => rfl)
    (fun _ => rfl) (hnew.of_isFree fun _ hx => hx) (hnss.of_isFree fun _ hx => hx)
  have hrun₃ : fsgsRuntimeRerandomize true changeEnv 1 firstRsp m = some m₃ :=
    (hthread.rest.call_eq ..).trans hreturns
  have hstep₃ : step true (.rerandomize changeEnv 1 firstRsp) (s₁.on m) = .ok (s₁.on m₃) := by
    have hmachine : (s₁.on m).cpu.machine = m := rfl
    simp only [step, hmachine, hrun₃]
    rfl
  have hentry : (s.cpu.called true 0x402000 0x401005).rsp = 0x7ffff7ffefc0 := by
    rw [← hpushed]
    simp [Cpu.called, Cpu.rsp]
  have hacts : s₁.activations = [⟨0x7ffff7ffefc0, 0x401005, 0x401005⟩] := by
    simp only [s₁, entered, hnil, hentry]
  have hchange : Allowed firstStack true (.rerandomize changeEnv 1 firstRsp) (s₁.on m) := by
    have hacts' : (s₁.on m).activations = _ := hacts
    refine ⟨inStack_firstRsp, ?_, by simp [on, hrun₃], fun _ => ⟨fun _ => rfl, fun _ => .inr ?_⟩⟩
    · rw [hacts']
      simp [firstRsp]
    · rw [hacts']
      simp [firstStack]
  have halong : Along (step true) (fun e s => Allowed firstStack true e s ∧ Intact e s)
      [.call 0x402000, .elsewhere m, .rerandomize changeEnv 1 firstRsp] s :=
    .cons ⟨hcalls, trivial⟩ hstep₁ (.cons ⟨helsewhere, trivial⟩ rfl
      (.cons ⟨hchange, trivial⟩ hstep₃ trivial))
  obtain ⟨s₃, hrun, hreturn⟩ := returns_home hinit halong
  have hstep₂ : step true (.elsewhere m) s₁ = .ok (s₁.on m) := rfl
  rw [runAll_cons hstep₁, runAll_cons hstep₂, runAll_cons hstep₃, runAll_nil] at hrun
  obtain rfl := Except.ok.inj hrun
  obtain ⟨s', hret, hhome, -, -⟩ := hreturn _ [] hacts hentry
  refine ⟨s, m, s₁.on m₃, _, s', hinit, ?_, hacts, ?_, hret, hhome⟩
  · rw [runAll_cons hstep₁, runAll_cons hstep₂, runAll_cons hstep₃, runAll_nil]
  · rw [← hpushed]
    exact s₁.cpu.machine.mem.set_self _ _

end Execution

end FlashStack.FsGs
