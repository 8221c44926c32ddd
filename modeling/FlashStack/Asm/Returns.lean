/-
Where returns go.

An execution of instrumented code is a run of events: calls and tail jumps, each followed by
the prologue of the function entered; return sequences; and whatever the bodies do in
between, which may overwrite any part of the call stack. An activation remembers where it
was called from, `home`, and the word that its latest prologue `read`.

* `Inv.ret`: a return goes to what the latest prologue of its activation has read;
* `return_address_integrity`: if no tail jump finds its return address overwritten, every
  return goes home;
* `tail_jump_rereads`: a tail jump that finds it overwritten takes the planted value for the
  return address.

The invariant `Inv` ties the activations to the machine: the slot of each holds what it has
read, their entries are on the call stack, and inner ones lie below outer ones. Each event
keeps it (`step_inv`), and a run does by induction. The bodies are not code here: they may
set any register and write anything but shadow stacks, and re-randomizations happen between
events and complete. That a thread may be interrupted inside a sequence is the subject of
the modules on signals and on teams.
-/

import FlashStack.Lib.Events
import FlashStack.Asm.Alike
import FlashStack.Asm.Sequences

namespace FlashStack.Asm

open Lib.Memory Lib.Program Lib.Events FlashStack.Runtime

/-- A function that has been entered and has not returned. A tail jump keeps the activation and
enters another function in it. -/
structure Activation where
  /-- The stack pointer at its entry. -/
  entry : Word
  /-- The address behind the call that created it. -/
  home : Word
  /-- The word at `entry` when its latest prologue ran. -/
  read : Word

/-- The CPU, and the activations from the innermost on. The instructions do not see them. -/
structure Execution where
  cpu : Cpu
  activations : List Activation

namespace Execution

inductive Event where
  /-- The body computes: any registers. -/
  | compute (regs : Reg → Word) (rip : Word) (flags : Flags)
  /-- The body writes `n` bytes. -/
  | write (a : Word) (n v : Nat)
  | rerandomize (rsp rspAlloc : Word) (env : Env)
  /-- `callq g` and the prologue of `g`. -/
  | call (g : Word)
  /-- `jmp g` and the prologue of `g`. -/
  | tailJump (g : Word)
  /-- The epilogue. -/
  | ret

/-- The innermost activation has run a prologue again, which has taken what stands on the call
stack for the return address. -/
def reread (v : Word) : List Activation → List Activation
  | [] => []
  | f :: fs => { f with read := v } :: fs

def act (t : Tid) (a : Action) (s : Execution) : Except Fault Execution :=
  match a.step t s.cpu.machine with
  | .error e => .error e
  | .ok m => .ok { s with cpu := s.cpu.on m }

def step (t : Tid) : Event → Execution → Except Fault Execution
  | .compute regs rip flags, s =>
      .ok { s with cpu := { s.cpu with regs := regs, rip := rip, flags := flags } }
  | .write a n v, s => act t (.write a n v) s
  | .rerandomize rsp rspAlloc env, s => act t (.rerandomize rsp rspAlloc env) s
  | .call g, s =>
      match runCode t (.call g :: prologue) s.cpu with
      | .error e => .error e
      | .ok (_, c) =>
          .ok { cpu := c, activations := ⟨c.rsp, s.cpu.next (.call g), s.cpu.next (.call g)⟩ ::
            s.activations }
  | .tailJump g, s =>
      match runCode t (.jmp g :: prologue) s.cpu with
      | .error e => .error e
      | .ok (_, c) =>
          .ok { cpu := c, activations :=
            reread ((load64 s.cpu.machine.mem s.cpu.rsp).getD 0) s.activations }
  | .ret, s =>
      match runCode t epilogue s.cpu with
      | .error e => .error e
      | .ok (_, c) => .ok { cpu := c, activations := s.activations.tail }

/-- What compiled code does: it calls from below its entry, on mapped memory of the call
stack, and leaves a function with the stack pointer back at the entry. The shadow stack
is not written, and re-randomizations complete. -/
def Allowed (t : Tid) (r0 : Word) : Event → Execution → Prop
  | .compute _ _ _, _ => True
  | .write a n _, s => OutsideShadow s.cpu.machine a n
  | .rerandomize rsp rspAlloc env, s =>
      BelowStart r0 rsp ∧ (Action.rerandomize rsp rspAlloc env).Completes t s.cpu.machine
  | .call _, s =>
      HasSlot r0 (s.cpu.rsp - BitVec.ofNat 64 spaCpuWordLength) ∧
        OwnedBy s.cpu.machine.mem .other (s.cpu.rsp - BitVec.ofNat 64 spaCpuWordLength) 8 ∧
        ∀ f ∈ s.activations.head?,
          stackOffset r0 (s.cpu.rsp - BitVec.ofNat 64 spaCpuWordLength) < stackOffset r0 f.entry
  | .tailJump _, s => ∃ f ∈ s.activations.head?, s.cpu.rsp = f.entry
  | .ret, s => ∃ f ∈ s.activations.head?, s.cpu.rsp = f.entry

/-- A tail jump finds the return address of its activation on the call stack. -/
def Intact : Event → Execution → Prop
  | .tailJump _, s =>
      ∀ f ∈ s.activations.head?, load64 s.cpu.machine.mem f.entry = some f.home
  | _, _ => True

/-- A thread before its first instrumented call: it has its shadow stack, and no activation. What
its slots hold is of no importance. -/
def Initial (t : Tid) (r0 : Word) (s : Execution) : Prop :=
  (∃ ss slots, ThreadAt s.cpu.machine t r0 ss slots) ∧ s.activations = []

/-! ### The invariant -/

/-- Every activation has its word on the call stack and, in its slot, what its latest
prologue has read. Inner activations lie below outer ones. -/
structure Inv (t : Tid) (r0 : Word) (s : Execution) : Prop where
  thread : ∃ ss slots, ThreadAt s.cpu.machine t r0 ss slots ∧
    ∀ f ∈ s.activations, slots f.entry = some f.read
  words : ∀ f ∈ s.activations, OwnedBy s.cpu.machine.mem .other f.entry 8
  nested : s.activations.Pairwise fun f g => stackOffset r0 f.entry < stackOffset r0 g.entry

section

variable {t : Tid} {r0 : Word} {s : Execution}

theorem Initial.inv (h : Initial t r0 s) : Inv t r0 s := by
  obtain ⟨⟨ss, slots, hthread⟩, hnil⟩ := h
  refine ⟨⟨ss, slots, hthread, ?_⟩, ?_, ?_⟩
  · simp [hnil]
  · simp [hnil]
  · simp [hnil]

/-- An action of the body, which is neither a prologue nor an epilogue. -/
theorem Inv.act (h : Inv t r0 s) {a : Action} (ha : a.Allowed r0 s.cpu.machine)
    (hdone : a.Completes t s.cpu.machine) (hrecord : ∀ slots, a.record slots = slots) :
    ∃ s', Execution.act t a s = .ok s' ∧ Inv t r0 s' ∧ s'.activations = s.activations := by
  obtain ⟨ss, slots, hthread, hslots⟩ := h.thread
  obtain ⟨m, hstep, hthread', -, -, hkept⟩ := Action.step_thread hthread ha hdone
  rw [hrecord] at hthread'
  refine ⟨{ s with cpu := s.cpu.on m }, by rw [Execution.act, hstep], ⟨⟨_, slots, hthread', hslots⟩,
    fun f hf => Action.keeps_other hstep hkept (h.words f hf), h.nested⟩, rfl⟩

/-- The first activation lies below all others, and therefore has a slot of its own. -/
theorem Inv.nested_cons (h : Inv t r0 s) {entry : Word}
    (hbelow : ∀ f ∈ s.activations.head?, stackOffset r0 entry < stackOffset r0 f.entry) :
    ∀ f ∈ s.activations, stackOffset r0 entry < stackOffset r0 f.entry := by
  intro f hf
  have hnested := h.nested
  cases hacts : s.activations with
  | nil =>
      rw [hacts] at hf
      cases hf
  | cons g gs =>
      rw [hacts] at hf hbelow hnested
      have hg := hbelow g rfl
      obtain rfl | hf := List.mem_cons.mp hf
      · exact hg
      · exact lt_trans hg ((List.pairwise_cons.mp hnested).1 f hf)

/-- **A call** creates an activation whose slot holds the address behind the call. -/
theorem Inv.call (h : Inv t r0 s) {g : Word} (ha : Allowed t r0 (.call g) s) :
    ∃ s', step t (.call g) s = .ok s' ∧ Inv t r0 s' ∧
      s'.cpu.rsp = s.cpu.rsp - BitVec.ofNat 64 spaCpuWordLength ∧
      s'.activations = ⟨s'.cpu.rsp, s.cpu.next (.call g), s.cpu.next (.call g)⟩ ::
        s.activations := by
  obtain ⟨hslot, hword, hbelow⟩ := ha
  have hlower := h.nested_cons hbelow
  obtain ⟨ss, slots, hthread, hslots⟩ := h.thread
  have hexec := exec_call (t := t) g hword.mapped
  let c₁ : Cpu := ((s.cpu.on (s.cpu.machine.withMem (storeN s.cpu.machine.mem
    (s.cpu.rsp - BitVec.ofNat 64 spaCpuWordLength) 8 (s.cpu.next (.call g)).toNat))).setReg .rsp
      (s.cpu.rsp - BitVec.ofNat 64 spaCpuWordLength)).jump g
  have hrsp₁ : c₁.rsp = s.cpu.rsp - BitVec.ofNat 64 spaCpuWordLength := rfl
  have hthread₁ : ThreadAt c₁.machine t r0 ss slots := hthread.store_other hword _
  have hload₁ : load64 c₁.machine.mem c₁.rsp = some (s.cpu.next (.call g)) :=
    load64_storeN_self hword.mapped
  obtain ⟨c₂, hrun, -, hthread₂, hkept, hrsp₂, -⟩ := prologue_step hthread₁ hslot hload₁
  have howned : ∀ x, OwnedBy s.cpu.machine.mem .other x 8 → OwnedBy c₂.machine.mem .other x 8 :=
    fun x hx k hk => (hkept.ownerOf_iff (by simp) _).mp (ownedBy_storeN.mpr hx k hk)
  have hstep : step t (.call g) s = .ok { cpu := c₂, activations :=
      ⟨c₂.rsp, s.cpu.next (.call g), s.cpu.next (.call g)⟩ :: s.activations } := by
    simp only [step, runCode_cons hexec, hrun, c₁]
  refine ⟨_, hstep, ⟨⟨ss, _, hthread₂, ?_⟩, ?_, ?_⟩, hrsp₂.trans hrsp₁, rfl⟩
  · intro f hf
    obtain rfl | hf := List.mem_cons.mp hf
    · rw [hrsp₂]
      exact Function.update_self _ _ _
    · have hne : f.entry ≠ c₁.rsp := by
        intro heq
        have hlt := hlower f hf
        rw [heq, hrsp₁] at hlt
        exact lt_irrefl _ hlt
      rw [Function.update_of_ne hne]
      exact hslots f hf
  · intro f hf
    obtain rfl | hf := List.mem_cons.mp hf
    · rw [hrsp₂]
      exact howned _ hword
    · exact howned _ (h.words f hf)
  · refine List.pairwise_cons.mpr ⟨fun f hf => ?_, h.nested⟩
    rw [hrsp₂]
    exact hlower f hf

/-- **A tail jump** rereads the word at the entry of its activation, and stores it in the slot;
the activation stays. -/
theorem Inv.tailJump (h : Inv t r0 s) {g : Word} (ha : Allowed t r0 (.tailJump g) s) :
    ∃ s' f fs v, step t (.tailJump g) s = .ok s' ∧ Inv t r0 s' ∧ s.activations = f :: fs ∧
      load64 s.cpu.machine.mem f.entry = some v ∧ s'.cpu.rsp = f.entry ∧
      s'.activations = { f with read := v } :: fs := by
  obtain ⟨f, hf, hrsp⟩ := ha
  obtain ⟨fs, hacts⟩ : ∃ fs, s.activations = f :: fs := List.head?_eq_some_iff.mp hf
  obtain ⟨ss, slots, hthread, hslots⟩ := h.thread
  have hmem : f ∈ s.activations := by simp [hacts]
  obtain ⟨v, hload⟩ := load64_isSome (h.words f hmem).mapped
  have hslot : HasSlot r0 s.cpu.rsp := by
    obtain ⟨md, hstack, -⟩ := hthread
    rw [hrsp]
    exact (hstack.holds f.entry f.read (hslots f hmem)).1
  have hthread₁ : ThreadAt (s.cpu.jump g).machine t r0 ss slots := hthread
  have hload₁ : load64 (s.cpu.jump g).machine.mem (s.cpu.jump g).rsp = some v := by
    rw [← hload, ← hrsp]
    rfl
  obtain ⟨c₂, hrun, -, hthread₂, hkept, hrsp₂, -⟩ := prologue_step hthread₁ hslot hload₁
  have hrsp₂' : c₂.rsp = f.entry := hrsp₂.trans hrsp
  have hstep : step t (.tailJump g) s = .ok { cpu := c₂, activations :=
      { f with read := v } :: fs } := by
    have hexec : Instr.exec t (.jmp g) s.cpu = .ok ((), s.cpu.jump g) := rfl
    simp only [step, runCode_cons hexec, hrun, hacts, reread]
    rw [hrsp, hload]
    rfl
  have hnested := h.nested
  rw [hacts] at hnested
  have hpair := List.pairwise_cons.mp hnested
  refine ⟨_, f, fs, v, hstep, ⟨⟨ss, _, hthread₂, ?_⟩, ?_, ?_⟩, hacts, hload, hrsp₂', rfl⟩
  · intro f' hf'
    obtain rfl | hf' := List.mem_cons.mp hf'
    · have heq : (s.cpu.jump g).rsp = f.entry := hrsp
      rw [heq]
      exact Function.update_self _ _ _
    · have hne : f'.entry ≠ (s.cpu.jump g).rsp := by
        intro heq
        have hlt := hpair.1 f' hf'
        rw [heq.trans hrsp] at hlt
        exact lt_irrefl _ hlt
      rw [Function.update_of_ne hne]
      exact hslots f' (by simp [hacts, hf'])
  · intro f' hf' k hk
    refine (hkept.ownerOf_iff (by simp) _).mp ?_
    obtain rfl | hf' := List.mem_cons.mp hf'
    · exact h.words f hmem k hk
    · exact h.words f' (by simp [hacts, hf']) k hk
  · exact List.pairwise_cons.mpr ⟨hpair.1, hpair.2⟩

/-- **A return** goes to what the latest prologue of its activation has read. -/
theorem Inv.ret (h : Inv t r0 s) {f : Activation} {fs : List Activation}
    (hacts : s.activations = f :: fs) (hrsp : s.cpu.rsp = f.entry) :
    ∃ s', step t .ret s = .ok s' ∧ Inv t r0 s' ∧ s'.cpu.rip = f.read ∧ s'.activations = fs ∧
      s'.cpu.rsp = f.entry + BitVec.ofNat 64 spaCpuWordLength := by
  obtain ⟨ss, slots, hthread, hslots⟩ := h.thread
  have hv : slots s.cpu.rsp = some f.read := by
    rw [hrsp]
    exact hslots f (by simp [hacts])
  obtain ⟨c', hrun, -, hm, hrsp', hrip⟩ := epilogue_step hthread hv
  have hnested := h.nested
  rw [hacts] at hnested
  refine ⟨⟨c', fs⟩, by simp only [step, hrun, hacts, List.tail_cons], ⟨⟨ss, slots, ?_, ?_⟩, ?_, ?_⟩,
    hrip, rfl, by rw [hrsp', hrsp]⟩
  · rw [hm]
    exact hthread
  · exact fun f' hf' => hslots f' (by simp [hacts, hf'])
  · intro f' hf'
    rw [hm]
    exact h.words f' (by simp [hacts, hf'])
  · exact (List.pairwise_cons.mp hnested).2

/-! ### Runs -/

/-- Every activation would return home: the word that its latest prologue has read is the address
behind its call. -/
def ReadsHome (s : Execution) : Prop := ∀ f ∈ s.activations, f.read = f.home

/-- Every allowed event keeps the invariant, and if a tail jump finds the return
address intact, the activations go on returning home. -/
theorem step_inv (e : Event) (s : Execution) (h : Inv t r0 s) (ha : Allowed t r0 e s) :
    ∃ s', step t e s = .ok s' ∧ Inv t r0 s' ∧ (ReadsHome s → Intact e s → ReadsHome s') := by
  cases e with
  | compute regs rip flags =>
      exact ⟨_, rfl, ⟨h.thread, h.words, h.nested⟩, fun hhome _ => hhome⟩
  | write a n v =>
      obtain ⟨s', hstep, hinv, hacts⟩ := h.act (a := .write a n v) ha trivial fun _ => rfl
      exact ⟨s', hstep, hinv, fun hhome _ f hf => hhome f (hacts ▸ hf)⟩
  | rerandomize rsp rspAlloc env =>
      obtain ⟨s', hstep, hinv, hacts⟩ :=
        h.act (a := .rerandomize rsp rspAlloc env) ha.1 ha.2 fun _ => rfl
      exact ⟨s', hstep, hinv, fun hhome _ f hf => hhome f (hacts ▸ hf)⟩
  | call g =>
      obtain ⟨s', hstep, hinv, -, hacts⟩ := h.call ha
      refine ⟨s', hstep, hinv, fun hhome _ f hf => ?_⟩
      rw [hacts] at hf
      obtain rfl | hf := List.mem_cons.mp hf
      · rfl
      · exact hhome f hf
  | tailJump g =>
      obtain ⟨s', f, fs, v, hstep, hinv, hold, hload, -, hacts⟩ := h.tailJump ha
      refine ⟨s', hstep, hinv, fun hhome hintact f' hf' => ?_⟩
      rw [hacts] at hf'
      obtain rfl | hf' := List.mem_cons.mp hf'
      · have hhomeword := hintact f (by simp [hold])
        rw [hload] at hhomeword
        exact Option.some.inj hhomeword
      · exact hhome f' (by simp [hold, hf'])
  | ret =>
      obtain ⟨f, hf, hrsp⟩ := ha
      obtain ⟨fs, hold⟩ : ∃ fs, s.activations = f :: fs := List.head?_eq_some_iff.mp hf
      obtain ⟨s', hstep, hinv, -, hacts, -⟩ := h.ret hold hrsp
      exact ⟨s', hstep, hinv, fun hhome _ f' hf' => hhome f' (by simp [hold, hacts ▸ hf'])⟩

/-- **Return address integrity.** In every run in which each tail jump finds the return
address of its activation on the call stack, whatever else the bodies overwrite: no
event fails, and a return goes to the address behind the call that created the
activation. -/
theorem return_address_integrity {s₀ : Execution} (h₀ : Initial t r0 s₀) {es : List Event}
    (hes : Along (step t) (fun e s => Allowed t r0 e s ∧ Intact e s) es s₀) :
    ∃ s, runAll (step t) es s₀ = .ok s ∧
      ∀ f fs, s.activations = f :: fs → s.cpu.rsp = f.entry →
        ∃ s', step t .ret s = .ok s' ∧ s'.cpu.rip = f.home ∧ s'.activations = fs := by
  have hhome₀ : ReadsHome s₀ := fun f hf => by simp [h₀.2] at hf
  obtain ⟨s, hrun, hinv, hhome⟩ := run_keeps (I := fun s => Inv t r0 s ∧ ReadsHome s)
    (fun e s hs he => by
      obtain ⟨s', hstep, hinv, hkeeps⟩ := step_inv e s hs.1 he.1
      exact ⟨s', hstep, hinv, hkeeps hs.2 he.2⟩) ⟨h₀.inv, hhome₀⟩ hes
  refine ⟨s, hrun, fun f fs hacts hrsp => ?_⟩
  obtain ⟨s', hstep, -, hrip, hacts', -⟩ := hinv.ret hacts hrsp
  exact ⟨s', hstep, hrip.trans (hhome f (by simp [hacts])), hacts'⟩

/-! ### A planted return address -/

/-- A function at its entry writes `v` over its return address. The invariant does not speak of
this word, and holds on. -/
theorem Inv.overwrite (h : Inv t r0 s) {f : Activation} {fs : List Activation}
    (hacts : s.activations = f :: fs) (hrsp : s.cpu.rsp = f.entry) (v : Word) :
    ∃ s', Allowed t r0 (.write f.entry 8 v.toNat) s ∧
      step t (.write f.entry 8 v.toNat) s = .ok s' ∧ Inv t r0 s' ∧ s'.activations = f :: fs ∧
      s'.cpu.rsp = f.entry ∧ load64 s'.cpu.machine.mem f.entry = some v := by
  have hword : OwnedBy s.cpu.machine.mem .other f.entry 8 := h.words f (by simp [hacts])
  have hout : OutsideShadow s.cpu.machine f.entry 8 := outsideShadow_of_other hword
  obtain ⟨s', hwrite, hinv, hacts'⟩ :=
    h.act (a := .write f.entry 8 v.toNat) hout trivial fun _ => rfl
  obtain rfl : (⟨s.cpu.on (s.cpu.machine.withMem
      (storeN s.cpu.machine.mem f.entry 8 v.toNat)), s.activations⟩ : Execution) = s' :=
    Except.ok.inj hwrite
  exact ⟨_, hout, hwrite, hinv, hacts'.trans hacts, hrsp, load64_storeN_self hword.mapped⟩

/-- Call `g` and write `v` over its return address, as its body may once the prologue is done. -/
def callAndOverwrite (g v : Word) (s : Execution) : List Event :=
  [.call g, .write (s.cpu.rsp - BitVec.ofNat 64 spaCpuWordLength) 8 v.toNat]

theorem callAndOverwrite_run (h : Inv t r0 s) {g : Word} (ha : Allowed t r0 (.call g) s)
    (v : Word) :
    ∃ s₁ f, Along (step t) (Allowed t r0) (callAndOverwrite g v s) s ∧
      runAll (step t) (callAndOverwrite g v s) s = .ok s₁ ∧ Inv t r0 s₁ ∧
      s₁.activations = f :: s.activations ∧ f.home = s.cpu.next (.call g) ∧
      f.entry = s.cpu.rsp - BitVec.ofNat 64 spaCpuWordLength ∧
      s₁.cpu.rsp = f.entry ∧ load64 s₁.cpu.machine.mem f.entry = some v := by
  obtain ⟨s₁, hcall, hinv₁, hrsp₁, hacts₁⟩ := h.call ha
  obtain ⟨s₂, hout, hwrite, hinv₂, hacts₂, hrsp₂, hload₂⟩ := hinv₁.overwrite hacts₁ rfl v
  rw [callAndOverwrite, ← hrsp₁]
  refine ⟨s₂, _, .cons ha hcall (.cons hout hwrite trivial), ?_, hinv₂, hacts₂, rfl, rfl, hrsp₂,
    hload₂⟩
  rw [runAll_cons hcall, runAll_cons hwrite, runAll_nil]

/-- A function that is called, finds `v` written over its return address, and leaves by
a tail jump: the return of the function it jumps to goes to `v`. -/
theorem tail_jump_rereads (h : Inv t r0 s) {g : Word} (ha : Allowed t r0 (.call g) s)
    (v g' : Word) :
    ∃ s₁ s' f, Along (step t) (Allowed t r0) (callAndOverwrite g v s ++ [.tailJump g']) s ∧
      runAll (step t) (callAndOverwrite g v s ++ [.tailJump g']) s = .ok s₁ ∧
      s₁.activations = f :: s.activations ∧ f.home = s.cpu.next (.call g) ∧
      s₁.cpu.rsp = f.entry ∧ step t .ret s₁ = .ok s' ∧ s'.cpu.rip = v := by
  obtain ⟨s₁, f, halong, hrun, hinv₁, hacts₁, hhome, -, hrsp₁, hload₁⟩ :=
    callAndOverwrite_run h ha v
  have hjump : Allowed t r0 (.tailJump g') s₁ := ⟨f, by simp [hacts₁], hrsp₁⟩
  obtain ⟨s₂, f', fs, w, hstep, hinv₂, hold, hload, hrsp₂, hacts₂⟩ := hinv₁.tailJump hjump
  rw [hacts₁] at hold
  obtain ⟨rfl, rfl⟩ := List.cons.inj hold
  obtain rfl : v = w := Option.some.inj (hload₁.symm.trans hload)
  obtain ⟨s', hret, -, hrip, -⟩ := hinv₂.ret hacts₂ hrsp₂
  refine ⟨s₂, s', _, halong.append hrun (.cons hjump hstep trivial), ?_, hacts₂, hhome, hrsp₂,
    hret, hrip⟩
  rw [runAll_append hrun, runAll_cons hstep, runAll_nil]

/-- The same function puts its return address back before it jumps. -/
def callAndRestore (g v g' : Word) (s : Execution) : List Event :=
  callAndOverwrite g v s ++
    [.write (s.cpu.rsp - BitVec.ofNat 64 spaCpuWordLength) 8 (s.cpu.next (.call g)).toNat,
      .tailJump g']

theorem callAndOverwrite_intact (g v : Word) (s : Execution) :
    Along (step t) Intact (callAndOverwrite g v s) s := by
  refine along_of_forall (fun e he s' => ?_) s
  simp only [callAndOverwrite, List.mem_cons, List.not_mem_nil, or_false] at he
  rcases he with rfl | rfl
  · trivial
  · trivial

/-- The tail jump finds the return address restored, so that the slot holds it again and the
function returns home. -/
theorem callAndRestore_run (h : Inv t r0 s) {g : Word} (ha : Allowed t r0 (.call g) s)
    (v g' : Word) :
    ∃ s₁ f, Along (step t) (fun e s => Allowed t r0 e s ∧ Intact e s)
        (callAndRestore g v g' s) s ∧
      runAll (step t) (callAndRestore g v g' s) s = .ok s₁ ∧
      s₁.activations = f :: s.activations ∧ f.home = s.cpu.next (.call g) ∧
      s₁.cpu.rsp = f.entry := by
  obtain ⟨s₁, f, halong, hrun, hinv₁, hacts₁, hhome, hentry, hrsp₁, -⟩ :=
    callAndOverwrite_run h ha v
  obtain ⟨s₂, hout, hwrite, hinv₂, hacts₂, hrsp₂, hload₂⟩ :=
    hinv₁.overwrite hacts₁ hrsp₁ f.home
  have hjump : Allowed t r0 (.tailJump g') s₂ := ⟨f, by simp [hacts₂], hrsp₂⟩
  have hintact : Intact (.tailJump g') s₂ := fun f' hf' => by
    rw [hacts₂] at hf'
    obtain rfl := Option.some.inj hf'
    exact hload₂
  obtain ⟨s₃, f', fs, w, hstep, -, hold, -, hrsp₃, hacts₃⟩ := hinv₂.tailJump hjump
  rw [hacts₂] at hold
  obtain ⟨rfl, rfl⟩ := List.cons.inj hold
  rw [callAndRestore, ← hentry, ← hhome]
  refine ⟨s₃, _, ?_, ?_, hacts₃, rfl, hrsp₃⟩
  · exact (halong.and (callAndOverwrite_intact g v s)).append hrun
      (.cons ⟨hout, trivial⟩ hwrite (.cons ⟨hjump, hintact⟩ hstep trivial))
  · rw [runAll_append hrun, runAll_cons hwrite, runAll_cons hstep, runAll_nil]

end

/-- A thread started at `0x7FFFFFFFE000` that runs in a page of its call stack. -/
def beforeCall : Execution where
  cpu :=
    { regs := fun _ => 0x7FFFFFFFB808
      rip := 0x401000
      flags := ⟨false, false, false, false, false, false⟩
      machine := (Machine.started 0 0x7FFFFFFFE000 0x10000000).withMem
        (mapZero (Machine.started 0 0x7FFFFFFFE000 0x10000000).mem .other 0x7FFFFFFFB000 4096) }
  activations := []

/-- The page of the call stack does not meet the region. -/
theorem beforeCall_apart (x : Word) (hx : InRange 0x7FFFFFFFB000 4096 x) :
    ¬ InRange 0x10000000 realShadowStackSize x := by
  have hsize : realShadowStackSize = 10485760 := by decide
  rw [hsize]
  unfold InRange at *
  bv_omega

/-- Its region is as the initialisation has left it. -/
theorem beforeCall_coherent :
    Coherent beforeCall.cpu.machine 0 0x7FFFFFFFE000 0x10000000
      (initialMetadata 0x10000000 (initDiff 0x10000000 0x7FFFFFFFE000)) fun _ => 0 := by
  have haligned : (0x10000000 : Word).toNat % 2 ^ 23 = 0 := by decide
  refine (started_coherent 0 0x7FFFFFFFE000 haligned).of_undisturbed ⟨?_, rfl⟩
  exact kept_mapOther ((free_iff (by decide)).mp (started_free (by decide) beforeCall_apart)) 0

theorem beforeCall_initial : Initial 0 0x7FFFFFFFE000 beforeCall :=
  ⟨⟨0x10000000, fun _ => none, System.threadAt_of_coherent beforeCall_coherent (by decide)⟩, rfl⟩

theorem beforeCall_call (g : Word) : Allowed 0 0x7FFFFFFFE000 (.call g) beforeCall := by
  have hrsp : beforeCall.cpu.rsp - BitVec.ofNat 64 spaCpuWordLength = 0x7FFFFFFFB800 := by decide
  have hslot : HasSlot 0x7FFFFFFFE000 0x7FFFFFFFB800 := ⟨by decide, by decide⟩
  refine ⟨by rw [hrsp]; exact hslot, ?_, by simp [beforeCall]⟩
  rw [hrsp, ownedBy_iff (by decide)]
  intro x hx
  have hin : InRange 0x7FFFFFFFB000 4096 x := by
    unfold InRange at *
    bv_omega
  simp only [beforeCall, Machine.withMem_mem, ownerOf, mapZero_inside hin, Option.map_some]

/-- **A tail jump after a corrupted return address** returns to the planted value. -/
theorem return_address_planted :
    ∃ es s f fs s', Initial 0 0x7FFFFFFFE000 beforeCall ∧
      Along (step 0) (Allowed 0 0x7FFFFFFFE000) es beforeCall ∧
      runAll (step 0) es beforeCall = .ok s ∧ s.activations = f :: fs ∧ s.cpu.rsp = f.entry ∧
      step 0 .ret s = .ok s' ∧ s'.cpu.rip = 0x666000 ∧ s'.cpu.rip ≠ f.home := by
  obtain ⟨s, s', f, halong, hrun, hacts, hhome, hrsp, hret, hrip⟩ :=
    tail_jump_rereads beforeCall_initial.inv (beforeCall_call 0x402000) 0x666000 0x403000
  refine ⟨_, s, f, _, s', beforeCall_initial, halong, hrun, hacts, hrsp, hret, hrip, ?_⟩
  have hnext : beforeCall.cpu.next (.call 0x402000) = 0x401005 := by decide
  rw [hrip, hhome, hnext]
  decide

/-- **Restored before the tail jump**, the return address is the one that is used. -/
theorem return_address_kept :
    ∃ s f fs s', runAll (step 0) (callAndRestore 0x402000 0x666000 0x403000 beforeCall)
        beforeCall = .ok s ∧ s.activations = f :: fs ∧ s.cpu.rsp = f.entry ∧
      step 0 .ret s = .ok s' ∧ s'.cpu.rip = f.home ∧ f.home = 0x401005 := by
  obtain ⟨s, f, halong, hrun, hacts, hhome, hrsp⟩ :=
    callAndRestore_run beforeCall_initial.inv (beforeCall_call 0x402000) 0x666000 0x403000
  obtain ⟨s₁, hrun₁, hreturns⟩ := return_address_integrity beforeCall_initial halong
  obtain rfl := Except.ok.inj (hrun.symm.trans hrun₁)
  obtain ⟨s', hret, hrip, -⟩ := hreturns f _ hacts hrsp
  exact ⟨s, f, _, s', hrun, hacts, hrsp, hret, hrip, hhome.trans (by decide)⟩

end Execution

end FlashStack.Asm
