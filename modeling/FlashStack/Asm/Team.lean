/-
Threads that run instrumented code side by side.

The threads of a process share the machine; each has registers and activations of its own. A
step of the process is one instruction, or one action of a runtime function, of one thread.
So other threads may act between the instructions of an inserted sequence, and between the
actions of a re-randomization. What is between the sequences is not code here: a body
computes, which may set any register, or writes to memory of the program, the call stacks
included.

`Job` lists what a thread may start, and its code is a program of such steps. An instruction
carries a `Note` of what it means for the activations, which no instruction reads: they are
there to say where a return should go.

The discipline of `Lib.Interleaving` is set up here: a thread relies on the others to leave
its shadow stack alone and the memory of the program mapped (`Foreign`), and `Guarantee` is
what each of its steps promises, to the others and about its activations. The sequences are
proved one instruction at a time, along the assertions `Calling`, `Entering` and `Leaving`;
each of them is stable under what others do, and none speaks of the word on the call stack
that a plain call leaves open to others.
-/

import FlashStack.Asm.DirectCall
import FlashStack.Asm.Returns
import FlashStack.Runtime.Interference

namespace FlashStack.Asm

open Lib.Memory Lib.Program Lib.Interleaving FlashStack.Runtime

/-! ### Threads and their steps -/

/-- What belongs to one thread: its registers, where it was initialised, and its
activations. -/
structure Core where
  regs : Reg → Word
  rip : Word
  flags : Flags
  start : Option Word
  activations : List Activation

/-- The machine and one thread on it. The other threads are there only through what they do to the
machine. -/
abbrev View := Machine × Core

namespace View

def cpu (v : View) : Cpu := ⟨v.2.regs, v.2.rip, v.2.flags, v.1⟩

/-- The thread goes on as `c`, with the activations `fs`. -/
def goOn (v : View) (c : Cpu) (fs : List Activation) : View :=
  (c.machine, { v.2 with regs := c.regs, rip := c.rip, flags := c.flags, activations := fs })

@[simp] theorem goOn_fst (v : View) (c : Cpu) (fs : List Activation) :
    (v.goOn c fs).1 = c.machine := rfl
@[simp] theorem goOn_cpu (v : View) (c : Cpu) (fs : List Activation) :
    (v.goOn c fs).cpu = c := rfl
@[simp] theorem goOn_activations (v : View) (c : Cpu) (fs : List Activation) :
    (v.goOn c fs).2.activations = fs := rfl
@[simp] theorem goOn_start (v : View) (c : Cpu) (fs : List Activation) :
    (v.goOn c fs).2.start = v.2.start := rfl
@[simp] theorem cpu_machine (v : View) : v.cpu.machine = v.1 := rfl

end View

/-- What an instruction means for the activations of its thread. It stands beside the instruction
and has no effect on the machine. -/
inductive Note where
  | plain
  /-- A `callq` creates an activation. -/
  | enter
  /-- A prologue has loaded the word at the stack pointer. -/
  | read
  /-- The jump of an epilogue ends the activation. -/
  | leave
deriving DecidableEq

/-- The activations after instruction `i` has taken the CPU from `c` to `c'`. -/
def Note.apply (i : Instr) (c c' : Cpu) (fs : List Activation) : Note → List Activation
  | .plain => fs
  | .enter => ⟨c'.rsp, c.next i, c.next i⟩ :: fs
  | .read => Execution.reread (c'.regs .r11) fs
  | .leave => fs.tail

inductive TeamOp where
  | instr (i : Instr) (note : Note)
  /-- One action of a runtime function. -/
  | runtime (env : Env) (op : Op)
  /-- The initialisation has completed. -/
  | started (r0 : Word)
  /-- The body computes: any registers. -/
  | compute (regs : Reg → Word) (rip : Word) (flags : Flags)
  /-- The body writes `n` bytes. -/
  | write (a : Word) (n v : Nat)

abbrev TeamOp.Res : TeamOp → Type
  | .runtime _ op => op.Res
  | _ => Unit

abbrev TeamProgram := Prog TeamOp TeamOp.Res

/-- One step of thread `t`. A store of the body is total, and changes mapped memory only. -/
def TeamOp.exec (t : Tid) : (op : TeamOp) → View → Except Fault (op.Res × View)
  | .instr i note, v =>
      match i.exec t v.cpu with
      | .error e => .error e
      | .ok (_, c) => .ok ((), v.goOn c (note.apply i v.cpu c v.2.activations))
  | .runtime env op, v =>
      match Runtime.exec t env op v.1 with
      | .error e => .error e
      | .ok (r, m) => .ok (r, (m, v.2))
  | .started r0, v => .ok ((), (v.1, { v.2 with start := some r0 }))
  | .compute regs rip flags, v =>
      .ok ((), (v.1, { v.2 with regs := regs, rip := rip, flags := flags }))
  | .write a n x, v => .ok ((), (v.1.withMem (storeN v.1.mem a n x), v.2))

/-! ### Programs -/

/-- A runtime function, as a program of a thread: one step for each of its actions, all with the
outcomes of one `env`. -/
def runtime {α : Type} (env : Env) : Program α → TeamProgram α
  | .ret a => .ret a
  | .act op k => .act (.runtime env op) fun r => runtime env (k r)

/-- A straight-line sequence, with what its instructions mean for the activations. -/
def sequence : List (Instr × Note) → TeamProgram Unit
  | [] => .ret ()
  | i :: code => .act (.instr i.1 i.2) fun _ => sequence code

def plainly (code : List Instr) : List (Instr × Note) := code.map fun i => (i, .plain)

/-- The prologue, whose first instruction reads the return address. That is all it takes from the
call stack. -/
def notedPrologue : List (Instr × Note) :=
  prologue.zip [.read, .plain, .plain]

/-- The epilogue, whose last instruction leaves the activation. -/
def notedEpilogue : List (Instr × Note) :=
  epilogue.zip [.plain, .plain, .leave]

/-- The rewritten direct call, whose `callq` enters behind the prologue. -/
def notedDirectCall (f : Word) : List (Instr × Note) :=
  (directCall f).zip [.plain, .plain, .plain, .enter]

/-- What a thread starts, from one moment where it is in its own code to the next. -/
inductive Job where
  /-- `init_shadow_stack`. -/
  | init (r0 rspAlloc : Word) (fuel : Nat) (env : Env)
  | compute (regs : Reg → Word) (rip : Word) (flags : Flags)
  | write (a : Word) (n v : Nat)
  /-- `gs_rsp_runtime_rerandomize`. -/
  | rerandomize (rsp rspAlloc : Word) (env : Env)
  /-- `callq g` and the prologue of `g`. -/
  | call (g : Word)
  /-- The rewritten direct call of `f`. -/
  | directCall (f : Word)
  /-- `jmp g` and the prologue of `g`. -/
  | tailJump (g : Word)
  /-- The epilogue. -/
  | ret

def Job.code : Job → TeamProgram Unit
  | .init r0 rspAlloc fuel env =>
      runtime env (initShadowStack fuel r0 rspAlloc) >>= fun done =>
        if done then .act (.started r0) .ret else .ret ()
  | .compute regs rip flags => .act (.compute regs rip flags) .ret
  | .write a n v => .act (.write a n v) .ret
  | .rerandomize rsp rspAlloc env => runtime env (gsRspRuntimeRerandomize rsp rspAlloc)
  | .call g => sequence ((.call g, .enter) :: notedPrologue)
  | .directCall f => sequence (notedDirectCall f)
  | .tailJump g => sequence ((.jmp g, .plain) :: notedPrologue)
  | .ret => sequence notedEpilogue

/-- The notes stand beside the instructions that `add_instrumentation` inserts. -/
theorem noted_instructions :
    notedPrologue.map Prod.fst = prologue ∧ notedEpilogue.map Prod.fst = epilogue ∧
      ∀ f, (notedDirectCall f).map Prod.fst = directCall f :=
  ⟨rfl, rfl, fun _ => rfl⟩

/-! ### What threads rely on and guarantee -/

/-- What other threads do, as `t` relies on it: its shadow stack and its GS base stay, and the
memory of the program stays mapped. Its contents may change. -/
structure Foreign (t : Tid) (m m' : Machine) : Prop where
  undisturbed : Undisturbed t m m'
  others : ∀ x, ownerOf m.mem x = some .other → ownerOf m'.mem x = some .other

/-- What a note says of the activations: how they change, and, where an instruction reads or
jumps, which word it is. -/
def Note.Logs (i : Instr) (v v' : View) : Note → Prop
  | .plain => v'.2.activations = v.2.activations
  | .enter => ∃ entry, v'.2.activations =
      ⟨entry, v.cpu.next i, v.cpu.next i⟩ :: v.2.activations
  | .read => ∃ f fs w, v.2.activations = f :: fs ∧ load64 v.1.mem f.entry = some w ∧
      v'.2.activations = { f with read := w } :: fs
  | .leave => ∃ f fs, v.2.activations = f :: fs ∧ v'.2.activations = fs ∧ v'.2.rip = f.read

/-- What a step of thread `t` promises: to every other thread that it is left alone, and about its
own activations. -/
structure Guarantee (t : Tid) (op : TeamOp) (v v' : View) : Prop where
  undisturbed : ∀ u, u ≠ t → Undisturbed u v.1 v'.1
  others : ∀ x, ownerOf v.1.mem x = some .other → ownerOf v'.1.mem x = some .other
  logs : match op with
    | .instr i note => note.Logs i v v'
    | _ => v'.2.activations = v.2.activations

theorem Guarantee.foreign {t u : Tid} {op : TeamOp} {v v' : View} (h : Guarantee t op v v')
    (hu : u ≠ t) : Foreign u v.1 v'.1 :=
  ⟨h.undisturbed u hu, h.others⟩

theorem Foreign.ownedBy {t : Tid} {m m' : Machine} (h : Foreign t m m') {a : Word} {n : Nat}
    (ho : OwnedBy m.mem .other a n) : OwnedBy m'.mem .other a n :=
  fun i hi => h.others _ (ho i hi)

/-! ### The assertions -/

/-- The shadow stack of `t` holds what the activations `fs` have read, and their return
addresses are on the call stack, inner ones below outer ones. -/
structure Frames (t : Tid) (r0 : Word) (slots : Slots) (fs : List Activation) (m : Machine) :
    Prop where
  thread : ∃ ss, ThreadAt m t r0 ss slots
  reads : ∀ f ∈ fs, slots f.entry = some f.read
  words : ∀ f ∈ fs, OwnedBy m.mem .other f.entry 8
  nested : fs.Pairwise fun f g => stackOffset r0 f.entry < stackOffset r0 g.entry

/-- Room for a call below the activations: a slot, and a word of the call stack that the program
has mapped. -/
structure CallSite (r0 : Word) (v : View) : Prop where
  slot : HasSlot r0 v.cpu.pushed
  word : OwnedBy v.1.mem .other v.cpu.pushed 8
  below : ∀ f ∈ v.2.activations.head?, stackOffset r0 v.cpu.pushed < stackOffset r0 f.entry

/-- A thread between two jobs: not initialised, and without a shadow stack, or initialised, with
its activations in the slots. -/
def IdleThread (t : Tid) (v : View) : Prop :=
  match v.2.start with
  | none => v.2.activations = [] ∧ NoShadow v.1 t
  | some r0 => ∃ slots, Frames t r0 slots v.2.activations v.1

/-- Between two jobs, a thread is where it would be if its jobs were atomic. -/
theorem frames_iff {t : Tid} {r0 : Word} {fs : List Activation} {c : Cpu} :
    (∃ slots, Frames t r0 slots fs c.machine) ↔ Execution.Inv t r0 ⟨c, fs⟩ := by
  constructor
  · rintro ⟨slots, ⟨ss, hthread⟩, hreads, hwords, hnested⟩
    exact ⟨⟨ss, slots, hthread, hreads⟩, hwords, hnested⟩
  · rintro ⟨⟨ss, slots, hthread, hreads⟩, hwords, hnested⟩
    exact ⟨slots, ⟨ss, hthread⟩, hreads, hwords, hnested⟩

/-- What lies below the first activation lies below all of them. -/
theorem Frames.below {r0 : Word} {v : View} {t : Tid} {slots : Slots} {x : Word}
    (h : Frames t r0 slots v.2.activations v.1)
    (hx : ∀ f ∈ v.2.activations.head?, stackOffset r0 x < stackOffset r0 f.entry) :
    ∀ f ∈ v.2.activations, stackOffset r0 x < stackOffset r0 f.entry :=
  (frames_iff (c := v.cpu).mp ⟨slots, h⟩).nested_cons hx

section Assertions

variable (t : Tid) (r0 : Word)

/-- About to call, with the registers as `φ` says. The push finds its slot and mapped memory, and
all activations stand in their slots. -/
def Calling (φ : Core → Slots → Prop) (v : View) : Prop :=
  v.2.start = some r0 ∧ CallSite r0 v ∧
    ∃ slots, Frames t r0 slots v.2.activations v.1 ∧ φ v.2 slots

/-- In the prologue of the first activation, whose slot may hold anything. The outer activations
are in their slots. -/
def Entering (φ : Core → Activation → Prop) (v : View) : Prop :=
  v.2.start = some r0 ∧ ∃ f fs slots, v.2.activations = f :: fs ∧ Frames t r0 slots fs v.1 ∧
    HasSlot r0 f.entry ∧ OwnedBy v.1.mem .other f.entry 8 ∧
    (∀ g ∈ fs, stackOffset r0 f.entry < stackOffset r0 g.entry) ∧ v.cpu.rsp = f.entry ∧ φ v.2 f

/-- In the epilogue of the first activation, whose slot is there. What `φ` says is about the
thread and that activation. -/
def Leaving (φ : Core → Activation → Prop) (v : View) : Prop :=
  v.2.start = some r0 ∧ ∃ f fs slots, v.2.activations = f :: fs ∧
    Frames t r0 slots (f :: fs) v.1 ∧ φ v.2 f

end Assertions

section Stability

variable {t : Tid} {r0 : Word} {slots : Slots} {fs : List Activation}

theorem Frames.of_foreign {m m' : Machine} (h : Frames t r0 slots fs m) (hm : Foreign t m m') :
    Frames t r0 slots fs m' where
  thread := by
    obtain ⟨ss, hthread⟩ := h.thread
    exact ⟨ss, hthread.of_undisturbed hm.undisturbed⟩
  reads := h.reads
  words f hf := hm.ownedBy (h.words f hf)
  nested := h.nested

theorem CallSite.of_foreign {v v' : View} (h : CallSite r0 v) (hv : among (Foreign t) v v') :
    CallSite r0 v' := by
  obtain ⟨m, l⟩ := v
  obtain ⟨m', l'⟩ := v'
  obtain ⟨rfl, hm⟩ := hv
  exact ⟨h.slot, hm.ownedBy h.word, h.below⟩

theorem stable_idleThread : Stable (among (Foreign t)) (IdleThread t) := by
  rintro ⟨m, l⟩ ⟨m', l'⟩ h ⟨rfl, hm⟩
  unfold IdleThread at *
  cases hstart : l'.start with
  | none =>
      rw [hstart] at h
      exact ⟨h.1, h.2.of_kept hm.undisturbed.kept⟩
  | some r0 =>
      rw [hstart] at h
      obtain ⟨slots, hframes⟩ := h
      exact ⟨slots, hframes.of_foreign hm⟩

theorem stable_calling {φ : Core → Slots → Prop} :
    Stable (among (Foreign t)) (Calling t r0 φ) := by
  rintro ⟨m, l⟩ ⟨m', l'⟩ ⟨hstart, hsite, slots, hframes, hφ⟩ hv
  have hsite' := hsite.of_foreign hv
  obtain ⟨rfl, hm⟩ := hv
  exact ⟨hstart, hsite', slots, hframes.of_foreign hm, hφ⟩

theorem stable_entering {φ : Core → Activation → Prop} :
    Stable (among (Foreign t)) (Entering t r0 φ) := by
  rintro ⟨m, l⟩ ⟨m', l'⟩ ⟨hstart, f, fs, slots, hacts, hframes, hslot, hword, hbelow, hφ⟩ ⟨rfl, hm⟩
  exact ⟨hstart, f, fs, slots, hacts, hframes.of_foreign hm, hslot, hm.ownedBy hword, hbelow, hφ⟩

theorem stable_leaving {φ : Core → Activation → Prop} :
    Stable (among (Foreign t)) (Leaving t r0 φ) := by
  rintro ⟨m, l⟩ ⟨m', l'⟩ ⟨hstart, f, fs, slots, hacts, hframes, hφ⟩ ⟨rfl, hm⟩
  exact ⟨hstart, f, fs, slots, hacts, hframes.of_foreign hm, hφ⟩

end Stability

end FlashStack.Asm
