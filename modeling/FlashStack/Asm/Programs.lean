/-
Whole programs, before and after the instrumentation.

A program gives the statement that stands at an address. The addresses are those of the
instrumented code, so that the code pointers of both are the same: before the
instrumentation, a statement is followed by as much room as its sequence takes.

* `plainStep`: what a statement meant to the compiler;
* `instrumentedStep`: the sequence that `add_instrumentation` writes for it;
* `Source.Step`: a step of the original program that finds its return addresses untouched.

What the copied instructions do is a parameter, `meaning`, of which only the calling
conventions are asked later. The registers and flags that code may read from an address on
are a parameter too (`Live`), for those four that the sequences overwrite without saving. A
source carries the functions that have been called and have not returned (`Frame`), because
that a return address is untouched can only be said of a known one.

Tail jumps are copied instructions here, and a jump to a function would run its prologue
again; what follows from that is the subject of the module on returns. The threads of a
process are the subject of later modules: here another thread is an event that leaves the
shadow stack of this one and the memory of the program alone.
-/

import FlashStack.Asm.IndirectCall
import FlashStack.Asm.Returns

namespace FlashStack.Asm

open Lib.Memory Lib.Program FlashStack.Runtime

/-! ### Statements -/

/-- What a line of the compiler stands for. `ι` names the instructions that are copied. -/
inductive Stmt (ι : Type) where
  /-- `.cfi_startproc` of a protected function -/
  | startproc
  /-- `ret` or `retq` -/
  | ret
  /-- `callq g`, copied -/
  | call (g : Word)
  /-- `callq g`, rewritten -/
  | directCall (g : Word)
  /-- `callq *op`, rewritten; the encoding of the operand takes `length` bytes -/
  | indirectCall (op : CallOperand) (length : Nat)
  | other (i : ι)

/-- The statement at an address; `none` where the program is left, for a library or for code that
is not instrumented. -/
abbrev Code (ι : Type) := Word → Option (Stmt ι)

/-- Push `back` and go on at `target`. A push to memory that is not mapped faults. -/
def Cpu.enters (c : Cpu) (back target : Word) : Except Fault Cpu :=
  (c.enter back target).map Prod.snd

section Meanings

variable {ι : Type} (meaning : ι → Cpu → Except Fault Cpu) (t : Tid)

/-- The original statement. A `.cfi_startproc` is no instruction, only the room for the
prologue; where the instrumented call skips the prologue, the original one skips the room. -/
def plainStep (s : Stmt ι) (c : Cpu) : Except Fault Cpu :=
  match s with
  | .startproc => .ok (c.jump (c.rip + BitVec.ofNat 64 spaLengthOfProtectedPrologue))
  | .ret =>
      match c.read c.rsp with
      | .error e => .error e
      | .ok a => .ok ((c.setReg .rsp (c.rsp + BitVec.ofNat 64 spaCpuWordLength)).jump a)
  | .call g => c.enters (c.next (.call g)) g
  | .directCall g => c.enters (c.behind g) (g + BitVec.ofNat 64 spaLengthOfProtectedPrologue)
  | .indirectCall op length =>
      match op.value t c with
      | .error e => .error e
      | .ok v => c.enters (c.behindIndirect length) (c.entered v)
  | .other i => meaning i c

/-- What is written for the statement, run as a whole. Copied instructions do what they did
before. -/
def instrumentedStep (s : Stmt ι) (c : Cpu) : Except Fault Cpu :=
  match s with
  | .startproc => (runCode t prologue c).map Prod.snd
  | .ret => (runCode t epilogue c).map Prod.snd
  | .call g => (runCode t [.call g] c).map Prod.snd
  | .directCall g => (runCode t (directCall g) c).map Prod.snd
  | .indirectCall op length => (run (CallInstr.exec t) (indirectCall op length) c).map Prod.snd
  | .other i => meaning i c

end Meanings

/-! ### Runs of the original program -/

/-- What the inserted sequences use without saving it. Code may rely on it only where no sequence
stands in between. -/
inductive Scratch where
  | rax
  | r10
  | r11
  | flags
deriving DecidableEq

/-- What the code from an address on reads of it, before it is set. It is a parameter, as a
compiler knows it. -/
abbrev Live := Word → Scratch → Prop

/-- A function that has been called and has not returned, as the original program has it. -/
structure Frame where
  /-- Where its return address is. -/
  entry : Word
  home : Word

/-- The original program, with its functions from the innermost on. No instruction reads them;
they say what a return address should be. -/
structure Source where
  cpu : Cpu
  frames : List Frame

namespace Source

/-- The innermost function is about to begin or to return, and its return address is as the
call has left it. -/
structure AtFrame (s : Source) (f : Frame) : Prop where
  rsp : s.cpu.rsp = f.entry
  home : load64 s.cpu.machine.mem f.entry = some f.home

/-- Room for a return address on the call stack, below the functions: a slot, mapped memory, and a
place deeper than theirs. -/
structure HasRoom (r0 : Word) (s : Source) : Prop where
  slot : HasSlot r0 s.cpu.pushed
  mapped : Mapped s.cpu.machine.mem s.cpu.pushed 8
  below : ∀ f ∈ s.frames.head?, stackOffset r0 s.cpu.pushed < stackOffset r0 f.entry

/-- The call of a function that returns to `back`: its frame is put in front of the others. -/
def push (s : Source) (back : Word) : List Frame := ⟨s.cpu.pushed, back⟩ :: s.frames

variable {ι : Type} (code : Code ι) (meaning : ι → Cpu → Except Fault Cpu) (live : Live) (t : Tid)
  (r0 : Word)

/-- A statement of a program that keeps to the calling conventions: a function begins and
returns with its return address untouched, and leaves a value in `%rax` where its caller
reads one. An indirect call reaches code whose first word tells the protected functions, and
which does not read `%al`. -/
inductive Step : Source → Stmt ι → Source → Prop where
  | startproc {s : Source} {f : Frame} {fs : List Frame} (hfs : s.frames = f :: fs)
      (hf : s.AtFrame f) {c : Cpu} (hc : plainStep meaning t .startproc s.cpu = .ok c) :
      Step s .startproc ⟨c, s.frames⟩
  | ret {s : Source} {f : Frame} {fs : List Frame} (hfs : s.frames = f :: fs) (hf : s.AtFrame f)
      (hlive : live f.home .rax → live s.cpu.rip .rax) {c : Cpu}
      (hc : plainStep meaning t .ret s.cpu = .ok c) : Step s .ret ⟨c, fs⟩
  | call {s : Source} {g : Word} (hroom : HasRoom r0 s) {c : Cpu}
      (hc : plainStep meaning t (.call g) s.cpu = .ok c) :
      Step s (.call g) ⟨c, s.push (s.cpu.next (.call g))⟩
  | directCall {s : Source} {g : Word} (hroom : HasRoom r0 s) {c : Cpu}
      (hc : plainStep meaning t (.directCall g) s.cpu = .ok c) :
      Step s (.directCall g) ⟨c, s.push (s.cpu.behind g)⟩
  | indirectCall {s : Source} {op : CallOperand} {length : Nat} {v : Word} (hroom : HasRoom r0 s)
      (hop : op.value t s.cpu = .ok v) (hcode : Mapped s.cpu.machine.mem v 8)
      (hmagic : s.cpu.ProtectedAt v ↔ code v = some .startproc)
      (hplain : ¬ s.cpu.ProtectedAt v → code v = none) (hlive : ∀ x, ¬ live v x) {c : Cpu}
      (hc : plainStep meaning t (.indirectCall op length) s.cpu = .ok c) :
      Step s (.indirectCall op length) ⟨c, s.push (s.cpu.behindIndirect length)⟩
  | other {s : Source} {i : ι} {c : Cpu} (hc : plainStep meaning t (.other i) s.cpu = .ok c) :
      Step s (.other i) ⟨c, s.frames⟩

/-- A run, with the statements that it takes. It may stop anywhere, and stops where the program is
left. -/
inductive Run : Source → List (Stmt ι) → Source → Prop where
  | nil (s : Source) : Run s [] s
  | cons {s s₁ s₂ : Source} {stmt : Stmt ι} {stmts : List (Stmt ι)}
      (hcode : code s.cpu.rip = some stmt) (hstep : Step code meaning live t r0 s stmt s₁)
      (hrun : Run s₁ stmts s₂) : Run s (stmt :: stmts) s₂

end Source

/-! ### Runs of the instrumented program -/

/-- The memory of the program, apart from shadow stacks, is the same. -/
def SameProgram (m m' : Machine) : Prop :=
  ∀ x b, m.mem x = some ⟨.other, b⟩ ↔ m'.mem x = some ⟨.other, b⟩

namespace Instrumented

inductive Event where
  /-- The next statement. -/
  | go
  /-- `gs_rsp_runtime_rerandomize`. -/
  | rerandomize (rsp rspAlloc : Word) (env : Env)
  /-- The runtime of another thread. -/
  | elsewhere (m : Machine)

variable {ι : Type} (code : Code ι) (meaning : ι → Cpu → Except Fault Cpu) (t : Tid) (r0 : Word)

def step : Event → Cpu → Except Fault Cpu
  | .go, c =>
      match code c.rip with
      | some s => instrumentedStep meaning t s c
      | none => .ok c
  | .rerandomize rsp rspAlloc env, c =>
      match (Action.rerandomize rsp rspAlloc env).step t c.machine with
      | .error e => .error e
      | .ok m => .ok (c.on m)
  | .elsewhere m, c => .ok (c.on m)

/-- Re-randomizations complete, and other threads leave this one alone. Nothing is asked of the
next statement. -/
def Allowed : Event → Cpu → Prop
  | .go, _ => True
  | .rerandomize rsp rspAlloc env, c =>
      BelowStart r0 rsp ∧ (Action.rerandomize rsp rspAlloc env).Completes t c.machine
  | .elsewhere m, c => Undisturbed t c.machine m ∧ SameProgram c.machine m

/-- The number of statements in a run. What the runtime does between them does not count. -/
def steps : List Event → Nat
  | [] => 0
  | .go :: es => steps es + 1
  | _ :: es => steps es

theorem steps_cons {e : Event} (he : e ≠ .go) (es : List Event) : steps (e :: es) = steps es := by
  cases e with
  | go => exact absurd rfl he
  | rerandomize rsp rspAlloc env => rfl
  | elsewhere m => rfl

end Instrumented

end FlashStack.Asm
