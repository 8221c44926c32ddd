/-
The instructions that `add_instrumentation` inserts with `USE_SPA_FS_GS_TLS`.

`msr` is `SPA_ENABLE_GS_MSR`: a return address is then kept with the random value added to
it, and the sequences have one instruction more. Their lengths differ, and so does the
distance at which a rewritten direct call enters its callee. The difference of the regions
and the random value are read from the metadata page through `%gs`. The instructions are
others than in the default mode, and the CPU stands on a machine of its own; the registers
and flags are those of the model of that mode.

* `run_prologue`, `run_epilogue`: the sequences do what `prologue` and `epilogue` say;
* `run_plainCall`, `run_directCall`: a rewritten direct call, which fills the slot before it
  pushes, ends where the call and the prologue of the callee end.

An access to a page without the right fails, so that a specification asks for the rights of
the pages that its sequence touches. Both directions of a call write the slot and the word
on the call stack; the result is one state, flags included, if the two are apart and neither
is in the metadata page.
-/

import FlashStack.FsGs.Layout
import FlashStack.Asm.IndirectCall

namespace FlashStack.FsGs

open Lib.Memory Lib.Pages Lib.Program FlashStack.Asm

/-! ### The CPU -/

/-- The page of the address has no such right: nothing is mapped there, or a store goes to a page
that is read-only. -/
inductive Fault where
  | read (a : Word)
  | write (a : Word)

/-- The registers of one thread, and its machine. The GS base is part of the machine, as in the
other mode. -/
structure Cpu where
  regs : Reg → Word
  rip : Word
  flags : Flags
  machine : Machine

namespace Cpu

def rsp (c : Cpu) : Word := c.regs .rsp

def setReg (c : Cpu) (r : Reg) (v : Word) : Cpu := { c with regs := Function.update c.regs r v }

def jump (c : Cpu) (a : Word) : Cpu := { c with rip := a }

def read (c : Cpu) (a : Word) : Except Fault Word :=
  if c.machine.mem.prot a = .none then .error (.read a) else .ok (c.machine.mem.word a)

def write (c : Cpu) (a v : Word) : Except Fault Cpu :=
  if c.machine.mem.prot a = .readWrite then
    .ok { c with machine := { c.machine with mem := c.machine.mem.set a v } }
  else .error (.write a)

end Cpu

/-- The memory operands that occur: `%gs:(offset of f)`, or `disp(base, index, 1)`. The others of
the machine are not needed. -/
inductive Operand where
  | gs (f : Field)
  | mem (disp : Word) (base : Reg) (index : Option Reg)

def Operand.addr (o : Operand) (c : Cpu) : Word :=
  match o with
  | .gs f => c.machine.gs + f.offset
  | .mem disp base index => disp + c.regs base + (index.map c.regs).getD 0

inductive Instr where
  /-- `movq src, dst` -/
  | movLoad (src : Operand) (dst : Reg)
  /-- `addq src, dst` -/
  | addLoad (src : Operand) (dst : Reg)
  /-- `subq src, dst` -/
  | subLoad (src : Operand) (dst : Reg)
  /-- `movq src, dst` -/
  | movStore (src : Reg) (dst : Operand)
  /-- `addq $v, dst` -/
  | addImm (v : Word) (dst : Reg)
  /-- `leaq disp(%rip), dst` -/
  | leaRip (disp : Word) (dst : Reg)
  /-- `jmpq *r` -/
  | jmpReg (r : Reg)
  /-- `callq target` -/
  | call (target : Word)

/-- The bytes an operand adds to an instruction: a segment prefix, the SIB byte and the
displacement. -/
def Operand.length : Operand → Nat
  | .gs _ => 6
  | .mem disp _ _ => if disp = 0 then 1 else 2

def Instr.length : Instr → Nat
  | .movLoad src _ => 3 + src.length
  | .addLoad src _ => 3 + src.length
  | .subLoad src _ => 3 + src.length
  | .movStore _ dst => 3 + dst.length
  | .addImm _ _ => 4
  | .leaRip _ _ => 7
  | .jmpReg _ => 3
  | .call _ => 5

def codeLength (code : List Instr) : Nat := (code.map Instr.length).sum

theorem codeLength_cons (i : Instr) (code : List Instr) :
    codeLength (i :: code) = i.length + codeLength code := by simp [codeLength]

theorem codeLength_append (code code' : List Instr) :
    codeLength (code ++ code') = codeLength code + codeLength code' := by simp [codeLength]

def Cpu.next (c : Cpu) (i : Instr) : Word := c.rip + BitVec.ofNat 64 i.length

theorem Cpu.next_add (c : Cpu) (i : Instr) (n : Nat) :
    c.next i + BitVec.ofNat 64 n = c.rip + BitVec.ofNat 64 (i.length + n) := by
  rw [Cpu.next, BitVec.add_assoc, BitVec.ofNat_add]

def Instr.exec (i : Instr) (c : Cpu) : Except Fault (Unit × Cpu) :=
  match i with
  | .movLoad src dst =>
      match c.read (src.addr c) with
      | .error e => .error e
      | .ok v => .ok ((), (c.setReg dst v).jump (c.next i))
  | .addLoad src dst =>
      match c.read (src.addr c) with
      | .error e => .error e
      | .ok v => .ok ((), { (c.setReg dst (c.regs dst + v)).jump (c.next i) with
          flags := Flags.ofAdd (c.regs dst) v })
  | .subLoad src dst =>
      match c.read (src.addr c) with
      | .error e => .error e
      | .ok v => .ok ((), { (c.setReg dst (c.regs dst - v)).jump (c.next i) with
          flags := Flags.ofSub (c.regs dst) v })
  | .movStore src dst =>
      match c.write (dst.addr c) (c.regs src) with
      | .error e => .error e
      | .ok c' => .ok ((), c'.jump (c.next i))
  | .addImm v dst => .ok ((), { (c.setReg dst (c.regs dst + v)).jump (c.next i) with
      flags := Flags.ofAdd (c.regs dst) v })
  | .leaRip disp dst => .ok ((), (c.setReg dst (c.next i + disp)).jump (c.next i))
  | .jmpReg r => .ok ((), c.jump (c.regs r))
  | .call target =>
      match c.write (c.rsp - BitVec.ofNat 64 spaCpuWordLength) (c.next i) with
      | .error e => .error e
      | .ok c' =>
          .ok ((), (c'.setReg .rsp (c.rsp - BitVec.ofNat 64 spaCpuWordLength)).jump target)

/-- A straight-line sequence, as a program over instructions. None of these sequences has a jump
but at its end. -/
def straight : List Instr → Prog Instr (fun _ => Unit) Unit
  | [] => .ret ()
  | i :: code => .act i fun _ => straight code

abbrev runCode (code : List Instr) (c : Cpu) : Except Fault (Unit × Cpu) :=
  run Instr.exec (straight code) c

/-! ### The code -/

/-- `addq %gs:(R), %r11`, which is emitted with `SPA_ENABLE_GS_MSR` only, between the load and the
store of the prologue. -/
def encodeCode (msr : Bool) : List Instr := if msr then [.addLoad (.gs .r) .r11] else []

/-- The return address in `%r11` is stored in the slot of `disp(%rsp)`. -/
def fillCode (msr : Bool) (disp : Word) : List Instr :=
  encodeCode msr ++ [.movLoad (.gs .diff) .r10, .movStore .r11 (.mem disp .rsp (some .r10))]

def prologueCode (msr : Bool) : List Instr :=
  .movLoad (.mem 0 .rsp none) .r11 :: fillCode msr 0

/-- `subq %gs:(R), %r11`, which is emitted with `SPA_ENABLE_GS_MSR` only, between the load of the
slot and the jump. -/
def decodeCode (msr : Bool) : List Instr := if msr then [.subLoad (.gs .r) .r11] else []

def epilogueCode (msr : Bool) : List Instr :=
  .movLoad (.gs .diff) .r11 :: .movLoad (.mem 0 .rsp (some .r11)) .r11 :: decodeCode msr ++
    [.addImm (BitVec.ofNat 64 spaCpuWordLength) .rsp, .jmpReg .r11]

/-- `SPA_LENGTH_OF_PROTECTED_PROLOGUE`, with and without the instruction that adds the random
value. -/
def spaLengthOfProtectedPrologue (msr : Bool) : Nat := if msr then 26 else 17

/-- The rewritten direct call of `f`, after its `leaq`: the slot is filled as the prologue of the
callee would do it, and the call goes behind that prologue. -/
def directCallTail (msr : Bool) (f : Word) : List Instr :=
  fillCode msr (-8) ++ [.call (f + BitVec.ofNat 64 (spaLengthOfProtectedPrologue msr))]

/-- The rewritten direct call of `f`. Its label `1` stands behind the `callq`. -/
def directCallCode (msr : Bool) (f : Word) : List Instr :=
  .leaRip (BitVec.ofNat 64 (codeLength (directCallTail msr f))) .r11 :: directCallTail msr f

/-- A call that skips the prologue enters at the first instruction behind it. -/
theorem codeLength_prologueCode (msr : Bool) :
    codeLength (prologueCode msr) = spaLengthOfProtectedPrologue msr := by cases msr <;> rfl

/-- The address behind a rewritten direct call at `c`, which the `leaq` at its front loads. -/
def Cpu.behind (c : Cpu) (msr : Bool) (f : Word) : Word :=
  c.rip + BitVec.ofNat 64 (codeLength (directCallCode msr f))

/-- The stack pointer after a call, where the return address stands. -/
def Cpu.pushed (c : Cpu) : Word := c.rsp - BitVec.ofNat 64 spaCpuWordLength

/-- What the code stores for the return address `v`: with the random value added, if the build
does that. -/
def encoded (msr : Bool) (m : Machine) (v : Word) : Word := if msr then v + m.get m.gs .r else v

/-! ### Specs -/

section Specs

variable {c c' : Cpu} {i : Instr} {code : List Instr} {msr : Bool} {v : Word}

theorem runCode_cons (h : i.exec c = .ok ((), c')) : runCode (i :: code) c = runCode code c' :=
  run_act_ok h

theorem runCode_error {e : Fault} (h : i.exec c = .error e) : runCode (i :: code) c = .error e :=
  run_act_error h

theorem exec_movLoad (src : Operand) (dst : Reg) (h : c.machine.mem.prot (src.addr c) ≠ .none) :
    (Instr.movLoad src dst).exec c = .ok ((),
      (c.setReg dst (c.machine.mem.word (src.addr c))).jump (c.next (.movLoad src dst))) := by
  simp only [Instr.exec, Cpu.read, if_neg h]

theorem exec_movStore (src : Reg) (dst : Operand)
    (h : c.machine.mem.prot (dst.addr c) = .readWrite) :
    (Instr.movStore src dst).exec c = .ok ((), Cpu.jump { c with machine :=
      { c.machine with mem := c.machine.mem.set (dst.addr c) (c.regs src) } }
        (c.next (.movStore src dst))) := by
  simp only [Instr.exec, Cpu.write, if_pos h]

theorem exec_call (target : Word) (h : c.machine.mem.prot c.pushed = .readWrite) :
    (Instr.call target).exec c = .ok ((), Cpu.jump (Cpu.setReg { c with machine :=
      { c.machine with mem := c.machine.mem.set c.pushed (c.next (.call target)) } } .rsp c.pushed)
        target) := by
  rw [Cpu.pushed] at h
  simp only [Instr.exec, Cpu.write, if_pos h, Cpu.pushed]

/-- The fields are readable. -/
theorem mapped_field (hpage : IsMapped c.machine.mem c.machine.gs realMetaDataSize) (f : Field) :
    c.machine.mem.prot (c.machine.gs + f.offset) ≠ .none := hpage _ (inRange_field _ f)

/-- The flags after the random value has been added to `v`. -/
def Cpu.encodedFlags (c : Cpu) (msr : Bool) (v : Word) : Flags :=
  if msr then Flags.ofAdd v (c.machine.get c.machine.gs .r) else c.flags

theorem run_encodeCode (msr : Bool) (code : List Instr)
    (hpage : IsMapped c.machine.mem c.machine.gs realMetaDataSize) :
    runCode (encodeCode msr ++ code) c = runCode code { c with
      regs := Function.update c.regs .r11 (encoded msr c.machine (c.regs .r11))
      rip := c.rip + BitVec.ofNat 64 (codeLength (encodeCode msr))
      flags := c.encodedFlags msr (c.regs .r11) } := by
  cases msr with
  | false => simp [encodeCode, encoded, Cpu.encodedFlags, codeLength]
  | true =>
      have hread : c.read ((Operand.gs .r).addr c) = .ok (c.machine.get c.machine.gs .r) :=
        if_neg (mapped_field hpage .r)
      rw [encodeCode, if_pos rfl, List.singleton_append]
      refine runCode_cons ?_
      simp only [Instr.exec, hread]
      rfl

/-- After the code of `fillCode`: the word is encoded in `%r11`, `diff` is in `%r10`, and the slot
is written. -/
def Cpu.filled (c : Cpu) (msr : Bool) (disp slot : Word) : Cpu where
  regs := Function.update (Function.update c.regs .r11 (encoded msr c.machine (c.regs .r11))) .r10
    (c.machine.get c.machine.gs .diff)
  rip := c.rip + BitVec.ofNat 64 (codeLength (fillCode msr disp))
  flags := c.encodedFlags msr (c.regs .r11)
  machine := { c.machine with
    mem := c.machine.mem.set slot (encoded msr c.machine (c.regs .r11)) }

theorem run_fillCode (msr : Bool) (code : List Instr) {disp slot : Word}
    (hpage : IsMapped c.machine.mem c.machine.gs realMetaDataSize)
    (haddr : disp + c.rsp + c.machine.get c.machine.gs .diff = slot)
    (hslot : c.machine.mem.prot slot = .readWrite) :
    runCode (fillCode msr disp ++ code) c = runCode code (c.filled msr disp slot) := by
  subst haddr
  let c₁ : Cpu := { c with
    regs := Function.update c.regs .r11 (encoded msr c.machine (c.regs .r11))
    rip := c.rip + BitVec.ofNat 64 (codeLength (encodeCode msr))
    flags := c.encodedFlags msr (c.regs .r11) }
  let c₂ : Cpu := (c₁.setReg .r10 (c.machine.get c.machine.gs .diff)).jump
    (c₁.next (.movLoad (.gs .diff) .r10))
  have hload : (Instr.movLoad (.gs .diff) .r10).exec c₁ = .ok ((), c₂) :=
    exec_movLoad (.gs .diff) .r10 (mapped_field hpage .diff)
  have hstore := exec_movStore (c := c₂) .r11 (.mem disp .rsp (some .r10)) hslot
  have hlength : c.rip + BitVec.ofNat 64 (codeLength (fillCode msr disp)) =
      c₂.next (.movStore .r11 (.mem disp .rsp (some .r10))) := by
    rw [fillCode, codeLength_append, BitVec.ofNat_add, ← BitVec.add_assoc]
    exact (c₁.next_add _ _).symm
  rw [fillCode, List.append_assoc, run_encodeCode msr _ hpage, List.cons_append, runCode_cons hload,
    List.singleton_append, runCode_cons hstore, Cpu.filled, hlength]
  rfl

/-- The prologue encodes the return address: the slot gets the word of the call stack, plus `R`
with `SPA_ENABLE_GS_MSR`. -/
theorem run_prologue (msr : Bool)
    (hpage : IsMapped c.machine.mem c.machine.gs realMetaDataSize)
    (hstack : c.machine.mem.prot c.rsp ≠ .none)
    (hslot : c.machine.mem.prot (c.rsp + c.machine.get c.machine.gs .diff) = .readWrite) :
    runCode (prologueCode msr) c = .ok ((),
      { regs := Function.update (Function.update c.regs .r11
          (encoded msr c.machine (c.machine.mem.word c.rsp))) .r10
            (c.machine.get c.machine.gs .diff)
        rip := c.rip + BitVec.ofNat 64 (spaLengthOfProtectedPrologue msr)
        flags := c.encodedFlags msr (c.machine.mem.word c.rsp)
        machine := prologue msr c.rsp c.machine }) := by
  have haddr : (Operand.mem 0 .rsp none).addr c = c.rsp := by simp [Operand.addr, Cpu.rsp]
  have hload := exec_movLoad (c := c) (.mem 0 .rsp none) .r11 (by rwa [haddr])
  rw [haddr] at hload
  let c₁ : Cpu := (c.setReg .r11 (c.machine.mem.word c.rsp)).jump
    (c.next (.movLoad (.mem 0 .rsp none) .r11))
  have hzero : 0 + c₁.rsp = c.rsp := BitVec.zero_add _
  have hstore : 0 + c₁.rsp + c₁.machine.get c₁.machine.gs .diff =
      c.rsp + c.machine.get c.machine.gs .diff := by
    rw [hzero]
    rfl
  have hfill := run_fillCode (c := c₁) msr [] hpage hstore hslot
  have hlength : c.rip + BitVec.ofNat 64 (spaLengthOfProtectedPrologue msr) =
      c₁.rip + BitVec.ofNat 64 (codeLength (fillCode msr 0)) := by
    rw [← codeLength_prologueCode, prologueCode, codeLength_cons]
    exact (c.next_add _ _).symm
  have hregs : Function.update c₁.regs .r11 (encoded msr c.machine (c₁.regs .r11)) =
      Function.update c.regs .r11 (encoded msr c.machine (c.machine.mem.word c.rsp)) :=
    Function.update_idem ..
  rw [List.append_nil] at hfill
  rw [prologueCode, runCode_cons hload, hfill, hlength, ← hregs]
  rfl

/-- What the code makes of the word `v` of a slot. -/
def decoded (msr : Bool) (m : Machine) (v : Word) : Word := if msr then v - m.get m.gs .r else v

theorem run_decodeCode (msr : Bool) (code : List Instr)
    (hpage : IsMapped c.machine.mem c.machine.gs realMetaDataSize) :
    ∃ flags, runCode (decodeCode msr ++ code) c = runCode code { c with
      regs := Function.update c.regs .r11 (decoded msr c.machine (c.regs .r11))
      rip := c.rip + BitVec.ofNat 64 (codeLength (decodeCode msr))
      flags := flags } := by
  cases msr with
  | false => exact ⟨c.flags, by simp [decodeCode, decoded, codeLength]⟩
  | true =>
      have hread : c.read ((Operand.gs .r).addr c) = .ok (c.machine.get c.machine.gs .r) :=
        if_neg (mapped_field hpage .r)
      refine ⟨Flags.ofSub (c.regs .r11) (c.machine.get c.machine.gs .r), ?_⟩
      rw [decodeCode, if_pos rfl, List.singleton_append]
      refine runCode_cons ?_
      simp only [Instr.exec, hread]
      rfl

/-- The epilogue jumps to the decoded word of the slot, with the stack pointer above the return
address. -/
theorem run_epilogue (msr : Bool)
    (hpage : IsMapped c.machine.mem c.machine.gs realMetaDataSize)
    (hslot : c.machine.mem.prot (c.rsp + c.machine.get c.machine.gs .diff) ≠ .none) :
    runCode (epilogueCode msr) c = .ok ((),
      { regs := Function.update (Function.update c.regs .r11 (epilogue msr c.rsp c.machine)) .rsp
          (c.rsp + BitVec.ofNat 64 spaCpuWordLength)
        rip := epilogue msr c.rsp c.machine
        flags := Flags.ofAdd c.rsp (BitVec.ofNat 64 spaCpuWordLength)
        machine := c.machine }) := by
  let c₁ : Cpu := (c.setReg .r11 (c.machine.get c.machine.gs .diff)).jump
    (c.next (.movLoad (.gs .diff) .r11))
  have hdiff : (Instr.movLoad (.gs .diff) .r11).exec c = .ok ((), c₁) :=
    exec_movLoad (.gs .diff) .r11 (mapped_field hpage .diff)
  have haddr : (Operand.mem 0 .rsp (some .r11)).addr c₁ =
      c.rsp + c.machine.get c.machine.gs .diff :=
    congrArg (· + c.machine.get c.machine.gs .diff) (BitVec.zero_add c.rsp)
  have hload := exec_movLoad (c := c₁) (.mem 0 .rsp (some .r11)) .r11 (by
    rw [haddr]
    exact hslot)
  rw [haddr] at hload
  rw [epilogueCode, List.cons_append, runCode_cons hdiff, List.cons_append, runCode_cons hload]
  generalize hc₂ : Cpu.jump _ _ = c₂
  have hmachine : c₂.machine = c.machine := hc₂ ▸ rfl
  have hword : c₂.regs .r11 = c.machine.mem.word (c.rsp + c.machine.get c.machine.gs .diff) :=
    hc₂ ▸ rfl
  have hregs : Function.update c₂.regs .r11 (epilogue msr c.rsp c.machine) =
      Function.update c.regs .r11 (epilogue msr c.rsp c.machine) := by
    rw [← hc₂]
    exact (Function.update_idem ..).trans (Function.update_idem ..)
  obtain ⟨flags, hdecode⟩ := run_decodeCode (c := c₂) msr
    [.addImm (BitVec.ofNat 64 spaCpuWordLength) .rsp, .jmpReg .r11] (by rwa [hmachine])
  have hdecoded : decoded msr c₂.machine (c₂.regs .r11) = epilogue msr c.rsp c.machine := by
    rw [hmachine, hword]
    rfl
  rw [hdecode, hdecoded, hregs, hmachine]
  rfl

/-! ### Direct calls -/

/-- The original call of `f` and the prologue there. The rewritten call is compared with it. -/
def plainCall (msr : Bool) (f : Word) : List Instr := .call f :: prologueCode msr

/-- The slot of a call: that of the stack pointer after the push. -/
def Cpu.callSlot (c : Cpu) : Word := c.pushed + c.machine.get c.machine.gs .diff

/-- After a call of `f` with the return address `v`, behind the prologue: the state in which both
kinds of call end. -/
def Cpu.called (c : Cpu) (msr : Bool) (f v : Word) : Cpu where
  regs := Function.update (Function.update (Function.update c.regs .rsp c.pushed) .r11
    (encoded msr c.machine v)) .r10 (c.machine.get c.machine.gs .diff)
  rip := f + BitVec.ofNat 64 (spaLengthOfProtectedPrologue msr)
  flags := c.encodedFlags msr v
  machine := { c.machine with
    mem := (c.machine.mem.set c.pushed v).set c.callSlot (encoded msr c.machine v) }

/-- The machine after the push of `v`, with no slot written yet. -/
def Cpu.push (c : Cpu) (v : Word) : Machine :=
  { c.machine with mem := c.machine.mem.set c.pushed v }

variable {f : Word}

/-- The push leaves the metadata alone. -/
theorem push_get (hout : ¬ InRange c.machine.gs realMetaDataSize c.pushed) (v : Word) (g : Field) :
    (c.push v).get c.machine.gs g = c.machine.get c.machine.gs g :=
  c.machine.mem.set_of_ne fun heq => hout (heq ▸ inRange_field _ g)

theorem prologue_push (msr : Bool) (f : Word)
    (hout : ¬ InRange c.machine.gs realMetaDataSize c.pushed) (v : Word) :
    prologue msr c.pushed (c.push v) = (c.called msr f v).machine := by
  have hdiff : (c.push v).get (c.push v).gs .diff = c.machine.get c.machine.gs .diff :=
    push_get hout v .diff
  have hrandom : (c.push v).get (c.push v).gs .r = c.machine.get c.machine.gs .r :=
    push_get hout v .r
  have hword : (c.push v).mem.word c.pushed = v := c.machine.mem.set_self _ _
  rw [prologue, hdiff, hrandom, hword]
  rfl

/-- The original call and prologue. -/
theorem run_plainCall (hpage : IsMapped c.machine.mem c.machine.gs realMetaDataSize)
    (hout : ¬ InRange c.machine.gs realMetaDataSize c.pushed)
    (hslot : c.machine.mem.prot c.callSlot = .readWrite)
    (hstack : c.machine.mem.prot c.pushed = .readWrite) :
    runCode (plainCall msr f) c = .ok ((), c.called msr f (c.next (.call f))) := by
  let v : Word := c.next (.call f)
  let c₁ : Cpu := (Cpu.setReg { c with machine := c.push v } .rsp c.pushed).jump f
  have hword : c₁.machine.mem.word c₁.rsp = v := c.machine.mem.set_self _ _
  have hdiff : c₁.machine.get c₁.machine.gs .diff = c.machine.get c.machine.gs .diff :=
    push_get hout v .diff
  have hrandom : c₁.machine.get c₁.machine.gs .r = c.machine.get c.machine.gs .r :=
    push_get hout v .r
  have hslot₁ : c₁.machine.mem.prot (c₁.rsp + c₁.machine.get c₁.machine.gs .diff) =
      .readWrite := by
    rw [hdiff]
    exact hslot
  have hencoded : encoded msr c₁.machine (c₁.machine.mem.word c₁.rsp) =
      encoded msr c.machine v := by
    rw [encoded, hword, hrandom, encoded]
  have hflags : c₁.encodedFlags msr (c₁.machine.mem.word c₁.rsp) = c.encodedFlags msr v := by
    rw [Cpu.encodedFlags, hword, hrandom]
    rfl
  have hmachine : prologue msr c₁.rsp c₁.machine = (c.called msr f v).machine :=
    prologue_push msr f hout v
  have hreadable : c₁.machine.mem.prot c₁.rsp ≠ .none := by
    have hprot : c₁.machine.mem.prot c₁.rsp = .readWrite := hstack
    rw [hprot]
    simp
  have hrun := run_prologue (c := c₁) msr hpage hreadable hslot₁
  rw [hencoded, hdiff, hflags, hmachine] at hrun
  rw [plainCall, runCode_cons (exec_call f hstack)]
  exact hrun

/-- The rewritten call. -/
theorem run_directCall (hpage : IsMapped c.machine.mem c.machine.gs realMetaDataSize)
    (hne : c.callSlot ≠ c.pushed) (hslot : c.machine.mem.prot c.callSlot = .readWrite)
    (hstack : c.machine.mem.prot c.pushed = .readWrite) :
    runCode (directCallCode msr f) c = .ok ((), c.called msr f (c.behind msr f)) := by
  let lea : Instr := .leaRip (BitVec.ofNat 64 (codeLength (directCallTail msr f))) .r11
  let c₁ : Cpu := (c.setReg .r11 (c.behind msr f)).jump (c.next lea)
  have hbehind : c.next lea + BitVec.ofNat 64 (codeLength (directCallTail msr f)) =
      c.behind msr f := by
    rw [c.next_add, Cpu.behind, directCallCode, codeLength_cons]
  have hlea : lea.exec c = .ok ((), c₁) := by
    simp only [c₁, ← hbehind]
    rfl
  have haddr : -8 + c₁.rsp + c₁.machine.get c₁.machine.gs .diff = c.callSlot := by
    have hpushed : -8 + c.rsp = c.pushed := by
      rw [Cpu.pushed, BitVec.sub_eq_add_neg, BitVec.add_comm]
      rfl
    exact congrArg (· + c.machine.get c.machine.gs .diff) hpushed
  let target : Word := f + BitVec.ofNat 64 (spaLengthOfProtectedPrologue msr)
  have hfill := run_fillCode (c := c₁) msr [.call target] hpage haddr hslot
  let c₂ : Cpu := c₁.filled msr (-8) c.callSlot
  have hcall := exec_call (c := c₂) target hstack
  have hnext : c₂.next (.call target) = c.behind msr f := by
    rw [← hbehind, directCallTail, codeLength_append, BitVec.ofNat_add, ← BitVec.add_assoc]
    rfl
  have hmem : c₂.machine.mem.set c.pushed (c.behind msr f) =
      (c.called msr f (c.behind msr f)).machine.mem :=
    c.machine.mem.set_comm hne _ _
  have hregs : Function.update c₂.regs .rsp c.pushed =
      (c.called msr f (c.behind msr f)).regs := by
    have hidem : Function.update c₁.regs .r11 (encoded msr c.machine (c.behind msr f)) =
        Function.update c.regs .r11 (encoded msr c.machine (c.behind msr f)) :=
      Function.update_idem ..
    have hfilled : c₂.regs = Function.update (Function.update c₁.regs .r11
      (encoded msr c.machine (c.behind msr f))) .r10 (c.machine.get c.machine.gs .diff) := rfl
    rw [hfilled, hidem, Function.update_comm (by decide), Function.update_comm (a := Reg.r11)
      (by decide)]
    rfl
  have hend : Cpu.jump (Cpu.setReg { c₂ with machine :=
      { c₂.machine with mem := c₂.machine.mem.set c.pushed (c.behind msr f) } } .rsp c.pushed)
        target = c.called msr f (c.behind msr f) := by
    rw [hmem, Cpu.setReg, hregs]
    rfl
  rw [hnext] at hcall
  rw [directCallCode, runCode_cons hlea, directCallTail, hfill, runCode_cons hcall]
  exact congrArg (fun d => Except.ok ((), d)) hend

end Specs

end FlashStack.FsGs
