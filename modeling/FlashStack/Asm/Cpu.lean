/-
The instructions that `add_instrumentation` inserts, on a 64-bit CPU.

Only the instructions of the inserted sequences are modelled, with the operands that occur
there: eight forms of `mov`, `add`, `lea`, `jmp` and `call`. `Instr.exec t` runs one
instruction on thread `t`. A memory operand may go through the GS base of the thread, which
is part of the machine of the runtime, as `arch_prctl` sets it there.

An access to memory that is not mapped fails. Unlike the accesses of the runtime, an access
of the CPU may reach memory of any owner: the program writes its own memory, and the shadow
stack is written through `%gs`. Page protection is left out, and so are the bytes of the
instructions: an instruction has a length, because the sequences hold offsets that count
bytes, and the code is not read as data by these instructions. The flags are complete, since
the sequences overwrite them and an equality of states speaks of them too.

A straight-line sequence is a program of `Lib.Program`, one action for each instruction. So
the same sequence can be run on its own (`runCode`), with handlers at its boundaries, or
among the actions of other threads.
-/

import FlashStack.Runtime.Action
import Mathlib.Algebra.GroupWithZero.Nat

namespace FlashStack.Asm

open Lib.Memory Lib.Program FlashStack.Runtime

/-! ### The CPU -/

inductive Reg where
  | rax | rbx | rcx | rdx | rsi | rdi | rbp | rsp
  | r8 | r9 | r10 | r11 | r12 | r13 | r14 | r15
deriving DecidableEq, Repr

/-- The status flags. Only `zf` is read by an inserted sequence; the others are there because the
sequences overwrite them. -/
structure Flags where
  cf : Bool
  pf : Bool
  af : Bool
  zf : Bool
  sf : Bool
  of : Bool
deriving DecidableEq, Repr

/-- The flags after the addition of `x` and `y`: carry, parity of the low byte, carry out of the
low four bits, zero, sign and overflow. -/
def Flags.ofAdd (x y : Word) : Flags where
  cf := BitVec.uaddOverflow x y
  pf := ((List.range 8).filter (x + y).getLsbD).length % 2 == 0
  af := 16 ≤ x.toNat % 16 + y.toNat % 16
  zf := x + y == 0
  sf := (x + y).msb
  of := BitVec.saddOverflow x y

/-- The registers of one thread, and the machine it runs on. The GS base is a register of the
machine, since the runtime sets it too. -/
structure Cpu where
  regs : Reg → Word
  rip : Word
  flags : Flags
  machine : Machine

namespace Cpu

def rsp (c : Cpu) : Word := c.regs .rsp

/-- The same registers on another machine. -/
def on (c : Cpu) (m : Machine) : Cpu := { c with machine := m }

@[simp] theorem on_machine (c : Cpu) (m : Machine) : (c.on m).machine = m := rfl
@[simp] theorem on_regs (c : Cpu) (m : Machine) : (c.on m).regs = c.regs := rfl
@[simp] theorem on_rip (c : Cpu) (m : Machine) : (c.on m).rip = c.rip := rfl
@[simp] theorem on_rsp (c : Cpu) (m : Machine) : (c.on m).rsp = c.rsp := rfl
@[simp] theorem on_self (c : Cpu) : c.on c.machine = c := rfl

def setReg (c : Cpu) (r : Reg) (v : Word) : Cpu := { c with regs := Function.update c.regs r v }

@[simp] theorem setReg_machine (c : Cpu) (r : Reg) (v : Word) :
    (c.setReg r v).machine = c.machine := rfl
@[simp] theorem setReg_on (c : Cpu) (r : Reg) (v : Word) (m : Machine) :
    (c.on m).setReg r v = (c.setReg r v).on m := rfl

/-- Go on at `a`. Nothing else changes, so the code there sees the same registers and flags. -/
def jump (c : Cpu) (a : Word) : Cpu := { c with rip := a }

@[simp] theorem jump_machine (c : Cpu) (a : Word) : (c.jump a).machine = c.machine := rfl
@[simp] theorem jump_on (c : Cpu) (a : Word) (m : Machine) :
    (c.on m).jump a = (c.jump a).on m := rfl

end Cpu

/-! ### Instructions -/

/-- A memory operand `disp(base, index, 1)`, through the GS base if `gs` is set. -/
structure Operand where
  gs : Bool
  disp : Word
  base : Reg
  index : Option Reg

/-- The offset from the segment base. All the sums are modulo `2^64`, as are those of the CPU. -/
def Operand.offset (o : Operand) (regs : Reg → Word) : Word :=
  o.disp + regs o.base + (o.index.map regs).getD 0

def Operand.addr (o : Operand) (t : Tid) (c : Cpu) : Word :=
  (if o.gs then (c.machine.threads t).gs else 0) + o.offset c.regs

inductive Instr where
  /-- `movq $v, dst` -/
  | movImm (v : Word) (dst : Reg)
  /-- `movq src, dst` -/
  | movLoad (src : Operand) (dst : Reg)
  /-- `movq src, dst` -/
  | movStore (src : Reg) (dst : Operand)
  /-- `addq $v, dst` -/
  | addImm (v : Word) (dst : Reg)
  /-- `leaq disp(%rip), dst` -/
  | leaRip (disp : Word) (dst : Reg)
  /-- `jmpq *src` -/
  | jmpMem (src : Operand)
  /-- `jmp target` -/
  | jmp (target : Word)
  /-- `callq target` -/
  | call (target : Word)

/-- The bytes an operand with base `%rsp` adds to an instruction: a segment prefix, the
SIB byte, and an 8-bit displacement unless it is zero. -/
def Operand.length (o : Operand) : Nat :=
  (if o.gs then 1 else 0) + 1 + (if o.disp = 0 then 0 else 1)

/-- The length of an encoded instruction. Memory operands have base `%rsp`, and their
instructions a REX prefix. -/
def Instr.length : Instr → Nat
  | .movImm _ _ => 10
  | .movLoad src _ => 3 + src.length
  | .movStore _ dst => 3 + dst.length
  | .addImm _ _ => 4
  | .leaRip _ _ => 7
  | .jmpMem src => 3 + src.length
  | .jmp _ => 5
  | .call _ => 5

def codeLength (code : List Instr) : Nat := (code.map Instr.length).sum

/-- The address of the next instruction. `leaq` with a label and `callq` are relative to it. -/
def Cpu.next (c : Cpu) (i : Instr) : Word := c.rip + BitVec.ofNat 64 i.length

@[simp] theorem Cpu.on_next (c : Cpu) (m : Machine) (i : Instr) : (c.on m).next i = c.next i := rfl

namespace Cpu

def read (c : Cpu) (a : Word) : Except Fault Word :=
  match load64 c.machine.mem a with
  | some v => .ok v
  | none => .error (.unmapped a)

def write (c : Cpu) (a v : Word) : Except Fault Cpu :=
  match store64 c.machine.mem a v with
  | some mem => .ok (c.on (c.machine.withMem mem))
  | none => .error (.unmapped a)

theorem read_eq {c : Cpu} {a v : Word} (h : load64 c.machine.mem a = some v) :
    c.read a = .ok v := by
  simp only [read, h]

theorem write_eq {c : Cpu} {a : Word} (h : Mapped c.machine.mem a 8) (v : Word) :
    c.write a v = .ok (c.on (c.machine.withMem (storeN c.machine.mem a 8 v.toNat))) := by
  simp only [write, store64, if_pos h]

end Cpu

/-- One instruction of thread `t`. An instruction that faults leaves nothing behind, and has no
successor. -/
def Instr.exec (t : Tid) (i : Instr) (c : Cpu) : Except Fault (Unit × Cpu) :=
  match i with
  | .movImm v dst => .ok ((), (c.setReg dst v).jump (c.next i))
  | .movLoad src dst =>
      match c.read (src.addr t c) with
      | .error e => .error e
      | .ok v => .ok ((), (c.setReg dst v).jump (c.next i))
  | .movStore src dst =>
      match c.write (dst.addr t c) (c.regs src) with
      | .error e => .error e
      | .ok c' => .ok ((), c'.jump (c.next i))
  | .addImm v dst =>
      .ok ((), { (c.setReg dst (c.regs dst + v)).jump (c.next i) with
        flags := Flags.ofAdd (c.regs dst) v })
  | .leaRip disp dst => .ok ((), (c.setReg dst (c.next i + disp)).jump (c.next i))
  | .jmpMem src =>
      match c.read (src.addr t c) with
      | .error e => .error e
      | .ok v => .ok ((), c.jump v)
  | .jmp target => .ok ((), c.jump target)
  | .call target =>
      match c.write (c.rsp - BitVec.ofNat 64 spaCpuWordLength) (c.next i) with
      | .error e => .error e
      | .ok c' =>
          .ok ((), (c'.setReg .rsp (c.rsp - BitVec.ofNat 64 spaCpuWordLength)).jump target)

/-- A straight-line sequence, as a program over instructions. A jump in it is meant to be the last
instruction. -/
def straight : List Instr → Prog Instr (fun _ => Unit) Unit
  | [] => .ret ()
  | i :: code => .act i fun _ => straight code

/-- A sequence run without interruption: no signal and no other thread comes between its
instructions. -/
abbrev runCode (t : Tid) (code : List Instr) (c : Cpu) : Except Fault (Unit × Cpu) :=
  run (Instr.exec t) (straight code) c

theorem straight_append (front back : List Instr) :
    straight (front ++ back) = straight front >>= fun _ => straight back := by
  induction front with
  | nil => rfl
  | cons i front ih =>
      rw [List.cons_append, straight, ih]
      rfl

/-- A sequence goes on where its front has ended. -/
theorem runCode_append {t : Tid} {front back : List Instr} {c c' : Cpu}
    (h : runCode t front c = .ok ((), c')) : runCode t (front ++ back) c = runCode t back c' := by
  rw [runCode] at h
  rw [runCode, straight_append, run_bind, h]

end FlashStack.Asm
