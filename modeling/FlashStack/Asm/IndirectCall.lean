/-
A rewritten indirect call against the call it replaces.

The rewritten call loads its target into `%rax`, compares the code there with the beginning
of a protected prologue, and skips the prologue if it is one. It has a branch, so its
instructions are programs with an answer (`CallInstr`), and the operand is whatever the
compiler wrote behind `*`: a register, or memory with a base, an index and a scale. A base
that does not change is part of the displacement. The lengths of the encodings with that
operand are parameters.

* `run_indirectCall_plain`, `run_indirectCall_protected`: the two branches;
* `indirectCall_preserves_iff`: the call is preserved if and only if the target can be read
  as data, the low byte of the address entered is what `%al` held before, and, at a
  protected target, pushing the return address spares the slot;
* `indirectCall_loses_al`: a variadic callee that is told another number of vector
  registers.

What a callee can tell apart is in `SameCall`: the address entered, the stack, the argument
registers, `%al` and the slot. `%r10`, `%r11`, the flags and the rest of `%rax` are free for
the caller to change under the calling conventions, and are not compared. An original call
that faults is not compared either. The equivalence is by the two branches, and each of its
conditions is read off the state that a branch ends in (`sameCall_plain_iff`,
`sameCall_protected_iff`).
-/

import FlashStack.Asm.DirectCall

namespace FlashStack.Asm

open Lib.Memory Lib.Program FlashStack.Runtime

/-! ### The instructions -/

/-- What follows `*` in an indirect call: a register, or memory at
`disp(base, index, scale)`. A base that does not change, `%rip` or `%fs`, is part of the
displacement. -/
inductive CallOperand where
  | reg (r : Reg)
  | mem (gs : Bool) (disp : Word) (base : Option Reg) (index : Option (Reg × Word))

def CallOperand.value (op : CallOperand) (t : Tid) (c : Cpu) : Except Fault Word :=
  match op with
  | .reg r => .ok (c.regs r)
  | .mem gs disp base index =>
      c.read ((if gs then (c.machine.threads t).gs else 0) + disp + (base.map c.regs).getD 0 +
        (index.map fun i => c.regs i.1 * i.2).getD 0)

/-- The flags after the subtraction of `y` from `x`, as a comparison sets them too. -/
def Flags.ofSub (x y : Word) : Flags where
  cf := BitVec.usubOverflow x y
  pf := ((List.range 8).filter (x - y).getLsbD).length % 2 == 0
  af := x.toNat % 16 < y.toNat % 16
  zf := x - y == 0
  sf := (x - y).msb
  of := BitVec.ssubOverflow x y

/-- The instructions of an indirect call. The encoding of an operand takes `length` bytes
with its instruction. -/
inductive CallInstr where
  | instr (i : Instr)
  /-- `movq op, dst` -/
  | movOperand (op : CallOperand) (length : Nat) (dst : Reg)
  /-- `cmpq (src), dst` -/
  | cmpLoad (src dst : Reg)
  /-- `jne`, over the next `disp` bytes; it answers whether it jumps -/
  | jne (disp : Nat)
  /-- `callq *r` -/
  | callReg (r : Reg)
  /-- `callq *op` -/
  | callOperand (op : CallOperand) (length : Nat)

abbrev CallInstr.Res : CallInstr → Type
  | .jne _ => Bool
  | _ => Unit

/-- Push the return address `back` and enter `target`. It fails where the word of the call stack
is not mapped. -/
def Cpu.enter (c : Cpu) (back target : Word) : Except Fault (Unit × Cpu) :=
  match c.write c.pushed back with
  | .error e => .error e
  | .ok c' => .ok ((), (c'.setReg .rsp c.pushed).jump target)

def CallInstr.exec (t : Tid) (i : CallInstr) (c : Cpu) : Except Fault (i.Res × Cpu) :=
  match i with
  | .instr i => i.exec t c
  | .movOperand op length dst =>
      match op.value t c with
      | .error e => .error e
      | .ok v => .ok ((), (c.setReg dst v).jump (c.rip + BitVec.ofNat 64 length))
  | .cmpLoad src dst =>
      match c.read (c.regs src) with
      | .error e => .error e
      | .ok v => .ok ((), { c with rip := c.rip + 3, flags := Flags.ofSub (c.regs dst) v })
  | .jne disp =>
      .ok (!c.flags.zf, c.jump (c.rip + 2 + if c.flags.zf then 0 else BitVec.ofNat 64 disp))
  | .callReg r => c.enter (c.rip + 2) (c.regs r)
  | .callOperand op length =>
      match op.value t c with
      | .error e => .error e
      | .ok v => c.enter (c.rip + BitVec.ofNat 64 length) v

abbrev CallProgram := Prog CallInstr CallInstr.Res

def emit (i : CallInstr) : CallProgram i.Res := Prog.lift i

/-! ### The two calls -/

/-- The instructions over which `jne 1f` jumps: from the `leaq` to label `1`. -/
def skipPrologue : List Instr :=
  [.leaRip 22 .r11,
    .movImm shadowIndex .r10,
    .movStore .r11 (shadowOperand (-8)),
    .addImm (BitVec.ofNat 64 spaLengthOfProtectedPrologue) .rax]

def emitAll : List Instr → CallProgram Unit
  | [] => .ret ()
  | i :: code => .act (.instr i) fun _ => emitAll code

/-- The rewritten `callq *op`. Its label `2` stands behind it, and is the return address of both
branches. -/
def indirectCall (op : CallOperand) (length : Nat) : CallProgram Unit := do
  emit (.movOperand op length .rax)
  emit (.instr (.movImm spaProtectedFuncMagicNum .r11))
  emit (.cmpLoad .rax .r11)
  let jumps ← emit (.jne (codeLength skipPrologue))
  if jumps then
    emit (.callReg .rax)
  else
    emitAll skipPrologue
    emit (.callReg .rax)

/-- The code at `target` begins like a protected prologue. The test reads eight bytes of code as
data, so the target has to be readable. -/
def Cpu.ProtectedAt (c : Cpu) (target : Word) : Prop :=
  load64 c.machine.mem target = some spaProtectedFuncMagicNum

instance (c : Cpu) (target : Word) : Decidable (c.ProtectedAt target) :=
  inferInstanceAs (Decidable (load64 c.machine.mem target = some spaProtectedFuncMagicNum))

/-- The original `callq *op`, and the prologue at a protected target, which the rewritten call has
run in advance. -/
def plainIndirectCall (op : CallOperand) (length : Nat) (isProtected : Bool) :
    CallProgram Unit := do
  emit (.callOperand op length)
  if isProtected then emitAll prologue else return ()

/-- Label `2` of a rewritten call at `c`. -/
def Cpu.behindIndirect (c : Cpu) (length : Nat) : Word :=
  c.rip + BitVec.ofNat 64 (length + 10 + 3 + 2 + codeLength skipPrologue + 2)

/-- Where the original call stands, for it to return to `back`. The two calls have different
lengths, and are compared at one return address. -/
def Cpu.returningTo (c : Cpu) (back : Word) (length : Nat) : Cpu :=
  c.jump (back - BitVec.ofNat 64 length)

/-- The address behind the prologue of a protected target, or the target. It is also what the
rewritten call leaves in `%rax`. -/
def Cpu.entered (c : Cpu) (target : Word) : Word :=
  if c.ProtectedAt target then target + BitVec.ofNat 64 spaLengthOfProtectedPrologue else target

/-! ### Specs -/

section Specs

variable {t : Tid} {c : Cpu} {v w : Word}

theorem run_emitAll (code : List Instr) (c : Cpu) :
    run (CallInstr.exec t) (emitAll code) c = runCode t code c := by
  induction code generalizing c with
  | nil => rfl
  | cons i code ih =>
      cases hexec : i.exec t c with
      | error e =>
          have hemit : (CallInstr.instr i).exec t c = .error e := hexec
          exact (run_act_error hemit).trans (runCode_error hexec).symm
      | ok out =>
          have hemit : (CallInstr.instr i).exec t c = .ok ((), out.2) := hexec
          exact (run_act_ok hemit).trans ((ih out.2).trans (runCode_cons hexec).symm)

theorem Cpu.enter_eq (h : Mapped c.machine.mem c.pushed 8) (back target : Word) :
    c.enter back target = .ok ((), ((c.on (c.machine.withMem
      (storeN c.machine.mem c.pushed 8 back.toNat))).setReg .rsp c.pushed).jump target) := by
  simp only [Cpu.enter, Cpu.write_eq h]

theorem Cpu.enter_error (h : ¬ Mapped c.machine.mem c.pushed 8) (back target : Word) :
    c.enter back target = .error (.unmapped c.pushed) := by
  simp only [Cpu.enter, Cpu.write, store64, if_neg h]

theorem exec_callReg (r : Reg) :
    (CallInstr.callReg r).exec t c = c.enter (c.rip + 2) (c.regs r) := rfl

theorem exec_movOperand {op : CallOperand} (hop : op.value t c = .ok v) (length : Nat)
    (dst : Reg) :
    (CallInstr.movOperand op length dst).exec t c =
      .ok ((), (c.setReg dst v).jump (c.rip + BitVec.ofNat 64 length)) := by
  simp only [CallInstr.exec, hop]

theorem exec_callOperand {op : CallOperand} (hop : op.value t c = .ok v) (length : Nat) :
    (CallInstr.callOperand op length).exec t c =
      c.enter (c.rip + BitVec.ofNat 64 length) v := by
  simp only [CallInstr.exec, hop]

/-- A rewritten call, just behind its `cmpq`; the word at the target is `w`. -/
def Cpu.compared (c : Cpu) (length : Nat) (v w : Word) : Cpu where
  regs := Function.update (Function.update c.regs .rax v) .r11 spaProtectedFuncMagicNum
  rip := c.rip + BitVec.ofNat 64 length + 10 + 3
  flags := Flags.ofSub spaProtectedFuncMagicNum w
  machine := c.machine

/-- What follows the comparison: the jump over the instructions that skip the prologue, and the
call, which is made either way. -/
def branch : CallProgram Unit := do
  let jumps ← emit (.jne (codeLength skipPrologue))
  if jumps then
    emit (.callReg .rax)
  else
    emitAll skipPrologue
    emit (.callReg .rax)

theorem run_indirectCall {op : CallOperand} (hop : op.value t c = .ok v) (length : Nat)
    (hcode : load64 c.machine.mem v = some w) :
    run (CallInstr.exec t) (indirectCall op length) c =
      run (CallInstr.exec t) branch (c.compared length v w) := by
  let c₁ : Cpu := (c.setReg .rax v).jump (c.rip + BitVec.ofNat 64 length)
  let c₂ : Cpu := (c₁.setReg .r11 spaProtectedFuncMagicNum).jump (c₁.rip + 10)
  have hmov := exec_movOperand hop length .rax
  have hread : c₂.read (c₂.regs .rax) = .ok w := Cpu.read_eq hcode
  have hcmp : (CallInstr.cmpLoad .rax .r11).exec t c₂ = .ok ((), c.compared length v w) := by
    simp only [CallInstr.exec, hread]
    rfl
  have himm : (CallInstr.instr (.movImm spaProtectedFuncMagicNum .r11)).exec t c₁ = .ok ((), c₂) :=
    rfl
  exact (run_act_ok hmov).trans ((run_act_ok himm).trans (run_act_ok hcmp))

theorem run_indirectCall_unmapped {op : CallOperand} (hop : op.value t c = .ok v) (length : Nat)
    (hcode : ¬ Mapped c.machine.mem v 8) :
    ∃ e, run (CallInstr.exec t) (indirectCall op length) c = .error e := by
  let c₁ : Cpu := (c.setReg .rax v).jump (c.rip + BitVec.ofNat 64 length)
  let c₂ : Cpu := (c₁.setReg .r11 spaProtectedFuncMagicNum).jump (c₁.rip + 10)
  have hmov := exec_movOperand hop length .rax
  have hload : load64 c₂.machine.mem (c₂.regs .rax) = none := by
    cases hv : load64 c.machine.mem v with
    | none => exact hv
    | some w => exact absurd (mapped_of_load64 hv) hcode
  have hcmp : (CallInstr.cmpLoad .rax .r11).exec t c₂ = .error (.unmapped (c₂.regs .rax)) := by
    simp only [CallInstr.exec, Cpu.read, hload]
  have himm : (CallInstr.instr (.movImm spaProtectedFuncMagicNum .r11)).exec t c₁ = .ok ((), c₂) :=
    rfl
  exact ⟨_, (run_act_ok hmov).trans ((run_act_ok himm).trans (run_act_error hcmp))⟩

theorem compared_rip (length : Nat) :
    (c.compared length v w).rip + 2 + BitVec.ofNat 64 (codeLength skipPrologue) + 2 =
      c.behindIndirect length := by
  have hskip : codeLength skipPrologue = 27 := by decide
  simp only [Cpu.compared, Cpu.behindIndirect, hskip, BitVec.ofNat_add]
  grind

theorem ofSub_zf (x y : Word) : (Flags.ofSub x y).zf = true ↔ y = x := by
  simp only [Flags.ofSub, beq_iff_eq]
  constructor
  · intro h
    grind
  · rintro rfl
    exact BitVec.sub_self _

/-- Not a protected prologue: the call alone. The jump skips the instructions that fill the slot.
-/
theorem run_branch_plain (hw : w ≠ spaProtectedFuncMagicNum) (length : Nat)
    (hstack : Mapped c.machine.mem c.pushed 8) :
    run (CallInstr.exec t) branch (c.compared length v w) = .ok ((),
      { regs := Function.update (c.compared length v w).regs .rsp c.pushed
        rip := v
        flags := (c.compared length v w).flags
        machine := c.machine.withMem
          (storeN c.machine.mem c.pushed 8 (c.behindIndirect length).toNat) }) := by
  have hzf : (c.compared length v w).flags.zf = false := by
    rw [Bool.eq_false_iff]
    exact fun h => hw ((ofSub_zf _ _).mp h)
  let c₁ : Cpu := (c.compared length v w).jump
    ((c.compared length v w).rip + 2 + BitVec.ofNat 64 (codeLength skipPrologue))
  have hjne : (CallInstr.jne (codeLength skipPrologue)).exec t (c.compared length v w) =
      .ok (true, c₁) := by
    simp only [CallInstr.exec, hzf]
    rfl
  have hcall := exec_callReg (t := t) (c := c₁) .rax
  rw [Cpu.enter_eq (c := c₁) hstack] at hcall
  have hrip : c₁.rip + 2 = c.behindIndirect length := compared_rip length
  rw [hrip] at hcall
  exact (run_act_ok hjne).trans (run_act_ok hcall)

/-- Behind the instructions over which a call of an unprotected target jumps. -/
theorem run_skipPrologue (hslot : Mapped c.machine.mem (c.callSlot t) 8) :
    ∃ flags, runCode t skipPrologue c = .ok ((),
      { regs := Function.update (Function.update (Function.update c.regs .r11 (c.rip + 7 + 22)) .r10
          shadowIndex) .rax (c.regs .rax + BitVec.ofNat 64 spaLengthOfProtectedPrologue)
        rip := c.rip + 7 + 10 + 6 + 4
        flags := flags
        machine := c.machine.withMem
          (storeN c.machine.mem (c.callSlot t) 8 (c.rip + 7 + 22).toNat) }) := by
  let c₂ : Cpu :=
    { regs := Function.update (Function.update c.regs .r11 (c.rip + 7 + 22)) .r10 shadowIndex
      rip := c.rip + 7 + 10
      flags := c.flags
      machine := c.machine }
  have haddr : (shadowOperand (-8)).addr t c₂ = c.callSlot t := by
    rw [shadowOperand_addr rfl, Cpu.callSlot, Cpu.pushed, BitVec.sub_eq_add_neg]
    rfl
  have hstore := exec_movStore (c := c₂) .r11 (by rw [haddr]; exact hslot)
  rw [haddr] at hstore
  exact ⟨_, (runCode_cons (exec_leaRip _ _)).trans
    ((runCode_cons (exec_movImm _ _)).trans ((runCode_cons hstore).trans rfl))⟩

/-- A protected prologue: the slot is filled, and the call enters behind the prologue. -/
theorem run_branch_protected (length : Nat) (hslot : Mapped c.machine.mem (c.callSlot t) 8)
    (hstack : Mapped c.machine.mem c.pushed 8) :
    ∃ flags, run (CallInstr.exec t) branch (c.compared length v spaProtectedFuncMagicNum) =
      .ok ((),
        { regs := Function.update (Function.update (Function.update (Function.update
            (c.compared length v spaProtectedFuncMagicNum).regs .r11 (c.behindIndirect length)) .r10
              shadowIndex) .rax (v + BitVec.ofNat 64 spaLengthOfProtectedPrologue)) .rsp c.pushed
          rip := v + BitVec.ofNat 64 spaLengthOfProtectedPrologue
          flags := flags
          machine := c.machine.withMem
            (storeN (storeN c.machine.mem (c.callSlot t) 8 (c.behindIndirect length).toNat)
              c.pushed 8 (c.behindIndirect length).toNat) }) := by
  have hzf : (c.compared length v spaProtectedFuncMagicNum).flags.zf = true :=
    (ofSub_zf _ _).mpr rfl
  let c₁ : Cpu := (c.compared length v spaProtectedFuncMagicNum).jump
    ((c.compared length v spaProtectedFuncMagicNum).rip + 2 + 0)
  have hjne : (CallInstr.jne (codeLength skipPrologue)).exec t
      (c.compared length v spaProtectedFuncMagicNum) = .ok (false, c₁) := by
    simp only [CallInstr.exec, hzf]
    rfl
  have hback := compared_rip (c := c) (v := v) (w := spaProtectedFuncMagicNum) length
  have hskip : codeLength skipPrologue = 27 := by decide
  have hlea : c₁.rip + 7 + 22 = c.behindIndirect length := by
    rw [← hback, hskip]
    simp only [c₁, Cpu.jump]
    grind
  have hnext : c₁.rip + 7 + 10 + 6 + 4 + 2 = c.behindIndirect length := by
    rw [← hlea]
    grind
  obtain ⟨flags, hrun⟩ := run_skipPrologue (c := c₁) hslot
  rw [hlea] at hrun
  let c₂ : Cpu :=
    { regs := Function.update (Function.update (Function.update
        (c.compared length v spaProtectedFuncMagicNum).regs .r11 (c.behindIndirect length)) .r10
          shadowIndex) .rax (v + BitVec.ofNat 64 spaLengthOfProtectedPrologue)
      rip := c₁.rip + 7 + 10 + 6 + 4
      flags := flags
      machine := c.machine.withMem
        (storeN c.machine.mem (c.callSlot t) 8 (c.behindIndirect length).toNat) }
  have hfill : run (CallInstr.exec t) (emitAll skipPrologue) c₁ = .ok ((), c₂) :=
    (run_emitAll skipPrologue c₁).trans hrun
  have hcall := exec_callReg (t := t) (c := c₂) .rax
  rw [Cpu.enter_eq (c := c₂) (mapped_storeN.mpr hstack)] at hcall
  have hrip : c₂.rip + 2 = c.behindIndirect length := hnext
  rw [hrip] at hcall
  have hrest : run (CallInstr.exec t) (emitAll skipPrologue >>= fun _ => emit (.callReg .rax)) c₁ =
      run (CallInstr.exec t) (emit (.callReg .rax)) c₂ := by
    rw [run_bind, hfill]
  exact ⟨flags, (run_act_ok hjne).trans (hrest.trans (run_act_ok hcall))⟩

/-- What a call does does not depend on where it stands. -/
theorem Cpu.enter_jump (a back target : Word) :
    (c.jump a).enter back target = c.enter back target := by
  by_cases hstack : Mapped c.machine.mem c.pushed 8
  · exact (Cpu.enter_eq (c := c.jump a) hstack back target).trans
      (Cpu.enter_eq hstack back target).symm
  · exact (Cpu.enter_error (c := c.jump a) hstack back target).trans
      (Cpu.enter_error hstack back target).symm

theorem exec_returningTo {op : CallOperand} (hop : op.value t c = .ok v) (back : Word)
    (length : Nat) :
    (CallInstr.callOperand op length).exec t (c.returningTo back length) = c.enter back v := by
  have hvalue : op.value t (c.returningTo back length) = .ok v := hop
  have hback : (c.returningTo back length).rip + BitVec.ofNat 64 length = back :=
    BitVec.sub_add_cancel _ _
  rw [exec_callOperand hvalue, hback]
  exact Cpu.enter_jump _ back v

/-- The original call of an unprotected target. -/
theorem run_plainIndirectCall_plain {op : CallOperand} (hop : op.value t c = .ok v)
    (hstack : Mapped c.machine.mem c.pushed 8) (back : Word) (length : Nat) :
    run (CallInstr.exec t) (plainIndirectCall op length false) (c.returningTo back length) =
      .ok ((), ((c.on (c.machine.withMem
        (storeN c.machine.mem c.pushed 8 back.toNat))).setReg .rsp c.pushed).jump v) := by
  have hcall := exec_returningTo hop back length
  rw [Cpu.enter_eq hstack] at hcall
  exact run_act_ok hcall

/-- The original call of a protected target, and its prologue. -/
theorem run_plainIndirectCall_protected {op : CallOperand} (hop : op.value t c = .ok v)
    (hslot : Mapped c.machine.mem (c.callSlot t) 8) (hstack : Mapped c.machine.mem c.pushed 8)
    (back : Word) (length : Nat) :
    run (CallInstr.exec t) (plainIndirectCall op length true) (c.returningTo back length) =
      .ok ((),
        { regs := Function.update (Function.update (Function.update c.regs .rsp c.pushed) .r11
            back) .r10 shadowIndex
          rip := v + BitVec.ofNat 64 spaLengthOfProtectedPrologue
          flags := c.flags
          machine := c.machine.withMem
            (storeN (storeN c.machine.mem c.pushed 8 back.toNat) (c.callSlot t) 8
              back.toNat) }) := by
  have hcall := exec_returningTo hop back length
  rw [Cpu.enter_eq hstack] at hcall
  let c₁ : Cpu := ((c.on (c.machine.withMem
    (storeN c.machine.mem c.pushed 8 back.toNat))).setReg .rsp c.pushed).jump v
  have hprologue := run_prologue (t := t) (c := c₁) (load64_storeN_self hstack)
    (mapped_storeN.mpr hslot)
  exact (run_act_ok hcall).trans ((run_emitAll prologue c₁).trans hprologue)

/-- Where the original call runs, the words it writes are mapped. -/
theorem mapped_of_plainIndirectCall {op : CallOperand} (hop : op.value t c = .ok v)
    {back : Word} {length : Nat} {isProtected : Bool} {d : Cpu}
    (hrun : run (CallInstr.exec t) (plainIndirectCall op length isProtected)
      (c.returningTo back length) = .ok ((), d)) :
    Mapped c.machine.mem c.pushed 8 ∧
      (isProtected = true → Mapped c.machine.mem (c.callSlot t) 8) := by
  have hcall := exec_returningTo hop back length
  by_cases hstack : Mapped c.machine.mem c.pushed 8
  · refine ⟨hstack, ?_⟩
    rintro rfl
    by_contra hslot
    rw [Cpu.enter_eq hstack] at hcall
    let c₁ : Cpu := ((c.on (c.machine.withMem
      (storeN c.machine.mem c.pushed 8 back.toNat))).setReg .rsp c.pushed).jump v
    obtain ⟨e, hfault⟩ := run_prologue_unmapped (t := t) (c := c₁) (load64_storeN_self hstack)
      fun hmapped => hslot (mapped_storeN.mp hmapped)
    have hrest : run (CallInstr.exec t) (plainIndirectCall op length true)
        (c.returningTo back length) = run (CallInstr.exec t) (emitAll prologue) c₁ :=
      run_act_ok hcall
    cases hrun.symm.trans (hrest.trans ((run_emitAll prologue c₁).trans hfault))
  · rw [Cpu.enter_error hstack] at hcall
    cases hrun.symm.trans (run_act_error hcall)

end Specs

/-! ### Preservation -/

/-- The registers that carry integer arguments, besides `%al`. Vector registers are not touched,
and not modelled. -/
def argumentRegs : List Reg := [.rdi, .rsi, .rdx, .rcx, .r8, .r9]

/-- `%al`: to a variadic callee, the number of vector registers in use. -/
def Cpu.al (c : Cpu) : BitVec 8 := (c.regs .rax).setWidth 8

/-- `d`, reached by the rewritten call, is to the callee what `d₀` is. The scratch registers and
the flags are not compared, nor is memory in the slot of an unprotected callee. -/
structure SameCall (slot back : Word) (isProtected : Bool) (d₀ d : Cpu) : Prop where
  rip : d.rip = d₀.rip
  rsp : d.rsp = d₀.rsp
  pushed : load64 d.machine.mem d.rsp = some back
  mem : ∀ x, ¬ InRange slot 8 x → d.machine.mem x = d₀.machine.mem x
  args : ∀ r ∈ argumentRegs, d.regs r = d₀.regs r
  al : d.al = d₀.al
  slot : isProtected = true → load64 d.machine.mem slot = some back

/-- **The call is preserved**: when the original call, returning to the same address,
reaches the body of its target, so does the rewritten one, and it makes no difference to
the callee. -/
def Preserves (t : Tid) (op : CallOperand) (movLength callLength : Nat) (c : Cpu) : Prop :=
  ∀ v d₀, op.value t c = .ok v →
    run (CallInstr.exec t) (plainIndirectCall op callLength (c.ProtectedAt v))
      (c.returningTo (c.behindIndirect movLength) callLength) = .ok ((), d₀) →
    ∃ d, run (CallInstr.exec t) (indirectCall op movLength) c = .ok ((), d) ∧
      SameCall (c.callSlot t) (c.behindIndirect movLength) (c.ProtectedAt v) d₀ d

/-- A push of `v` at `word` leaves the bytes of `v` at `slot` as they are: the two words
are apart, or agree where they overlap. -/
def SurvivesPush (slot word v : Word) : Prop :=
  ∀ k < 8, InRange word 8 (slot + BitVec.ofNat 64 k) →
    BitVec.ofNat 8 (v.toNat / 256 ^ (slot + BitVec.ofNat 64 k - word).toNat) =
      BitVec.ofNat 8 (v.toNat / 256 ^ k)

theorem survivesPush_of_apart {slot word : Word} (h : Apart word slot) (v : Word) :
    SurvivesPush slot word v := by
  intro k hk hin
  have hout : ¬ InRange word 8 (slot + BitVec.ofNat 64 k) := by
    unfold Apart at h
    unfold InRange
    bv_omega
  exact absurd hin hout

/-- What the rewritten call needs of the state before it, beside that the original one reaches its
callee. -/
structure CanRewrite (t : Tid) (back v : Word) (c : Cpu) : Prop where
  readable : Mapped c.machine.mem v 8
  al : c.al = (c.entered v).setWidth 8
  slot : c.ProtectedAt v → SurvivesPush (c.callSlot t) c.pushed back

section Preservation

variable {t : Tid} {c : Cpu} {v : Word} {op : CallOperand} {movLength callLength : Nat}

theorem load_pushed_slot {mem : Space Owner} {slot word back : Word} (hslot : Mapped mem slot 8) :
    load64 (storeN (storeN mem slot 8 back.toNat) word 8 back.toNat) slot = some back ↔
      SurvivesPush slot word back := by
  have hself := load64_storeN_self (v := back) hslot
  have hmapped : Mapped (storeN mem slot 8 back.toNat) slot 8 := mapped_storeN.mpr hslot
  constructor
  · intro hload k hk hin
    have hbyte := byteOf_of_load64 hload hk
    rw [byteOf_storeN_at hin (hmapped k hk)] at hbyte
    exact Option.some.inj hbyte
  · intro hsurvives
    rw [← hself]
    apply load64_congr
    intro k hk
    by_cases hin : InRange word 8 (slot + BitVec.ofNat 64 k)
    · rw [byteOf_storeN_at hin (hmapped k hk), byteOf_of_load64 hself hk, hsurvives k hk hin]
    · rw [byteOf, byteOf, storeN_outside hin]

/-- The sequence and the prologue write to none of the argument registers. -/
theorem argumentRegs_ne {r : Reg} (hr : r ∈ argumentRegs) :
    r ≠ .rax ∧ r ≠ .rsp ∧ r ≠ .r10 ∧ r ≠ .r11 := by
  simp only [argumentRegs, List.mem_cons, List.not_mem_nil, or_false] at hr
  rcases hr with rfl | rfl | rfl | rfl | rfl | rfl <;> decide

/-- The calls of a target that is not protected. What may differ is `%al`, which now holds the low
byte of the target. -/
theorem sameCall_plain_iff (hop : op.value t c = .ok v) (hplain : ¬ c.ProtectedAt v)
    {d₀ : Cpu} (hrun : run (CallInstr.exec t) (plainIndirectCall op callLength false)
      (c.returningTo (c.behindIndirect movLength) callLength) = .ok ((), d₀)) :
    (∃ d, run (CallInstr.exec t) (indirectCall op movLength) c = .ok ((), d) ∧
      SameCall (c.callSlot t) (c.behindIndirect movLength) false d₀ d) ↔
      Mapped c.machine.mem v 8 ∧ c.al = v.setWidth 8 := by
  obtain ⟨hstack, -⟩ := mapped_of_plainIndirectCall hop hrun
  have hplainRun := run_plainIndirectCall_plain hop hstack (c.behindIndirect movLength) callLength
  obtain rfl := (Prod.mk.inj (Except.ok.inj (hplainRun.symm.trans hrun))).2
  by_cases hcode : Mapped c.machine.mem v 8
  · obtain ⟨w, hw⟩ := load64_isSome hcode
    have hne : w ≠ spaProtectedFuncMagicNum := fun h => hplain (hw.trans (congrArg some h))
    have hnew := (run_indirectCall hop movLength hw).trans
      (run_branch_plain (v := v) hne movLength hstack)
    constructor
    · rintro ⟨d, hd, hsame⟩
      obtain rfl := (Prod.mk.inj (Except.ok.inj (hnew.symm.trans hd))).2
      exact ⟨hcode, hsame.al.symm⟩
    · rintro ⟨-, hal⟩
      refine ⟨_, hnew, rfl, rfl, load64_storeN_self hstack, fun _ _ => rfl, ?_, hal.symm, by simp⟩
      intro r hr
      obtain ⟨hrax, hrsp, -, hr11⟩ := argumentRegs_ne hr
      simp [Cpu.compared, Cpu.setReg, Cpu.jump, Cpu.on, hrax, hrsp, hr11]
  · obtain ⟨e, hfault⟩ := run_indirectCall_unmapped hop movLength hcode
    constructor
    · rintro ⟨d, hd, -⟩
      cases hfault.symm.trans hd
    · exact fun h => absurd h.1 hcode

/-- The calls of a protected target. Besides `%al`, the word that the call pushes may overlap the
slot that was filled before. -/
theorem sameCall_protected_iff (hop : op.value t c = .ok v) (hprotected : c.ProtectedAt v)
    {d₀ : Cpu} (hrun : run (CallInstr.exec t) (plainIndirectCall op callLength true)
      (c.returningTo (c.behindIndirect movLength) callLength) = .ok ((), d₀)) :
    (∃ d, run (CallInstr.exec t) (indirectCall op movLength) c = .ok ((), d) ∧
      SameCall (c.callSlot t) (c.behindIndirect movLength) true d₀ d) ↔
      c.al = (v + BitVec.ofNat 64 spaLengthOfProtectedPrologue).setWidth 8 ∧
        SurvivesPush (c.callSlot t) c.pushed (c.behindIndirect movLength) := by
  obtain ⟨hstack, hslot⟩ := mapped_of_plainIndirectCall hop hrun
  have hslot := hslot rfl
  have hplainRun := run_plainIndirectCall_protected hop hslot hstack (c.behindIndirect movLength)
    callLength
  obtain rfl := (Prod.mk.inj (Except.ok.inj (hplainRun.symm.trans hrun))).2
  obtain ⟨flags, hbranch⟩ := run_branch_protected (v := v) movLength hslot hstack
  have hnew := (run_indirectCall hop movLength hprotected).trans hbranch
  constructor
  · rintro ⟨d, hd, hsame⟩
    obtain rfl := (Prod.mk.inj (Except.ok.inj (hnew.symm.trans hd))).2
    exact ⟨hsame.al.symm, (load_pushed_slot hslot).mp (hsame.slot rfl)⟩
  · rintro ⟨hal, hsurvives⟩
    refine ⟨_, hnew, rfl, ?_, load64_storeN_self (mapped_storeN.mpr hstack), ?_, ?_, ?_,
      fun _ => (load_pushed_slot hslot).mpr hsurvives⟩
    · simp [Cpu.rsp]
    · intro x hx
      exact (storeN_congr (storeN_outside hx) c.pushed 8 _).trans (storeN_outside hx).symm
    · intro r hr
      obtain ⟨hrax, hrsp, hr10, hr11⟩ := argumentRegs_ne hr
      simp [Cpu.compared, hrax, hrsp, hr10, hr11]
    · simpa [Cpu.al] using hal.symm

/-- **Rewritten indirect calls**: the call is preserved if and only if, where the original
call reaches its callee, the target can be read as data, the low byte of the address
entered is what `%al` holds, and the push leaves the slot of a protected target alone. -/
theorem indirectCall_preserves_iff (t : Tid) (op : CallOperand) (movLength callLength : Nat)
    (c : Cpu) :
    Preserves t op movLength callLength c ↔
      ∀ v d₀, op.value t c = .ok v →
        run (CallInstr.exec t) (plainIndirectCall op callLength (c.ProtectedAt v))
          (c.returningTo (c.behindIndirect movLength) callLength) = .ok ((), d₀) →
        CanRewrite t (c.behindIndirect movLength) v c := by
  have hiff : ∀ v d₀, op.value t c = .ok v →
      run (CallInstr.exec t) (plainIndirectCall op callLength (c.ProtectedAt v))
        (c.returningTo (c.behindIndirect movLength) callLength) = .ok ((), d₀) →
      ((∃ d, run (CallInstr.exec t) (indirectCall op movLength) c = .ok ((), d) ∧
        SameCall (c.callSlot t) (c.behindIndirect movLength) (c.ProtectedAt v) d₀ d) ↔
        CanRewrite t (c.behindIndirect movLength) v c) := by
    intro v d₀ hop hrun
    by_cases hprotected : c.ProtectedAt v
    · rw [decide_eq_true hprotected] at hrun ⊢
      rw [sameCall_protected_iff hop hprotected hrun]
      constructor
      · rintro ⟨hal, hsurvives⟩
        exact ⟨mapped_of_load64 hprotected, by rw [Cpu.entered, if_pos hprotected]; exact hal,
          fun _ => hsurvives⟩
      · rintro ⟨-, hal, hsurvives⟩
        rw [Cpu.entered, if_pos hprotected] at hal
        exact ⟨hal, hsurvives hprotected⟩
    · rw [decide_eq_false hprotected] at hrun ⊢
      rw [sameCall_plain_iff hop hprotected hrun]
      constructor
      · rintro ⟨hcode, hal⟩
        exact ⟨hcode, by rw [Cpu.entered, if_neg hprotected]; exact hal,
          fun h => absurd h hprotected⟩
      · rintro ⟨hcode, hal, -⟩
        rw [Cpu.entered, if_neg hprotected] at hal
        exact ⟨hcode, hal⟩
  exact forall_congr' fun v => forall_congr' fun d₀ => forall_congr' fun hop =>
    forall_congr' fun hrun => hiff v d₀ hop hrun

end Preservation

/-- `callq *%rcx` of a variadic function at `0x402000`, with one vector register. -/
def variadicCall : Cpu where
  regs := Function.update (Function.update Execution.beforeCall.cpu.regs .rax 1) .rcx 0x402000
  rip := 0x401000
  flags := Execution.beforeCall.cpu.flags
  machine := Execution.beforeCall.cpu.machine.withMem
    (mapZero Execution.beforeCall.cpu.machine.mem .other 0x402000 4096)

theorem variadicCall_plain : ¬ variadicCall.ProtectedAt 0x402000 := by
  have hload : load64 variadicCall.machine.mem 0x402000 = some 0 := by decide
  rw [Cpu.ProtectedAt, hload]
  decide

theorem variadicCall_mapped : Mapped variadicCall.machine.mem variadicCall.pushed 8 := by
  obtain ⟨-, hword, -⟩ := Execution.beforeCall_call 0
  exact hword.mapped.mapZero .other 0x402000 4096

/-- **The callee is told another number of vector registers**: `%al` is the low byte of
its address. -/
theorem indirectCall_loses_al : ¬ ∀ t op movLength callLength c,
    Preserves t op movLength callLength c := by
  intro h
  have hpreserved := h 0 (.reg .rcx) 3 2 variadicCall
  rw [indirectCall_preserves_iff] at hpreserved
  have hop : (CallOperand.reg .rcx).value 0 variadicCall = .ok 0x402000 := rfl
  have hrun := run_plainIndirectCall_plain hop variadicCall_mapped
    (variadicCall.behindIndirect 3) 2
  rw [← decide_eq_false variadicCall_plain] at hrun
  have hal := (hpreserved _ _ hop hrun).al
  rw [Cpu.entered, if_neg variadicCall_plain] at hal
  exact absurd hal (by decide)

end FlashStack.Asm
