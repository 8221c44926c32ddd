/-
The inserted sequences, and what they do.

`prologue`, `epilogue` and `directCall` are the instruction sequences that
`add_instrumentation` emits, with its constants: the index `-SPA_USER_SPACE_SIZE`, the 19
bytes of a prologue, the distance of a label. That the texts of the emitted lines assemble
to them is shown with the reader of such lines. On the machine the first two are the actions
of the same names, and a rewritten direct call is a call that runs the prologue of its
callee in advance:

* `run_prologue`: the word at `rsp` goes to the slot of `rsp`;
* `run_epilogue`: control goes to the word in the slot of `rsp`;
* `run_directCall`: the return address goes to the stack and to its slot.

Each of the three says the whole state behind the sequence, registers and flags included; of
the prologue it is also said that it faults where its slot is not mapped. `prologue_step`,
`epilogue_step` and `directCall_step` then say the same in the words of the runtime, for a
thread whose shadow stack is where its metadata says. Everything later cites these, and no
proof about a sequence runs its instructions again, except where other code may come between
them.
-/

import FlashStack.Asm.Cpu

namespace FlashStack.Asm

open Lib.Memory Lib.Program FlashStack.Runtime

/-! ### The code -/

/-- The index of the `%gs` operands: `-SPA_USER_SPACE_SIZE`, which takes back what the GS base has
too much. -/
def shadowIndex : Word := -spaUserSpaceSize

/-- `%gs:disp(%rsp, %r10, 1)`: the slot of the displaced stack pointer, once `%r10` holds the
index. -/
def shadowOperand (disp : Word) : Operand := ⟨true, disp, .rsp, some .r10⟩

/-- The standard prologue: load the return address, and store it in the slot of the stack pointer.
The flags stay as they are. -/
def prologue : List Instr :=
  [.movLoad ⟨false, 0, .rsp, none⟩ .r11,
    .movImm shadowIndex .r10,
    .movStore .r11 (shadowOperand 0)]

/-- The standard epilogue: drop the return address from the call stack without reading it, and
jump to what the slot holds. -/
def epilogue : List Instr :=
  [.movImm shadowIndex .r10,
    .addImm (BitVec.ofNat 64 spaCpuWordLength) .rsp,
    .jmpMem (shadowOperand (-8))]

/-- The rewritten direct call of `f`, after its `leaq`: the slot of the call is filled, and the
prologue of `f` skipped. -/
def directCallTail (f : Word) : List Instr :=
  [.movImm shadowIndex .r10,
    .movStore .r11 (shadowOperand (-8)),
    .call (f + BitVec.ofNat 64 spaLengthOfProtectedPrologue)]

/-- The rewritten direct call of `f`. Its label `1` stands behind the `callq`, at a distance that
is part of the `leaq`. -/
def directCall (f : Word) : List Instr :=
  .leaRip (BitVec.ofNat 64 (codeLength (directCallTail f))) .r11 :: directCallTail f

/-- A call that skips the prologue enters at the first instruction behind it. -/
theorem codeLength_prologue : codeLength prologue = spaLengthOfProtectedPrologue := by decide

/-- The address behind a rewritten direct call at `c`, which is its return address. -/
def Cpu.behind (c : Cpu) (f : Word) : Word :=
  c.rip + BitVec.ofNat 64 (codeLength (directCall f))

/-! ### Operands -/

/-- A shadow operand addresses the slot of the displaced stack pointer. -/
theorem shadowOperand_offset {regs : Reg → Word} (h : regs .r10 = shadowIndex) (disp : Word) :
    (shadowOperand disp).offset regs = regs .rsp + disp - spaUserSpaceSize := by
  simp only [Operand.offset, shadowOperand, Option.map_some, Option.getD_some, h, shadowIndex]
  grind

theorem shadowOperand_addr {t : Tid} {c : Cpu} (h : c.regs .r10 = shadowIndex) (disp : Word) :
    (shadowOperand disp).addr t c = slotAddr (c.machine.threads t).gs (c.rsp + disp) := by
  rw [Operand.addr, shadowOperand_offset h]
  simp only [shadowOperand, if_true, slotAddr, Cpu.rsp]
  grind

theorem stackOperand_addr (t : Tid) (c : Cpu) :
    (⟨false, 0, .rsp, none⟩ : Operand).addr t c = c.rsp := by
  simp [Operand.addr, Operand.offset, Cpu.rsp]

/-! ### Specs -/

section Specs

variable {t : Tid} {c : Cpu} {v : Word}

theorem runCode_cons {i : Instr} {code : List Instr} {c' : Cpu}
    (h : i.exec t c = .ok ((), c')) : runCode t (i :: code) c = runCode t code c' :=
  run_act_ok h

theorem runCode_error {i : Instr} {code : List Instr} {e : Fault}
    (h : i.exec t c = .error e) : runCode t (i :: code) c = .error e :=
  run_act_error h

theorem exec_movLoad {src : Operand} (dst : Reg)
    (h : load64 c.machine.mem (src.addr t c) = some v) :
    (Instr.movLoad src dst).exec t c =
      .ok ((), (c.setReg dst v).jump (c.next (.movLoad src dst))) := by
  simp only [Instr.exec, Cpu.read_eq h]

theorem exec_movStore (src : Reg) {dst : Operand}
    (h : Mapped c.machine.mem (dst.addr t c) 8) :
    (Instr.movStore src dst).exec t c =
      .ok ((), (c.on (c.machine.withMem
        (storeN c.machine.mem (dst.addr t c) 8 (c.regs src).toNat))).jump
          (c.next (.movStore src dst))) := by
  simp only [Instr.exec, Cpu.write_eq h]

theorem exec_movStore_error {src : Reg} {dst : Operand}
    (h : ¬ Mapped c.machine.mem (dst.addr t c) 8) :
    (Instr.movStore src dst).exec t c = .error (.unmapped (dst.addr t c)) := by
  simp only [Instr.exec, Cpu.write, store64, if_neg h]

theorem exec_jmpMem {src : Operand} (h : load64 c.machine.mem (src.addr t c) = some v) :
    (Instr.jmpMem src).exec t c = .ok ((), c.jump v) := by
  simp only [Instr.exec, Cpu.read_eq h]

theorem exec_call (target : Word)
    (h : Mapped c.machine.mem (c.rsp - BitVec.ofNat 64 spaCpuWordLength) 8) :
    (Instr.call target).exec t c =
      .ok ((), ((c.on (c.machine.withMem (storeN c.machine.mem
        (c.rsp - BitVec.ofNat 64 spaCpuWordLength) 8 (c.next (.call target)).toNat))).setReg .rsp
          (c.rsp - BitVec.ofNat 64 spaCpuWordLength)).jump target) := by
  simp only [Instr.exec, Cpu.write_eq h]

/-- The prologue, just before its store to the slot. Its first instruction has read the call
stack, and nothing reads it again. -/
def Cpu.prologueLoaded (c : Cpu) (v : Word) : Cpu where
  regs := Function.update (Function.update c.regs .r11 v) .r10 shadowIndex
  rip := c.rip + 4 + 10
  flags := c.flags
  machine := c.machine

theorem prologueLoaded_addr : (shadowOperand 0).addr t (c.prologueLoaded v) =
    slotAddr (c.machine.threads t).gs c.rsp := by
  rw [shadowOperand_addr rfl]
  exact congrArg _ (BitVec.add_zero _)

theorem runCode_prologue (hload : load64 c.machine.mem c.rsp = some v) :
    runCode t prologue c =
      runCode t [.movStore .r11 (shadowOperand 0)] (c.prologueLoaded v) := by
  have hstack := stackOperand_addr t c
  rw [prologue, runCode_cons (exec_movLoad .r11 (by rw [hstack]; exact hload))]
  rfl

/-- **The prologue** copies the word at `rsp` to the slot of `rsp`, and leaves that word in
`%r11`. -/
theorem run_prologue (hload : load64 c.machine.mem c.rsp = some v)
    (hslot : Mapped c.machine.mem (slotAddr (c.machine.threads t).gs c.rsp) 8) :
    runCode t prologue c = .ok ((),
      { regs := Function.update (Function.update c.regs .r11 v) .r10 shadowIndex
        rip := c.rip + BitVec.ofNat 64 spaLengthOfProtectedPrologue
        flags := c.flags
        machine := c.machine.withMem
          (storeN c.machine.mem (slotAddr (c.machine.threads t).gs c.rsp) 8 v.toNat) }) := by
  have hrip : c.rip + 4 + 10 + 5 = c.rip + BitVec.ofNat 64 spaLengthOfProtectedPrologue := by
    rw [BitVec.add_assoc, BitVec.add_assoc]
    rfl
  rw [runCode_prologue hload,
    runCode_cons (exec_movStore .r11 (by rw [prologueLoaded_addr]; exact hslot)),
    prologueLoaded_addr, ← hrip]
  rfl

theorem run_prologue_unmapped (hload : load64 c.machine.mem c.rsp = some v)
    (hslot : ¬ Mapped c.machine.mem (slotAddr (c.machine.threads t).gs c.rsp) 8) :
    ∃ e, runCode t prologue c = .error e := by
  rw [← prologueLoaded_addr (v := v)] at hslot
  exact ⟨_, (runCode_prologue hload).trans (runCode_error (exec_movStore_error hslot))⟩

/-- **The epilogue** jumps to the word in the slot of `rsp`, with the return address dropped and
the flags of the addition. -/
theorem run_epilogue
    (hload : load64 c.machine.mem (slotAddr (c.machine.threads t).gs c.rsp) = some v) :
    runCode t epilogue c = .ok ((),
      { regs := Function.update (Function.update c.regs .r10 shadowIndex) .rsp
          (c.rsp + BitVec.ofNat 64 spaCpuWordLength)
        rip := v
        flags := Flags.ofAdd c.rsp (BitVec.ofNat 64 spaCpuWordLength)
        machine := c.machine }) := by
  let c₂ : Cpu :=
    { regs := Function.update (Function.update c.regs .r10 shadowIndex) .rsp
        (c.rsp + BitVec.ofNat 64 spaCpuWordLength)
      rip := c.rip + 10 + 4
      flags := Flags.ofAdd c.rsp (BitVec.ofNat 64 spaCpuWordLength)
      machine := c.machine }
  have haddr : (shadowOperand (-8)).addr t c₂ = slotAddr (c.machine.threads t).gs c.rsp := by
    have hback : c.rsp + 8 + -8 = c.rsp := by grind
    rw [shadowOperand_addr rfl]
    exact congrArg _ hback
  have hmov : runCode t epilogue c = runCode t [.jmpMem (shadowOperand (-8))] c₂ := rfl
  rw [hmov, runCode_cons (exec_jmpMem (by rw [haddr]; exact hload))]
  rfl

/-- A rewritten direct call, just before its store to the slot. -/
def Cpu.beforeStore (c : Cpu) (f : Word) : Cpu where
  regs := Function.update (Function.update c.regs .r11 (c.behind f)) .r10 shadowIndex
  rip := c.rip + 7 + 10
  flags := c.flags
  machine := c.machine

theorem codeLength_directCall (f : Word) : codeLength (directCall f) = 28 := rfl

theorem codeLength_directCallTail (f : Word) : codeLength (directCallTail f) = 21 := rfl

theorem add_codeLength_directCall (f : Word) : c.rip + 7 + 21 = c.behind f := by
  have hlength : (7 : Word) + 21 = BitVec.ofNat 64 28 := by decide
  rw [Cpu.behind, codeLength_directCall, BitVec.add_assoc, hlength]

theorem exec_leaRip (disp : Word) (dst : Reg) :
    (Instr.leaRip disp dst).exec t c =
      .ok ((), (c.setReg dst (c.rip + 7 + disp)).jump (c.rip + 7)) := rfl

theorem exec_movImm (v : Word) (dst : Reg) :
    (Instr.movImm v dst).exec t c = .ok ((), (c.setReg dst v).jump (c.rip + 10)) := rfl

theorem runCode_directCall (f : Word) :
    runCode t (directCall f) c = runCode t [.movStore .r11 (shadowOperand (-8)),
      .call (f + BitVec.ofNat 64 spaLengthOfProtectedPrologue)] (c.beforeStore f) := by
  have hbehind : c.rip + 7 + BitVec.ofNat 64 21 = c.behind f := add_codeLength_directCall f
  rw [directCall, runCode_cons (exec_leaRip _ _), directCallTail, runCode_cons (exec_movImm _ _),
    ← directCallTail, codeLength_directCallTail, hbehind]
  rfl

theorem beforeStore_addr (f : Word) : (shadowOperand (-8)).addr t (c.beforeStore f) =
    slotAddr (c.machine.threads t).gs (c.rsp - BitVec.ofNat 64 spaCpuWordLength) := by
  rw [shadowOperand_addr rfl, BitVec.sub_eq_add_neg]
  rfl

/-- **A rewritten direct call** writes the address behind it to the slot and to the
stack, and enters behind the prologue of `f`. -/
theorem run_directCall {f : Word}
    (hslot : Mapped c.machine.mem (slotAddr (c.machine.threads t).gs
      (c.rsp - BitVec.ofNat 64 spaCpuWordLength)) 8)
    (hstack : Mapped c.machine.mem (c.rsp - BitVec.ofNat 64 spaCpuWordLength) 8) :
    runCode t (directCall f) c = .ok ((),
      { regs := Function.update (Function.update (Function.update c.regs .r11 (c.behind f)) .r10
          shadowIndex) .rsp (c.rsp - BitVec.ofNat 64 spaCpuWordLength)
        rip := f + BitVec.ofNat 64 spaLengthOfProtectedPrologue
        flags := c.flags
        machine := c.machine.withMem
          (storeN
            (storeN c.machine.mem (slotAddr (c.machine.threads t).gs
              (c.rsp - BitVec.ofNat 64 spaCpuWordLength)) 8 (c.behind f).toNat)
            (c.rsp - BitVec.ofNat 64 spaCpuWordLength) 8 (c.behind f).toNat) }) := by
  let c₃ : Cpu :=
    { c.beforeStore f with
      rip := c.rip + 7 + 10 + 6
      machine := c.machine.withMem (storeN c.machine.mem (slotAddr (c.machine.threads t).gs
        (c.rsp - BitVec.ofNat 64 spaCpuWordLength)) 8 (c.behind f).toNat) }
  have hnext : c₃.next (.call (f + BitVec.ofNat 64 spaLengthOfProtectedPrologue)) =
      c.behind f := by
    rw [← add_codeLength_directCall, Cpu.next]
    simp only [c₃, BitVec.add_assoc]
    rfl
  have hstore : Instr.exec t (.movStore .r11 (shadowOperand (-8))) (c.beforeStore f) =
      .ok ((), c₃) := by
    rw [exec_movStore .r11 (by rw [beforeStore_addr]; exact hslot), beforeStore_addr]
    rfl
  have hcall := exec_call (t := t) (c := c₃)
    (f + BitVec.ofNat 64 spaLengthOfProtectedPrologue) (mapped_storeN.mpr hstack)
  rw [hnext] at hcall
  rw [runCode_directCall, runCode_cons hstore, runCode_cons hcall]
  rfl

end Specs

/-! ### The sequences as actions of a thread -/

section Actions

variable {t : Tid} {c : Cpu} {r0 ss : Word} {slots : Slots}

/-- The prologue is the action of that name, with the word at `rsp`. -/
theorem prologue_step (h : ThreadAt c.machine t r0 ss slots) (hslot : HasSlot r0 c.rsp)
    {v : Word} (hload : load64 c.machine.mem c.rsp = some v) :
    ∃ c', runCode t prologue c = .ok ((), c') ∧
      (Action.prologue c.rsp v).step t c.machine = .ok c'.machine ∧
      ThreadAt c'.machine t r0 ss (Function.update slots c.rsp (some v)) ∧
      OthersKept t c.machine.mem c'.machine.mem ∧ c'.rsp = c.rsp ∧
      c'.rip = c.rip + BitVec.ofNat 64 spaLengthOfProtectedPrologue := by
  obtain ⟨md, hstack, hdesc⟩ := h
  have hown := hstack.slot_owned hslot
  obtain ⟨m', hstep, hstack', hkept⟩ := hstack.prologue hslot v
  obtain rfl := Except.ok.inj ((Machine.store_owned hown).symm.trans hstep)
  exact ⟨_, run_prologue hload hown.mapped, hstep, ⟨md, hstack', hdesc⟩, hkept.others, rfl, rfl⟩

/-- The epilogue loads the slot of `rsp` and goes there. -/
theorem epilogue_step (h : ThreadAt c.machine t r0 ss slots) {v : Word}
    (hv : slots c.rsp = some v) :
    ∃ c', runCode t epilogue c = .ok ((), c') ∧
      (Action.epilogue c.rsp).step t c.machine = .ok c'.machine ∧ c'.machine = c.machine ∧
      c'.rsp = c.rsp + BitVec.ofNat 64 spaCpuWordLength ∧ c'.rip = v := by
  obtain ⟨md, hstack, -⟩ := h
  obtain ⟨content, hm⟩ := hstack.anchored
  obtain ⟨hslot, hload⟩ := hstack.holds c.rsp v hv
  rw [← hm.gs] at hload
  exact ⟨_, run_epilogue hload, hstack.epilogue hslot, rfl, rfl, rfl⟩

/-- A rewritten direct call is a call, with the prologue of the callee done. -/
theorem directCall_step (h : ThreadAt c.machine t r0 ss slots) (f : Word)
    (hslot : HasSlot r0 (c.rsp - BitVec.ofNat 64 spaCpuWordLength))
    (hword : OwnedBy c.machine.mem .other (c.rsp - BitVec.ofNat 64 spaCpuWordLength) 8) :
    ∃ c', runCode t (directCall f) c = .ok ((), c') ∧
      ThreadAt c'.machine t r0 ss (Function.update slots
        (c.rsp - BitVec.ofNat 64 spaCpuWordLength) (some (c.behind f))) ∧
      c'.rsp = c.rsp - BitVec.ofNat 64 spaCpuWordLength ∧
      OwnedBy c'.machine.mem .other c'.rsp 8 ∧
      load64 c'.machine.mem c'.rsp = some (c.behind f) ∧
      c'.rip = f + BitVec.ofNat 64 spaLengthOfProtectedPrologue := by
  obtain ⟨md, hstack, hdesc⟩ := h
  have hown := hstack.slot_owned hslot
  obtain ⟨m', hstep, hstack', hkept⟩ := hstack.prologue hslot (c.behind f)
  obtain rfl := Except.ok.inj ((Machine.store_owned hown).symm.trans hstep)
  refine ⟨_, run_directCall hown.mapped hword.mapped,
    ThreadAt.store_other ⟨md, hstack', hdesc⟩ (ownedBy_storeN.mpr hword) _, rfl,
    ownedBy_storeN.mpr (ownedBy_storeN.mpr hword), ?_, rfl⟩
  exact load64_storeN_self (mapped_storeN.mpr hword.mapped)

end Actions

end FlashStack.Asm
