/-
Signals inside the inserted sequences.

A handler that runs at an instruction boundary stays below the red zone; when it returns,
the kernel restores the registers. Its actions are those of instrumented code, in any
number, with prologues, writes and re-randomizations among them. What it leaves behind is a
machine that is `Alike`: the region may have moved, but every slot outside the area of the
handler keeps its word.

`Instr.Steady` says that an instruction reads and writes only words outside the area; such
an instruction does the same on machines that are alike (`Instr.Steady.exec`).
`SteadyRun.withstands` composes this over a sequence with a handler at each boundary, and
`signals_transparent` is the result for the inserted sequences: with handlers or without,
the registers behind the sequence are the same and so is all that the sequence was to do.

That the sequences are steady is shown once for each (`steadyRun_prologue`, …). There `top`
is the highest stack pointer during the sequence: in the epilogue the one behind its `addq`,
for the slot that it reads then lies below the stack pointer, inside the red zone. The frame
that the kernel pushes is part of what a handler may write. Instrumented handlers that run
on another stack are not considered.
-/

import FlashStack.Asm.Sequences
import FlashStack.Asm.Alike

namespace FlashStack.Asm

open Lib.Memory Lib.Program Lib.Events FlashStack.Runtime

/-! ### Handlers -/

/-- Run a handler: on return the kernel restores the registers. What the handler did to memory,
and to its shadow stack, stays. -/
def deliver (t : Tid) (h : List Action) (c : Cpu) : Except Fault Cpu :=
  match Runtime.deliver t h c.machine with
  | .error e => .error e
  | .ok m => .ok (c.on m)

/-- The handlers at a boundary: their actions are those of instrumented code in the
range of the thread, all below the red zone of the interrupted `rsp`, and the
re-randomizations among them complete. -/
def HandlerBelow (t : Tid) (r0 : Word) (_ : Instr) (h : Option (List Action)) (c : Cpu) : Prop :=
  ∀ h' ∈ h, Along (fun a m => a.step t m)
    (fun a m => (a.Allowed r0 m ∧ a.Completes t m) ∧ StaysBelow r0 c.rsp a) h' c.machine

/-- The same registers, on a machine that is alike: one of the two runs has had handlers. -/
def Twin (t : Tid) (r0 top : Word) (c d : Cpu) : Prop :=
  ∃ m, d = c.on m ∧ Alike t r0 top c.machine m

section

variable {t : Tid} {r0 top : Word} {c d : Cpu}

/-- A handler below the red zone keeps the twin, although it may move the shadow stack. -/
theorem Twin.deliver (h : Twin t r0 top c d) {i : Instr} {hs : List Action}
    (hh : HandlerBelow t r0 i (some hs) d) (htop : stackOffset r0 c.rsp ≤ stackOffset r0 top) :
    ∃ d', Asm.deliver t hs d = .ok d' ∧ Twin t r0 top c d' := by
  obtain ⟨m, rfl, halike⟩ := h
  obtain ⟨m', hrun, halike'⟩ := run_keeps (I := Alike t r0 top c.machine)
    (fun a _ hm hc => hm.act hc.1.1 hc.1.2 (hc.2.mono htop)) halike (hh hs rfl)
  exact ⟨c.on m', by simp only [Asm.deliver, Runtime.deliver, Cpu.on_machine, hrun]; rfl,
    m', rfl, halike'⟩

/-! ### Instructions on machines that are alike -/

/-- The operand is a slot outside the area, or a word of the call stack outside it. -/
inductive Operand.Above (o : Operand) (r0 top : Word) (c : Cpu) : Prop where
  | slot (rsp : Word) (hgs : o.gs = true) (hslot : SlotAbove r0 top rsp)
      (hoff : o.offset c.regs = rsp - spaUserSpaceSize)
  | stack (hgs : o.gs = false) (hword : WordAbove r0 top c.machine (o.offset c.regs))

def Instr.Steady (r0 top : Word) (c : Cpu) : Instr → Prop
  | .movLoad src _ => src.Above r0 top c
  | .movStore _ dst => dst.Above r0 top c
  | .jmpMem src => src.Above r0 top c
  | .call _ => WordAbove r0 top c.machine (c.rsp - BitVec.ofNat 64 spaCpuWordLength)
  | _ => True

theorem Operand.addr_slot {o : Operand} {rsp : Word} (hgs : o.gs = true)
    (hoff : o.offset c.regs = rsp - spaUserSpaceSize) :
    o.addr t c = slotAddr (c.machine.threads t).gs rsp := by
  rw [Operand.addr, hgs, hoff, if_pos rfl, slotAddr]
  grind

theorem Operand.addr_stack {o : Operand} (hgs : o.gs = false) :
    o.addr t c = o.offset c.regs := by
  rw [Operand.addr, hgs, if_neg (by simp)]
  exact BitVec.zero_add _

variable {m : Machine}

theorem Operand.Above.read {o : Operand} (ho : o.Above r0 top c)
    (h : Alike t r0 top c.machine m) :
    ∃ v, c.read (o.addr t c) = .ok v ∧ (c.on m).read (o.addr t (c.on m)) = .ok v := by
  cases ho with
  | slot rsp hgs hslot hoff =>
      obtain ⟨v, hv, hv'⟩ := h.load_slot hslot
      refine ⟨v, Cpu.read_eq ?_, Cpu.read_eq ?_⟩
      · rw [Operand.addr_slot hgs hoff]
        exact hv
      · rw [Operand.addr_slot (c := c.on m) hgs hoff]
        exact hv'
  | stack hgs hword =>
      obtain ⟨v, hv, hv'⟩ := h.load_stack hword
      refine ⟨v, Cpu.read_eq ?_, Cpu.read_eq ?_⟩
      · rw [Operand.addr_stack hgs]
        exact hv
      · rw [Operand.addr_stack (c := c.on m) hgs]
        exact hv'

theorem Operand.Above.write {o : Operand} (ho : o.Above r0 top c)
    (h : Alike t r0 top c.machine m) (v : Word) :
    ∃ m₁ m₁', c.write (o.addr t c) v = .ok (c.on m₁) ∧
      (c.on m).write (o.addr t (c.on m)) v = .ok (c.on m₁') ∧ Alike t r0 top m₁ m₁' := by
  cases ho with
  | slot rsp hgs hslot hoff =>
      obtain ⟨hmapped, hmapped', halike⟩ := h.store_slot hslot v
      rw [Operand.addr_slot hgs hoff, Operand.addr_slot (c := c.on m) hgs hoff]
      exact ⟨_, _, Cpu.write_eq hmapped v, Cpu.write_eq (c := c.on m) hmapped' v, halike⟩
  | stack hgs hword =>
      have hmapped' := (h.wordAbove hword).owned.mapped
      rw [Operand.addr_stack hgs, Operand.addr_stack (c := c.on m) hgs]
      exact ⟨_, _, Cpu.write_eq hword.owned.mapped v, Cpu.write_eq (c := c.on m) hmapped' v,
        h.store_stack hword v.toNat⟩

/-- **A steady instruction** does the same on machines that are alike: the same registers, and
machines that are alike again. -/
theorem Instr.Steady.exec {i : Instr} (hi : i.Steady r0 top c)
    (h : Alike t r0 top c.machine m) :
    ∃ c' m', i.exec t c = .ok ((), c') ∧ i.exec t (c.on m) = .ok ((), c'.on m') ∧
      Alike t r0 top c'.machine m' := by
  cases i with
  | movImm v dst => exact ⟨_, m, rfl, rfl, h⟩
  | addImm v dst => exact ⟨_, m, rfl, rfl, h⟩
  | leaRip disp dst => exact ⟨_, m, rfl, rfl, h⟩
  | jmp target => exact ⟨_, m, rfl, rfl, h⟩
  | movLoad src dst =>
      obtain ⟨v, hread, hread'⟩ := Operand.Above.read hi h
      exact ⟨(c.setReg dst v).jump (c.next (.movLoad src dst)), m,
        by simp only [Instr.exec, hread], by simp only [Instr.exec, hread']; rfl, h⟩
  | jmpMem src =>
      obtain ⟨v, hread, hread'⟩ := Operand.Above.read hi h
      exact ⟨c.jump v, m, by simp only [Instr.exec, hread],
        by simp only [Instr.exec, hread']; rfl, h⟩
  | movStore src dst =>
      obtain ⟨m₁, m₁', hwrite, hwrite', halike⟩ := Operand.Above.write hi h (c.regs src)
      exact ⟨(c.on m₁).jump (c.next (.movStore src dst)), m₁', by simp only [Instr.exec, hwrite],
        by simp only [Instr.exec, Cpu.on_regs, hwrite']; rfl, halike⟩
  | call target =>
      have hmapped' := (h.wordAbove hi).owned.mapped
      have halike := h.store_stack hi (c.next (.call target)).toNat
      exact ⟨_, _, exec_call target hi.owned.mapped, exec_call (c := c.on m) target hmapped',
        halike⟩

/-! ### Sequences -/

/-- An undisturbed run of a sequence from the first state to the second, whose
instructions are steady and whose stack pointer does not exceed `top`. -/
inductive SteadyRun (t : Tid) (r0 top : Word) : List Instr → Cpu → Cpu → Prop where
  | nil (c : Cpu) : SteadyRun t r0 top [] c c
  | cons {i : Instr} {code : List Instr} {c c₁ c₂ : Cpu}
      (htop : stackOffset r0 c.rsp ≤ stackOffset r0 top) (hi : i.Steady r0 top c)
      (hexec : i.exec t c = .ok ((), c₁)) (hrest : SteadyRun t r0 top code c₁ c₂) :
      SteadyRun t r0 top (i :: code) c c₂

theorem SteadyRun.run {code : List Instr} {c' : Cpu} (h : SteadyRun t r0 top code c c') :
    runCode t code c = .ok ((), c') := by
  induction h with
  | nil c => rfl
  | cons _ _ hexec _ ih => exact (runCode_cons hexec).trans ih

/-- **A sequence of steady instructions withstands handlers** at each of its
boundaries: it ends in a twin of the undisturbed final state. -/
theorem SteadyRun.withstands {code : List Instr} {c' : Cpu} (h : SteadyRun t r0 top code c c') :
    Withstands (Instr.exec t) (deliver t) (HandlerBelow t r0) (Twin t r0 top c) (straight code)
      fun _ => Twin t r0 top c' := by
  induction h with
  | nil c => exact withstands_ret fun _ h => h
  | @cons i code c c₁ c₂ htop hi hexec _ ih =>
      refine withstands_act (R := fun _ => Twin t r0 top c₁) ?_ ?_ fun _ => ih
      · intro hs d htwin hh
        exact htwin.deliver hh htop
      · rintro _ _ _ ⟨m, rfl, halike⟩ -
        obtain ⟨c₁', m', hexec', htwin, halike'⟩ := hi.exec halike
        rw [hexec] at hexec'
        cases hexec'
        exact ⟨(), _, htwin, m', rfl, halike'⟩

/-! ### The inserted sequences are steady -/

theorem shadowOperand_above {disp rsp : Word} (hr10 : c.regs .r10 = shadowIndex)
    (hrsp : c.rsp + disp = rsp) (hslot : SlotAbove r0 top rsp) :
    (shadowOperand disp).Above r0 top c :=
  .slot rsp rfl hslot (by rw [shadowOperand_offset hr10, ← hrsp, Cpu.rsp])

/-- The epilogue moves the stack pointer up by one word. -/
theorem stackOffset_add {rsp : Word} (h : HasSlot r0 rsp) :
    stackOffset r0 rsp ≤ stackOffset r0 (rsp + BitVec.ofNat 64 spaCpuWordLength) ∧
      ¬ BelowRedZone r0 (rsp + BitVec.ofNat 64 spaCpuWordLength) rsp := by
  have hin := h.inRange
  unfold InRange metadataOffsetOnShadowStack defBuddyCallStackSize at hin
  unfold BelowRedZone stackOffset spaCpuWordLength
  generalize callStackBase r0 = base at *
  constructor <;> bv_omega

theorem steadyRun_prologue {v : Word} (hslot : SlotAbove r0 c.rsp c.rsp)
    (hword : WordAbove r0 c.rsp c.machine c.rsp)
    (hload : load64 c.machine.mem c.rsp = some v)
    (hmapped : Mapped c.machine.mem (slotAddr (c.machine.threads t).gs c.rsp) 8) :
    ∃ c', SteadyRun t r0 c.rsp prologue c c' := by
  have hstack := stackOperand_addr t c
  have hoff : (⟨false, 0, .rsp, none⟩ : Operand).offset c.regs = c.rsp := by
    simp [Operand.offset, Cpu.rsp]
  let c₁ := (c.setReg .r11 v).jump (c.next (.movLoad ⟨false, 0, .rsp, none⟩ .r11))
  let c₂ := (c₁.setReg .r10 shadowIndex).jump (c₁.next (.movImm shadowIndex .r10))
  have haddr : (shadowOperand 0).addr t c₂ = slotAddr (c.machine.threads t).gs c.rsp := by
    rw [shadowOperand_addr rfl]
    exact congrArg _ (BitVec.add_zero _)
  refine ⟨_, .cons le_rfl (.stack rfl ?_) (exec_movLoad .r11 ?_)
    (@SteadyRun.cons _ _ _ _ _ _ c₂ _ le_rfl trivial rfl
      (.cons le_rfl ?_ (exec_movStore .r11 ?_) (.nil _)))⟩
  · rw [hoff]
    exact hword
  · rw [hstack]
    exact hload
  · exact shadowOperand_above (c := c₂) rfl (BitVec.add_zero _) hslot
  · rw [haddr]
    exact hmapped

theorem steadyRun_epilogue {v : Word} (hslot : HasSlot r0 c.rsp)
    (hload : load64 c.machine.mem (slotAddr (c.machine.threads t).gs c.rsp) = some v) :
    ∃ c', SteadyRun t r0 (c.rsp + BitVec.ofNat 64 spaCpuWordLength) epilogue c c' := by
  have hback : c.rsp + 8 + -8 = c.rsp := by grind
  obtain ⟨hle, habove⟩ := stackOffset_add hslot
  let c₁ := (c.setReg .r10 shadowIndex).jump (c.next (.movImm shadowIndex .r10))
  let c₂ : Cpu :=
    { (c₁.setReg .rsp (c.rsp + BitVec.ofNat 64 spaCpuWordLength)).jump
        (c₁.next (.addImm (BitVec.ofNat 64 spaCpuWordLength) .rsp)) with
      flags := Flags.ofAdd c.rsp (BitVec.ofNat 64 spaCpuWordLength) }
  have haddr : (shadowOperand (-8)).addr t c₂ = slotAddr (c.machine.threads t).gs c.rsp := by
    rw [shadowOperand_addr rfl]
    exact congrArg _ hback
  have hload₂ : load64 c₂.machine.mem ((shadowOperand (-8)).addr t c₂) = some v := by
    rw [haddr]
    exact hload
  refine ⟨_, .cons hle trivial rfl (.cons hle trivial rfl
    (.cons le_rfl ?_ (exec_jmpMem hload₂) (.nil _)))⟩
  exact shadowOperand_above (c := c₂) rfl hback ⟨hslot, habove⟩

theorem steadyRun_directCall {f : Word}
    (hslot : SlotAbove r0 c.rsp (c.rsp - BitVec.ofNat 64 spaCpuWordLength))
    (hword : WordAbove r0 c.rsp c.machine (c.rsp - BitVec.ofNat 64 spaCpuWordLength))
    (hmapped : Mapped c.machine.mem (slotAddr (c.machine.threads t).gs
      (c.rsp - BitVec.ofNat 64 spaCpuWordLength)) 8) :
    ∃ c', SteadyRun t r0 c.rsp (directCall f) c c' := by
  have hback : c.rsp + -8 = c.rsp - BitVec.ofNat 64 spaCpuWordLength :=
    (BitVec.sub_eq_add_neg _ _).symm
  let lea : Instr := .leaRip (BitVec.ofNat 64 (codeLength (directCallTail f))) .r11
  let c₁ := (c.setReg .r11 (c.next lea + BitVec.ofNat 64 (codeLength (directCallTail f)))).jump
    (c.next lea)
  let c₂ := (c₁.setReg .r10 shadowIndex).jump (c₁.next (.movImm shadowIndex .r10))
  have haddr : (shadowOperand (-8)).addr t c₂ = slotAddr (c.machine.threads t).gs
      (c.rsp - BitVec.ofNat 64 spaCpuWordLength) := by
    rw [shadowOperand_addr rfl]
    exact congrArg _ hback
  have hmapped₂ : Mapped c₂.machine.mem ((shadowOperand (-8)).addr t c₂) 8 := by
    rw [haddr]
    exact hmapped
  refine ⟨_, .cons le_rfl trivial rfl (.cons le_rfl trivial rfl
    (.cons le_rfl ?_ (exec_movStore .r11 hmapped₂) (.cons le_rfl ?_ (exec_call _ ?_) (.nil _))))⟩
  · exact shadowOperand_above (c := c₂) rfl hback hslot
  · exact hword.storeN _ _
  · exact mapped_storeN.mpr hword.owned.mapped

end

/-! ### The result -/

inductive Sequence where
  | prologue
  | epilogue
  | directCall (f : Word)

namespace Sequence

def code : Sequence → List Instr
  | .prologue => Asm.prologue
  | .epilogue => Asm.epilogue
  | .directCall f => Asm.directCall f

/-- The stack pointer whose slot the sequence accesses. For a direct call it is that of the
callee. -/
def slotRsp : Sequence → Cpu → Word
  | .directCall _, c => c.rsp - BitVec.ofNat 64 spaCpuWordLength
  | _, c => c.rsp

/-- The highest stack pointer during the sequence. Handlers stay below the red zone of the one at
their own boundary, and so of this one. -/
def top : Sequence → Cpu → Word
  | .epilogue, c => c.rsp + BitVec.ofNat 64 spaCpuWordLength
  | _, c => c.rsp

/-- The sequence runs on the call stack of the thread: its slot is in range, and the
word of the call stack that the sequence accesses is mapped. -/
structure Enters (q : Sequence) (r0 : Word) (c : Cpu) : Prop where
  hasSlot : HasSlot r0 (q.slotRsp c)
  word : q ≠ .epilogue → OwnedBy c.machine.mem .other (q.slotRsp c) 8

/-- What a sequence is for, from the first state to the last, said without the instructions. -/
def Effect (t : Tid) (c d : Cpu) : Sequence → Prop
  | .prologue =>
      ∃ v, load64 c.machine.mem c.rsp = some v ∧ epilogueLoad d.machine t c.rsp = .ok v
  | .epilogue => epilogueLoad c.machine t c.rsp = .ok d.rip
  | .directCall f =>
      d.rip = f + BitVec.ofNat 64 spaLengthOfProtectedPrologue ∧
        d.rsp = c.rsp - BitVec.ofNat 64 spaCpuWordLength ∧
        OwnedBy d.machine.mem .other d.rsp 8 ∧
        load64 d.machine.mem d.rsp = some (c.behind f) ∧
        epilogueLoad d.machine t d.rsp = .ok (c.behind f)

end Sequence

/-- The two runs end alike: the same registers, the same call stack outside the area of
the handlers, and the same words in the slots there, each at the region where its run has
left it. -/
structure SameOutcome (t : Tid) (r0 top : Word) (c d : Cpu) : Prop where
  regs : d.regs = c.regs
  rip : d.rip = c.rip
  flags : d.flags = c.flags
  stack : SameStack r0 top c.machine d.machine
  region : ∃ ss, d.machine.OneRegion t r0 ss
  slots : ∀ rsp, SlotAbove r0 top rsp →
    ∃ v, epilogueLoad c.machine t rsp = .ok v ∧ epilogueLoad d.machine t rsp = .ok v

theorem Twin.sameOutcome {t : Tid} {r0 top : Word} {c d : Cpu} (h : Twin t r0 top c d) :
    SameOutcome t r0 top c d := by
  obtain ⟨m, rfl, halike⟩ := h
  obtain ⟨slots, ss, ss', -, -, hthread'⟩ := halike.slots
  obtain ⟨md, content, hm⟩ := hthread'.coherent
  exact ⟨rfl, rfl, rfl, halike.stack, ⟨ss', hm.oneRegion⟩, fun _ hslot =>
    halike.epilogueLoad hslot⟩

namespace Sequence

variable {t : Tid} {r0 ss : Word} {c c' d : Cpu} {slots : Slots} {q : Sequence}

/-- The slot of a sequence lies outside the area of its handlers. -/
theorem Enters.slotAbove (h : q.Enters r0 c) : SlotAbove r0 (q.top c) (q.slotRsp c) := by
  refine ⟨h.hasSlot, ?_⟩
  cases q with
  | prologue =>
      intro hlt
      unfold BelowRedZone slotRsp top at hlt
      dsimp only at hlt
      omega
  | epilogue => exact (stackOffset_add h.hasSlot).2
  | directCall f =>
      have hback : c.rsp - BitVec.ofNat 64 spaCpuWordLength + BitVec.ofNat 64 spaCpuWordLength =
          c.rsp := BitVec.sub_add_cancel _ _
      have habove := (stackOffset_add h.hasSlot).2
      rw [slotRsp, hback] at habove
      exact habove

/-- The undisturbed run of a sequence: it is steady, and has the effect it is for. -/
theorem Enters.steadyRun (h : q.Enters r0 c) (hthread : ThreadAt c.machine t r0 ss slots) :
    ∃ c', SteadyRun t r0 (q.top c) q.code c c' ∧ q.Effect t c c' := by
  obtain ⟨md, hstack, hdesc⟩ := hthread
  have hmapped := (hstack.slot_owned h.hasSlot).mapped
  have hslot := h.slotAbove
  cases q with
  | prologue =>
      have hword := hslot.wordAbove hstack.aligned (h.word (by simp))
      obtain ⟨v, hload⟩ := load64_isSome hword.owned.mapped
      obtain ⟨c', hsteady⟩ := steadyRun_prologue hslot hword hload hmapped
      obtain ⟨c'', hrun, -, ⟨md', hstack', -⟩, -⟩ :=
        prologue_step ⟨md, hstack, hdesc⟩ h.hasSlot hload
      obtain rfl := congrArg Prod.snd (Except.ok.inj (hsteady.run.symm.trans hrun))
      exact ⟨_, hsteady, v, hload, hstack'.epilogueLoad_eq (Function.update_self _ _ _)⟩
  | epilogue =>
      obtain ⟨v, hload⟩ := load64_isSome hmapped
      obtain ⟨c', hsteady⟩ := steadyRun_epilogue h.hasSlot hload
      have hrun := hsteady.run.symm.trans (run_epilogue hload)
      obtain rfl := congrArg Prod.snd (Except.ok.inj hrun)
      exact ⟨_, hsteady, Machine.load_owned (hstack.slot_owned h.hasSlot) hload⟩
  | directCall f =>
      have hword := hslot.wordAbove hstack.aligned (h.word (by simp))
      obtain ⟨c', hsteady⟩ := steadyRun_directCall (f := f) hslot hword hmapped
      obtain ⟨c'', hrun, ⟨md', hstack', -⟩, hrsp, howned, hload, hrip⟩ :=
        directCall_step ⟨md, hstack, hdesc⟩ f h.hasSlot hword.owned
      obtain rfl := congrArg Prod.snd (Except.ok.inj (hsteady.run.symm.trans hrun))
      refine ⟨_, hsteady, hrip, hrsp, howned, hload, ?_⟩
      rw [hrsp]
      exact hstack'.epilogueLoad_eq (Function.update_self _ _ _)

/-- The effect of a sequence survives its handlers: it holds on the twin as well. -/
theorem Effect.of_twin (heff : q.Effect t c c') (h : q.Enters r0 c)
    (hr0 : r0.toNat % 8 = 0) (htwin : Twin t r0 (q.top c) c' d) : q.Effect t c d := by
  have hslot := h.slotAbove
  have hsame := htwin.sameOutcome
  cases q with
  | prologue =>
      obtain ⟨v, hload, hslotLoad⟩ := heff
      obtain ⟨v', hv, hv'⟩ := hsame.slots c.rsp hslot
      rw [hslotLoad] at hv
      cases hv
      exact ⟨v, hload, hv'⟩
  | epilogue =>
      rw [Effect, hsame.rip]
      exact heff
  | directCall f =>
      obtain ⟨hrip, hrsp, howned, hload, hslotLoad⟩ := heff
      rw [hrsp] at howned hload hslotLoad
      obtain ⟨v', hv, hv'⟩ := hsame.slots _ hslot
      rw [slotRsp, hslotLoad] at hv
      cases hv
      obtain ⟨m, rfl, halike⟩ := htwin
      have hword := hslot.wordAbove hr0 howned
      obtain ⟨w, hw, hw'⟩ := halike.load_stack hword
      rw [slotRsp, hload] at hw
      cases hw
      have hrsp' : (c'.on m).rsp = c.rsp - BitVec.ofNat 64 spaCpuWordLength := hrsp
      refine ⟨hrip, hrsp', ?_, ?_, ?_⟩
      · rw [hrsp']
        exact (halike.wordAbove hword).owned
      · rw [hrsp']
        exact hw'
      · rw [hrsp']
        exact hv'

end Sequence

/-- **Signal transparency.** Whatever handlers run at the instruction boundaries of an
inserted sequence, as long as they stay below the red zone: the sequence ends as it does
without them, its slot holds the same word at the region of the moment, and it has the
effect it is for. -/
theorem signals_transparent (q : Sequence) {t : Tid} {r0 ss : Word} {c : Cpu} {slots : Slots}
    (hthread : ThreadAt c.machine t r0 ss slots) (hq : q.Enters r0 c) {hs : List (List Action)}
    (hmeets : Meets (Instr.exec t) (deliver t) (HandlerBelow t r0) (straight q.code) hs c) :
    ∃ c' hs' d, runCode t q.code c = .ok ((), c') ∧
      run (interrupted (Instr.exec t) (deliver t)) (straight q.code) (hs, c) =
        .ok ((), hs', d) ∧
      SameOutcome t r0 (q.top c) c' d ∧ q.Effect t c d := by
  obtain ⟨c', hsteady, heff⟩ := hq.steadyRun hthread
  have htwin : Twin t r0 (q.top c) c c := ⟨c.machine, rfl, Alike.refl hthread (q.top c)⟩
  obtain ⟨⟨⟩, hs', d, hrun, htwin'⟩ := hsteady.withstands hs c htwin hmeets
  have hr0 : r0.toNat % 8 = 0 := by
    obtain ⟨md, hstack, -⟩ := hthread
    exact hstack.aligned
  exact ⟨c', hs', d, hsteady.run, hrun, htwin'.sameOutcome, heff.of_twin hq hr0 htwin'⟩

/-- A thread about to return at `rsp`. Its region has just been initialised. -/
def returning (rsp : Word) : Cpu where
  regs _ := rsp
  rip := 0x401000
  flags := ⟨false, false, false, false, false, false⟩
  machine := Machine.started 0 0x7FFFFFFFE000 0x10000000

/-- A handler that calls a function, moves the region, and returns. -/
def relocating : List Action :=
  [.prologue 0x7FFFFFFFB000 0x402000,
    .rerandomize 0x7FFFFFFFA000 0x7FFFFFFF9000 (System.willing 0x20000000),
    .epilogue 0x7FFFFFFFB000]

theorem relocating_below {i : Instr} {c : Cpu} (hrsp : c.rsp = 0x7FFFFFFFC000) :
    HandlerBelow 0 0x7FFFFFFFE000 i (some relocating) c := by
  have hslot : HasSlot 0x7FFFFFFFE000 0x7FFFFFFFB000 := ⟨by decide, by decide⟩
  have hbelow : BelowRedZone 0x7FFFFFFFE000 c.rsp 0x7FFFFFFFB000 := by
    rw [hrsp]
    exact (by decide : stackOffset 0x7FFFFFFFE000 0x7FFFFFFFB000 + 128 <
      stackOffset 0x7FFFFFFFE000 0x7FFFFFFFC000)
  rintro _ ⟨⟩
  refine along_of_forall (fun a ha m => ?_) c.machine
  simp only [relocating, List.mem_cons, List.not_mem_nil, or_false] at ha
  obtain rfl | rfl | rfl := ha
  · exact ⟨⟨hslot, trivial⟩, hbelow⟩
  · exact ⟨⟨(by decide : BelowStart _ _), fun _ => rfl⟩, trivial⟩
  · exact ⟨⟨hslot, trivial⟩, hbelow⟩

/-- The region moves between the first two instructions of an epilogue. -/
theorem epilogue_transparent :
    ∃ c' hs' d, runCode 0 epilogue (returning 0x7FFFFFFFC000) = .ok ((), c') ∧
      run (interrupted (Instr.exec 0) (deliver 0)) (straight epilogue)
        ([[], relocating], returning 0x7FFFFFFFC000) = .ok ((), hs', d) ∧
      d.rip = c'.rip := by
  have haligned : (0x10000000 : Word).toNat % 2 ^ 23 = 0 := by decide
  have hthread :=
    System.threadAt_of_coherent (started_coherent 0 0x7FFFFFFFE000 haligned) (by decide)
  have henters : Sequence.Enters .epilogue 0x7FFFFFFFE000 (returning 0x7FFFFFFFC000) :=
    ⟨⟨by decide, by decide⟩, fun h => absurd rfl h⟩
  have hmeets : Meets (Instr.exec 0) (deliver 0) (HandlerBelow 0 0x7FFFFFFFE000)
      (straight (Sequence.code .epilogue)) [[], relocating] (returning 0x7FFFFFFFC000) := by
    refine ⟨?_, fun c₁ h₁ _ c₂ h₂ => ⟨?_, fun c₃ _ _ c₄ _ => meets_nil ?_ _ _⟩⟩
    · rintro _ ⟨⟩
      trivial
    · cases h₁
      cases h₂
      exact relocating_below rfl
    · rintro _ _ _ ⟨⟩
  obtain ⟨c', hs', d, hrun, hrun', hsame, -⟩ :=
    signals_transparent .epilogue hthread henters hmeets
  exact ⟨c', hs', d, hrun, hrun', hsame.rip⟩

end FlashStack.Asm
