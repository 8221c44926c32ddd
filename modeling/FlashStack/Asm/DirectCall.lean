/-
A rewritten direct call against the call it replaces.

The rewritten call writes its return address to the shadow slot from `%r11`; the original
leaves that to the prologue of the callee, which reads it back from the call stack. The two
are compared behind the prologue, where the body of the callee begins.

* `directCall_eq_call`: undisturbed, both get to the same state, with the same registers,
  flags and memory, or both fault;
* `directCall_withstands`: the rewritten call does not care what is written to the call
  stack between its instructions, as long as its slot is spared;
* `plainCall_deceived`: the prologue of the original call does: it takes for the return
  address what another thread has written over it.

The original call is put where it returns to the same address (`Cpu.atPlainCall`), as the
two have different lengths. Nothing is assumed about where the slot is but that it is apart
from the word of the return address. The writes of other threads come at the boundaries of
instructions, any number at each; the proof is that no instruction of the rewritten call
loads from memory (`directCall_loads`), so that a sequence of such instructions goes on
alike (`withstands_overwrite`).
-/

import FlashStack.Asm.Returns

namespace FlashStack.Asm

open Lib.Memory Lib.Program FlashStack.Runtime

/-- The original call of `f` and the prologue there: four instructions, of which the second loads
what the first has pushed. -/
def plainCall (f : Word) : List Instr := .call f :: prologue

/-- Where the original call stands, for it to return to the same address. Nothing but the
instruction pointer differs. -/
def Cpu.atPlainCall (c : Cpu) (f : Word) : Cpu :=
  c.jump (c.behind f - BitVec.ofNat 64 (Instr.call f).length)

/-- The stack pointer after a call, which is where the return address is pushed to. -/
def Cpu.pushed (c : Cpu) : Word := c.rsp - BitVec.ofNat 64 spaCpuWordLength

/-- The slot of a call: that of the stack pointer behind it, which is where the prologue of the
callee looks. -/
def Cpu.callSlot (c : Cpu) (t : Tid) : Word := slotAddr (c.machine.threads t).gs c.pushed

section

variable {t : Tid} {c : Cpu} {f : Word}

theorem exec_call_error (h : ¬ Mapped c.machine.mem c.pushed 8) :
    (Instr.call f).exec t c = .error (.unmapped c.pushed) := by
  simp only [Instr.exec, Cpu.write, store64]
  rw [← Cpu.pushed, if_neg h]

theorem next_atPlainCall (c : Cpu) (f : Word) :
    (c.atPlainCall f).next (.call f) = c.behind f :=
  BitVec.sub_add_cancel _ _

/-- The original call and prologue, where both words are mapped. The prologue loads what the call
has pushed. -/
theorem run_plainCall (hslot : Mapped c.machine.mem (c.callSlot t) 8)
    (hstack : Mapped c.machine.mem c.pushed 8) :
    runCode t (plainCall f) (c.atPlainCall f) = .ok ((),
      { regs := Function.update (Function.update (Function.update c.regs .rsp c.pushed) .r11
          (c.behind f)) .r10 shadowIndex
        rip := f + BitVec.ofNat 64 spaLengthOfProtectedPrologue
        flags := c.flags
        machine := c.machine.withMem
          (storeN (storeN c.machine.mem c.pushed 8 (c.behind f).toNat) (c.callSlot t) 8
            (c.behind f).toNat) }) := by
  have hcall := exec_call (t := t) (c := c.atPlainCall f) f hstack
  rw [next_atPlainCall] at hcall
  rw [plainCall, runCode_cons hcall]
  exact run_prologue (load64_storeN_self hstack) (mapped_storeN.mpr hslot)

theorem beforeStore_pushed (f : Word) : (c.beforeStore f).pushed = c.pushed := rfl

theorem run_directCall_unmapped
    (h : ¬ (Mapped c.machine.mem (c.callSlot t) 8 ∧ Mapped c.machine.mem c.pushed 8)) :
    ∃ e, runCode t (directCall f) c = .error e := by
  have haddr : (shadowOperand (-8)).addr t (c.beforeStore f) = c.callSlot t :=
    beforeStore_addr f
  rw [runCode_directCall]
  by_cases hslot : Mapped c.machine.mem (c.callSlot t) 8
  · have hstack : ¬ Mapped c.machine.mem c.pushed 8 := fun hstack => h ⟨hslot, hstack⟩
    rw [← haddr] at hslot
    have hstore := exec_movStore (c := c.beforeStore f) .r11 hslot
    rw [runCode_cons hstore]
    refine ⟨_, runCode_error (exec_call_error fun hmapped => hstack ?_)⟩
    rw [← beforeStore_pushed f]
    exact mapped_storeN.mp hmapped
  · rw [← haddr] at hslot
    exact ⟨_, runCode_error (exec_movStore_error hslot)⟩

theorem run_plainCall_unmapped
    (h : ¬ (Mapped c.machine.mem (c.callSlot t) 8 ∧ Mapped c.machine.mem c.pushed 8)) :
    ∃ e, runCode t (plainCall f) (c.atPlainCall f) = .error e := by
  by_cases hstack : Mapped c.machine.mem c.pushed 8
  · have hslot : ¬ Mapped c.machine.mem (c.callSlot t) 8 := fun hslot => h ⟨hslot, hstack⟩
    have hcall := exec_call (t := t) (c := c.atPlainCall f) f hstack
    rw [next_atPlainCall] at hcall
    rw [plainCall, runCode_cons hcall]
    exact run_prologue_unmapped (load64_storeN_self hstack) fun hmapped =>
      hslot (mapped_storeN.mp hmapped)
  · exact ⟨_, runCode_error (exec_call_error hstack)⟩

/-- **The fast path equals the slow path**: the rewritten call ends in a state if and
only if the original call and prologue end in the same state. -/
theorem directCall_eq_call (hapart : Apart (c.callSlot t) c.pushed) (d : Cpu) :
    runCode t (directCall f) c = .ok ((), d) ↔
      runCode t (plainCall f) (c.atPlainCall f) = .ok ((), d) := by
  by_cases h : Mapped c.machine.mem (c.callSlot t) 8 ∧ Mapped c.machine.mem c.pushed 8
  · have hregs : Function.update (Function.update (Function.update c.regs .r11 (c.behind f)) .r10
          shadowIndex) .rsp c.pushed =
        Function.update (Function.update (Function.update c.regs .rsp c.pushed) .r11
          (c.behind f)) .r10 shadowIndex := by
      rw [Function.update_comm (by decide), Function.update_comm (a := Reg.r11) (by decide)]
    have hfast := run_directCall (f := f) h.1 h.2
    have hslow := run_plainCall (f := f) h.1 h.2
    rw [storeN_comm hapart.symm, ← hregs] at hslow
    rw [hfast, hslow]
    rfl
  · obtain ⟨e, hfast⟩ := run_directCall_unmapped (f := f) h
    obtain ⟨e', hslow⟩ := run_plainCall_unmapped (f := f) h
    rw [hfast, hslow]
    constructor
    · intro heq
      cases heq
    · intro heq
      cases heq

end

/-! ### Other threads write to the call stack -/

/-- What another thread stores between two instructions: any number of bytes at any address,
mapped or not. -/
structure Overwrite where
  addr : Word
  length : Nat
  value : Nat

/-- No byte of the word at `a` is overwritten. Other threads are taken to spare the slots, which
they have no pointer to. -/
def Overwrite.Spares (a : Word) (w : Overwrite) : Prop :=
  ∀ x, InRange w.addr w.length x → ¬ InRange a 8 x

def Overwrite.apply (mem : Space Owner) (w : Overwrite) : Space Owner :=
  storeN mem w.addr w.length w.value

/-- The stores of another thread at one boundary, one after the other. They reach the memory only.
-/
def overwrite (ws : List Overwrite) (c : Cpu) : Except Fault Cpu :=
  .ok (c.on (c.machine.withMem (ws.foldl Overwrite.apply c.machine.mem)))

/-- The same CPU on memory that agrees at the word at `a`, with the same addresses
mapped. -/
def Disturbed (a : Word) (c d : Cpu) : Prop :=
  ∃ mem, d = c.on (c.machine.withMem mem) ∧
    (∀ x, (mem x).isSome = (c.machine.mem x).isSome) ∧
    ∀ x, InRange a 8 x → mem x = c.machine.mem x

section

variable {t : Tid} {a : Word} {c c' d : Cpu}

theorem Disturbed.refl (a : Word) (c : Cpu) : Disturbed a c c :=
  ⟨c.machine.mem, rfl, fun _ => rfl, fun _ _ => rfl⟩

theorem foldl_overwrite {ws : List Overwrite} (hws : ∀ w ∈ ws, w.Spares a) (mem : Space Owner) :
    (∀ x, ((ws.foldl Overwrite.apply mem) x).isSome = (mem x).isSome) ∧
      ∀ x, InRange a 8 x → (ws.foldl Overwrite.apply mem) x = mem x := by
  induction ws generalizing mem with
  | nil => exact ⟨fun _ => rfl, fun _ _ => rfl⟩
  | cons w ws ih =>
      obtain ⟨hw, hws⟩ := List.forall_mem_cons.mp hws
      obtain ⟨hsome, hsame⟩ := ih hws (w.apply mem)
      refine ⟨fun x => (hsome x).trans (storeN_isSome ..), fun x hx => (hsame x hx).trans ?_⟩
      exact storeN_outside fun hin => hw x hin hx

theorem Disturbed.overwrite {ws : List Overwrite} (h : Disturbed a c d)
    (hws : ∀ w ∈ ws, w.Spares a) : ∃ d', Asm.overwrite ws d = .ok d' ∧ Disturbed a c d' := by
  obtain ⟨mem, rfl, hsome, hsame⟩ := h
  obtain ⟨hsome', hsame'⟩ := foldl_overwrite hws mem
  exact ⟨_, rfl, _, rfl, fun x => (hsome' x).trans (hsome x),
    fun x hx => (hsame' x hx).trans (hsame x hx)⟩

theorem Disturbed.load (h : Disturbed a c d) : load64 d.machine.mem a = load64 c.machine.mem a := by
  obtain ⟨mem, rfl, -, hsame⟩ := h
  apply load64_congr
  intro k hk
  rw [byteOf, byteOf, ← hsame _ (inRange_add hk (by decide))]
  rfl

/-- The instruction reads memory. One that does not cannot be influenced by a store of another
thread. -/
def Instr.loads : Instr → Bool
  | .movLoad _ _ => true
  | .jmpMem _ => true
  | _ => false

theorem Cpu.write_ok {b v : Word} (h : c.write b v = .ok c') :
    Mapped c.machine.mem b 8 ∧
      c' = c.on (c.machine.withMem (storeN c.machine.mem b 8 v.toNat)) := by
  by_cases hmapped : Mapped c.machine.mem b 8
  · exact ⟨hmapped, (Except.ok.inj ((Cpu.write_eq hmapped v).symm.trans h)).symm⟩
  · simp only [Cpu.write, store64, if_neg hmapped] at h
    cases h

theorem Disturbed.write {b v : Word} (h : Disturbed a c d) (hwrite : c.write b v = .ok c') :
    ∃ d', d.write b v = .ok d' ∧ Disturbed a c' d' := by
  obtain ⟨mem, rfl, hsome, hsame⟩ := h
  obtain ⟨hmapped, rfl⟩ := Cpu.write_ok hwrite
  have hmapped' : Mapped mem b 8 := fun k hk => (hsome _).trans (hmapped k hk)
  refine ⟨_, Cpu.write_eq hmapped' v, _, rfl, fun x => ?_, fun x hx => ?_⟩
  · exact (storeN_isSome ..).trans ((hsome x).trans (storeN_isSome ..).symm)
  · exact storeN_congr (hsame x hx) b 8 v.toNat

/-- **An instruction that loads nothing** does the same on disturbed memory: it gets to the same
registers, and faults where the other one does. -/
theorem Disturbed.exec {i : Instr} (h : Disturbed a c d) (hi : i.loads = false)
    (hexec : i.exec t c = .ok ((), c')) : ∃ d', i.exec t d = .ok ((), d') ∧ Disturbed a c' d' := by
  cases i with
  | movLoad src dst => cases hi
  | jmpMem src => cases hi
  | movImm v dst =>
      obtain ⟨mem, rfl, hsome, hsame⟩ := h
      obtain rfl := (Prod.mk.inj (Except.ok.inj hexec)).2
      exact ⟨_, rfl, mem, rfl, hsome, hsame⟩
  | addImm v dst =>
      obtain ⟨mem, rfl, hsome, hsame⟩ := h
      obtain rfl := (Prod.mk.inj (Except.ok.inj hexec)).2
      exact ⟨_, rfl, mem, rfl, hsome, hsame⟩
  | leaRip disp dst =>
      obtain ⟨mem, rfl, hsome, hsame⟩ := h
      obtain rfl := (Prod.mk.inj (Except.ok.inj hexec)).2
      exact ⟨_, rfl, mem, rfl, hsome, hsame⟩
  | jmp target =>
      obtain ⟨mem, rfl, hsome, hsame⟩ := h
      obtain rfl := (Prod.mk.inj (Except.ok.inj hexec)).2
      exact ⟨_, rfl, mem, rfl, hsome, hsame⟩
  | movStore src dst =>
      cases hwrite : c.write (dst.addr t c) (c.regs src) with
      | error e => simp only [Instr.exec, hwrite] at hexec; cases hexec
      | ok c₁ =>
          obtain ⟨d₁, hwrite', hd₁⟩ := h.write hwrite
          simp only [Instr.exec, hwrite] at hexec
          obtain rfl := (Prod.mk.inj (Except.ok.inj hexec)).2
          obtain ⟨mem, rfl, -, -⟩ := h
          obtain ⟨mem₁, rfl, hsome₁, hsame₁⟩ := hd₁
          have hwrite'' : (c.on (c.machine.withMem mem)).write
              (dst.addr t (c.on (c.machine.withMem mem)))
              ((c.on (c.machine.withMem mem)).regs src) = .ok (c₁.on (c₁.machine.withMem mem₁)) :=
            hwrite'
          exact ⟨_, by simp only [Instr.exec, hwrite'']; rfl, mem₁, rfl, hsome₁, hsame₁⟩
  | call target =>
      cases hwrite : c.write (c.rsp - BitVec.ofNat 64 spaCpuWordLength) (c.next (.call target)) with
      | error e => simp only [Instr.exec, hwrite] at hexec; cases hexec
      | ok c₁ =>
          obtain ⟨d₁, hwrite', hd₁⟩ := h.write hwrite
          simp only [Instr.exec, hwrite] at hexec
          obtain rfl := (Prod.mk.inj (Except.ok.inj hexec)).2
          obtain ⟨mem, rfl, -, -⟩ := h
          obtain ⟨mem₁, rfl, hsome₁, hsame₁⟩ := hd₁
          have hwrite'' : (c.on (c.machine.withMem mem)).write
              ((c.on (c.machine.withMem mem)).rsp - BitVec.ofNat 64 spaCpuWordLength)
              ((c.on (c.machine.withMem mem)).next (.call target)) =
                .ok (c₁.on (c₁.machine.withMem mem₁)) :=
            hwrite'
          exact ⟨_, by simp only [Instr.exec, hwrite'']; rfl, mem₁, rfl, hsome₁, hsame₁⟩

/-- **A sequence that loads nothing** ends, whatever other threads write outside the word
at `a` meanwhile, with what it would have there undisturbed. -/
theorem withstands_overwrite {code : List Instr} (hcode : ∀ i ∈ code, i.loads = false)
    (hrun : runCode t code c = .ok ((), c')) :
    Withstands (Instr.exec t) overwrite
      (fun _ ws _ => ∀ ws' ∈ ws, ∀ w ∈ ws', Overwrite.Spares a w) (Disturbed a c)
      (straight code) (fun _ => Disturbed a c') := by
  induction code generalizing c with
  | nil =>
      obtain rfl := (Prod.mk.inj (Except.ok.inj hrun)).2
      exact withstands_ret fun _ h => h
  | cons i code ih =>
      obtain ⟨hi, hcode⟩ := List.forall_mem_cons.mp hcode
      cases hexec : i.exec t c with
      | error e =>
          rw [runCode_error hexec] at hrun
          cases hrun
      | ok out =>
          have hcons : runCode t (i :: code) c = runCode t code out.2 := runCode_cons hexec
          rw [hcons] at hrun
          refine withstands_act (R := fun _ => Disturbed a out.2) ?_ ?_ fun _ => ih hcode hrun
          · exact fun ws d hd hws => hd.overwrite (hws ws rfl)
          · intro d _ _ hd _
            obtain ⟨d', hexec', hd'⟩ := hd.exec hi hexec
            exact ⟨(), d', hexec', hd'⟩

/-- A rewritten direct call keeps its return address in a register until both copies are
written. -/
theorem directCall_loads (f : Word) : ∀ i ∈ directCall f, i.loads = false := by
  simp [directCall, directCallTail, Instr.loads]

variable {f : Word}

/-- **The slot of a rewritten call** ends up with the address behind it, whatever other
threads write outside the slot meanwhile. -/
theorem directCall_withstands (hapart : Apart (c.callSlot t) c.pushed)
    (hrun : runCode t (directCall f) c = .ok ((), c')) {hs : List (List Overwrite)}
    (hhs : ∀ ws ∈ hs, ∀ w ∈ ws, w.Spares (c.callSlot t)) :
    ∃ hs' d, run (interrupted (Instr.exec t) overwrite) (straight (directCall f)) (hs, c) =
        .ok ((), hs', d) ∧
      load64 d.machine.mem (c.callSlot t) = some (c.behind f) := by
  obtain ⟨⟨⟩, hs', d, hd, hdisturbed⟩ := withstands_overwrite (a := c.callSlot t)
    (directCall_loads f) hrun hs c (Disturbed.refl _ c) (meets_of_forall hhs _ _)
  refine ⟨hs', d, hd, ?_⟩
  rw [hdisturbed.load]
  by_cases h : Mapped c.machine.mem (c.callSlot t) 8 ∧ Mapped c.machine.mem c.pushed 8
  · have hfast := run_directCall (f := f) h.1 h.2
    obtain rfl := (Prod.mk.inj (Except.ok.inj (hfast.symm.trans hrun))).2
    exact (load64_storeN_apart hapart.symm).trans (load64_storeN_self h.1)
  · obtain ⟨e, hfast⟩ := run_directCall_unmapped (f := f) h
    rw [hfast] at hrun
    cases hrun

/-- The prologue of the callee reads what another thread wrote over the return address
of an original call. -/
theorem plainCall_deceived (hslot : Mapped c.machine.mem (c.callSlot t) 8)
    (hstack : Mapped c.machine.mem c.pushed 8) (v : Word) :
    ∃ d, run (interrupted (Instr.exec t) overwrite) (straight (plainCall f))
        ([[], [⟨c.pushed, 8, v.toNat⟩]], c.atPlainCall f) = .ok ((), [], d) ∧
      load64 d.machine.mem (c.callSlot t) = some v := by
  let c₀ : Cpu := (((c.atPlainCall f).on (c.machine.withMem
    (storeN c.machine.mem c.pushed 8 (c.behind f).toNat))).setReg .rsp c.pushed).jump f
  let c₁ : Cpu := c₀.on (c.machine.withMem (storeN (storeN c.machine.mem c.pushed 8
    (c.behind f).toNat) c.pushed 8 v.toNat))
  let c₂ : Cpu := (c₁.setReg .r11 v).jump (c₁.next (.movLoad ⟨false, 0, .rsp, none⟩ .r11))
  have hcall := exec_call (t := t) (c := c.atPlainCall f) f hstack
  rw [next_atPlainCall] at hcall
  have hload : load64 c₁.machine.mem c₁.rsp = some v :=
    load64_storeN_self (mapped_storeN.mpr hstack)
  have hmov : (Instr.movLoad ⟨false, 0, .rsp, none⟩ .r11).exec t c₁ = .ok ((), c₂) :=
    exec_movLoad .r11 (by rw [stackOperand_addr]; exact hload)
  have hslot₁ : Mapped c₁.machine.mem (c.callSlot t) 8 :=
    mapped_storeN.mpr (mapped_storeN.mpr hslot)
  have hrest := run_prologue hload hslot₁
  rw [prologue, runCode_cons hmov] at hrest
  have hquiet : overwrite [] (c.atPlainCall f) = .ok (c.atPlainCall f) := rfl
  have hrun := (run_interrupted_cons (k := fun _ => straight prologue) hquiet hcall
    [[⟨c.pushed, 8, v.toNat⟩]]).trans
    ((run_interrupted_cons rfl hmov []).trans (run_interrupted_nil hrest))
  exact ⟨_, hrun, load64_storeN_self hslot₁⟩

end

/-! ### The direct call and the call it replaces -/

/-- **A rewritten direct call** takes the thread to the same state as the call it replaces
and the prologue of the callee; and its slot holds the address behind the call also when
other threads write to the call stack between its instructions. -/
theorem directCall_refines_call (t : Tid) (c : Cpu) (f : Word)
    (hapart : Apart (c.callSlot t) c.pushed) :
    (∀ d, runCode t (directCall f) c = .ok ((), d) ↔
      runCode t (plainCall f) (c.atPlainCall f) = .ok ((), d)) ∧
    ∀ d, runCode t (directCall f) c = .ok ((), d) →
      ∀ hs : List (List Overwrite), (∀ ws ∈ hs, ∀ w ∈ ws, w.Spares (c.callSlot t)) →
        ∃ hs' d', run (interrupted (Instr.exec t) overwrite) (straight (directCall f)) (hs, c) =
            .ok ((), hs', d') ∧
          load64 d'.machine.mem (c.callSlot t) = some (c.behind f) :=
  ⟨directCall_eq_call hapart, fun _ hrun _ hhs => directCall_withstands hapart hrun hhs⟩

/-- A call from the page of the call stack. -/
theorem directCall_refines_call_beforeCall :
    (∃ d, runCode 0 (directCall 0x402000) Execution.beforeCall.cpu = .ok ((), d)) ∧
    ((∀ d, runCode 0 (directCall 0x402000) Execution.beforeCall.cpu = .ok ((), d) ↔
      runCode 0 (plainCall 0x402000) (Execution.beforeCall.cpu.atPlainCall 0x402000) =
        .ok ((), d)) ∧
    ∀ d, runCode 0 (directCall 0x402000) Execution.beforeCall.cpu = .ok ((), d) →
      ∀ hs : List (List Overwrite),
        (∀ ws ∈ hs, ∀ w ∈ ws, w.Spares (Execution.beforeCall.cpu.callSlot 0)) →
        ∃ hs' d', run (interrupted (Instr.exec 0) overwrite) (straight (directCall 0x402000))
            (hs, Execution.beforeCall.cpu) = .ok ((), hs', d') ∧
          load64 d'.machine.mem (Execution.beforeCall.cpu.callSlot 0) =
            some (Execution.beforeCall.cpu.behind 0x402000)) := by
  refine ⟨?_, directCall_refines_call 0 Execution.beforeCall.cpu 0x402000 (by decide)⟩
  obtain ⟨ss, slots, hthread⟩ := Execution.beforeCall_initial.1
  obtain ⟨hslot, hword, -⟩ := Execution.beforeCall_call 0
  obtain ⟨d, hrun, -⟩ := directCall_step hthread 0x402000 hslot hword
  exact ⟨d, hrun⟩

end FlashStack.Asm
