/-
The assembled code, fetched from its addresses.

The CPU takes the instruction at its address and runs it; the models of the sequences run
them as wholes. Here an image is code at a base address, a step fetches and executes one
instruction, and what the sequence of a statement does as a whole the instructions of its
code do one by one.

* `Holds.falls`: an instruction that goes on behind itself;
* `Holds.straight`, `Holds.branch`: sequences without and with the local jump of an indirect
  call;
* `Holds.statement`: the code of a statement, with one case for each kind of statement;
* `runs_of_run`: every run of the instrumented program is a run of fetched instructions,
  with the same steps of the runtime and of other threads in between;
* `fetched_simulates`: so is every run of the original program that keeps the calling
  conventions.

The code is apart from the memory that instructions write, as pages without write access
are. The items have positive lengths and are less than `2^64` bytes together, so that an
address belongs to one item at most; other statements are opaque, one item each.
-/

import FlashStack.As.Reader
import FlashStack.Asm.Preservation
import Mathlib.Logic.Relation

namespace FlashStack.As

open Lib.Memory Lib.Program Lib.Events Lib.Listing FlashStack.Asm FlashStack.Runtime

/-! ### Instructions -/

section Instructions

theorem exists_of_map_ok {α β ε : Type} {x : Except ε α} {f : α → β} {b : β}
    (h : x.map f = .ok b) : ∃ a, x = .ok a ∧ f a = b := by
  cases x with
  | error e => cases h
  | ok a => exact ⟨a, rfl, Except.ok.inj h⟩

variable {t : Tid} {c c' : Cpu} {i : CallInstr}

/-- The instruction behind is the next one. Of the others it is said where they go. -/
def falls : CallInstr → Bool
  | .instr (.jmpMem _) => false
  | .instr (.jmp _) => false
  | .instr (.call _) => false
  | .instr _ => true
  | .movOperand _ _ _ => true
  | .cmpLoad _ _ => true
  | .jne _ => false
  | .callReg _ => false
  | .callOperand _ _ => false

theorem rip_of_falls (hi : falls i = true) {out : i.Res × Cpu} (h : i.exec t c = .ok out) :
    out.2.rip = c.rip + BitVec.ofNat 64 (callInstrLength i) := by
  cases i with
  | instr i =>
      cases i with
      | movImm v dst | addImm v dst | leaRip v dst =>
          obtain rfl := Except.ok.inj h
          rfl
      | movLoad src dst | movStore src dst =>
          simp only [CallInstr.exec, Instr.exec] at h
          split at h
          · cases h
          · obtain rfl := Except.ok.inj h
            rfl
      | jmpMem target | jmp target | call target => cases hi
  | movOperand op length dst =>
      simp only [CallInstr.exec] at h
      split at h
      · cases h
      · obtain rfl := Except.ok.inj h
        rfl
  | cmpLoad src dst =>
      simp only [CallInstr.exec] at h
      split at h
      · cases h
      · obtain rfl := Except.ok.inj h
        rfl
  | jne disp => cases hi
  | callReg r => cases hi
  | callOperand op length => cases hi

/-- The first load of the prologue, as its text is read. -/
theorem exec_movOperand_stack : (CallInstr.movOperand (.mem false 0 (some .rsp) none) 4 .r11).exec
    t c = (CallInstr.instr (.movLoad ⟨false, 0, .rsp, none⟩ .r11)).exec t c := by
  have haddr : (0 : Word) + 0 + c.regs .rsp + 0 = (⟨false, 0, .rsp, none⟩ : Operand).addr t c := by
    rw [stackOperand_addr, Cpu.rsp]
    simp
  have hvalue : (CallOperand.mem false 0 (some .rsp) none).value t c =
      c.read ((⟨false, 0, .rsp, none⟩ : Operand).addr t c) := congrArg c.read haddr
  simp only [CallInstr.exec, Instr.exec, hvalue]
  rfl

end Instructions

/-! ### Code in memory -/

section Images

variable {κ : Type}

def itemLength (otherLength : κ → Nat) : Item κ → Nat
  | .instr i => callInstrLength i
  | .other k => otherLength k

def Item.exec (other : κ → Cpu → Except Fault Cpu) (t : Tid) : Item κ → Cpu → Except Fault Cpu
  | .instr i, c => (i.exec t c).map Prod.snd
  | .other k, c => other k c

/-- Code that begins at `base`. The items have positive lengths and less than `2^64` bytes
together, so that an address belongs to one item at most; the bytes of the items are not modelled.
-/
structure Image (κ : Type) where
  base : Word
  code : List (Item κ)
  otherLength : κ → Nat
  pos : ∀ i ∈ code, 0 < itemLength otherLength i
  fits : total (itemLength otherLength) code < 2 ^ 64

namespace Image

variable (im : Image κ) (other : κ → Cpu → Except Fault Cpu) (t : Tid)

def size (i : Item κ) : Nat := itemLength im.otherLength i

/-- The instruction that begins at an address; `none` in the middle of an instruction, and outside
the image. -/
def fetch (a : Word) : Option (Item κ) := codeAt im.size im.code (a - im.base).toNat

def Step (c c' : Cpu) : Prop := ∃ i, im.fetch c.rip = some i ∧ i.exec other t c = .ok c'

abbrev Steps : Cpu → Cpu → Prop := Relation.ReflTransGen (im.Step other t)

/-- The code from an address on is this sequence, each instruction at the end of the one before
it. -/
def Holds (a : Word) (piece : List (Item κ)) : Prop :=
  Lib.Listing.Stands im.size im.code (a - im.base).toNat piece

/-- The statement whose code begins at an address. This is the program of the module on whole
programs, read off the assembled code. -/
def programAt (stmts : List (Stmt (Item κ))) : Asm.Code (Item κ) := fun a =>
  codeAt (fun s => total im.size (stmtCode s)) stmts (a - im.base).toNat

/-- A run with these events; `.go` is the instructions of a statement, fetched one by one. The
other events are those of the instrumented program. -/
inductive Runs : List Instrumented.Event → Cpu → Cpu → Prop where
  | nil (c : Cpu) : Runs [] c c
  | go {es : List Instrumented.Event} {c c₁ c' : Cpu} (hsteps : im.Steps other t c c₁)
      (hrest : Runs es c₁ c') : Runs (.go :: es) c c'
  | event {e : Instrumented.Event} {es : List Instrumented.Event} {c c₁ c' : Cpu} (he : e ≠ .go)
      (hstep : Instrumented.step (fun _ => none) (Item.exec other t) t e c = .ok c₁)
      (hrest : Runs es c₁ c') : Runs (e :: es) c c'

variable {im other t} {a : Word} {c c' : Cpu} {i : CallInstr} {item : Item κ}
  {piece piece' : List (Item κ)}

theorem offset_add {a base : Word} {n : Nat} (h : (a - base).toNat + n < 2 ^ 64) :
    (a + BitVec.ofNat 64 n - base).toNat = (a - base).toNat + n := by
  have hsub : a + BitVec.ofNat 64 n - base = a - base + BitVec.ofNat 64 n := by grind
  rw [hsub, BitVec.toNat_add, BitVec.toNat_ofNat, Nat.add_mod_mod, Nat.mod_eq_of_lt h]

theorem Holds.fetch (h : im.Holds a (item :: piece)) : im.fetch a = some item :=
  Lib.Listing.Stands.head im.pos h

theorem Holds.behind (h : im.Holds a (piece ++ piece')) :
    im.Holds (a + BitVec.ofNat 64 (total im.size piece)) piece' := by
  have hle : (a - im.base).toNat + total im.size (piece ++ piece') ≤ total im.size im.code :=
    h.le_total
  have hfits : total im.size im.code < 2 ^ 64 := im.fits
  rw [total_append] at hle
  rw [Holds, offset_add (by omega)]
  exact Lib.Listing.Stands.drop h

theorem Holds.step (other : κ → Cpu → Except Fault Cpu) (h : im.Holds c.rip (.instr i :: piece))
    {out : i.Res × Cpu} (hexec : i.exec t c = .ok out) : im.Step other t c out.2 := by
  refine ⟨_, h.fetch, ?_⟩
  rw [Item.exec, hexec]
  rfl

/-- **An instruction that falls through** is fetched, does its work, and leaves the CPU at the
rest of the piece. -/
theorem Holds.falls (other : κ → Cpu → Except Fault Cpu) (h : im.Holds c.rip (.instr i :: piece))
    (hi : As.falls i = true) {out : i.Res × Cpu} (hexec : i.exec t c = .ok out) :
    im.Step other t c out.2 ∧ im.Holds out.2.rip piece := by
  refine ⟨h.step other hexec, ?_⟩
  rw [rip_of_falls hi hexec]
  exact @Holds.behind κ im c.rip [.instr i] piece h

/-- A sequence that falls through is run to its end, and the CPU is at what follows it. -/
theorem Holds.straight {code : List Instr} (hfalls : ∀ i ∈ code, As.falls (.instr i) = true)
    (h : im.Holds c.rip (code.map (fun i => .instr (.instr i)) ++ piece))
    (hrun : runCode t code c = .ok ((), c')) :
    im.Steps other t c c' ∧ im.Holds c'.rip piece := by
  induction code generalizing c with
  | nil =>
      obtain rfl := congrArg Prod.snd (Except.ok.inj hrun)
      exact ⟨.refl, h⟩
  | cons i code ih =>
      obtain ⟨⟨⟩, c₁, hexec, hrest⟩ := exists_of_run_act hrun
      obtain ⟨hstep, hnext⟩ := Holds.falls other h (hfalls i List.mem_cons_self) hexec
      obtain ⟨hsteps, hback⟩ := ih (fun j hj => hfalls j (List.mem_cons_of_mem _ hj)) hnext hrest
      exact ⟨.head hstep hsteps, hback⟩

/-- A sequence whose last instruction may jump: all others fall through, and the last one goes
where it goes. -/
theorem Holds.sequence {front : List Instr} {last : Instr}
    (hfalls : ∀ i ∈ front, As.falls (.instr i) = true)
    (h : im.Holds c.rip ((front ++ [last]).map (fun i => .instr (.instr i))))
    (hrun : runCode t (front ++ [last]) c = .ok ((), c')) : im.Steps other t c c' := by
  rw [List.map_append] at h
  rw [runCode, straight_append] at hrun
  obtain ⟨⟨⟩, c₁, hfront, hlast⟩ := exists_of_run_bind hrun
  obtain ⟨hsteps, hnext⟩ : im.Steps other t c c₁ ∧ _ := h.straight hfalls hfront
  obtain ⟨⟨⟩, c₂, hexec, hret⟩ := exists_of_run_act hlast
  obtain rfl := congrArg Prod.snd (Except.ok.inj hret)
  exact hsteps.tail (Holds.step other hnext hexec)

/-- The call at the end of an indirect call. -/
theorem Holds.callReg (other : κ → Cpu → Except Fault Cpu)
    (h : im.Holds c.rip [.instr (.callReg .rax)])
    (hrun : Lib.Program.run (CallInstr.exec t) (emit (.callReg .rax)) c = .ok ((), c')) :
    im.Step other t c c' := by
  obtain ⟨⟨⟩, c₁, hexec, hret⟩ := exists_of_run_act hrun
  obtain rfl := congrArg Prod.snd (Except.ok.inj hret)
  exact h.step other hexec

/-- Behind the comparison of an indirect call. -/
theorem Holds.branch (h : im.Holds c.rip (.instr (.jne (codeLength skipPrologue)) ::
      (skipPrologue.map (fun i => .instr (.instr i)) ++ [.instr (.callReg .rax)])))
    (hrun : Lib.Program.run (CallInstr.exec t) branch c = .ok ((), c')) :
    im.Steps other t c c' := by
  obtain ⟨jumps, c₁, hjne, hcall⟩ := exists_of_run_act hrun
  have hstep := h.step other hjne
  obtain ⟨rfl, rfl⟩ := Prod.mk.inj (Except.ok.inj hjne)
  cases hzf : c.flags.zf with
  | true =>
      -- a protected target: on behind the `jne`
      rw [hzf] at hcall hstep
      have hskip : Lib.Program.run (CallInstr.exec t)
          (emitAll skipPrologue >>= fun _ => emit (.callReg .rax)) (c.jump (c.rip + 2 + 0)) =
            .ok ((), c') := hcall
      have hnext : im.Holds (c.rip + 2 + 0) _ :=
        (BitVec.add_zero (c.rip + 2)).symm ▸ @behind κ im c.rip [_] _ h
      obtain ⟨⟨⟩, c₂, hcode, hlast⟩ := exists_of_run_bind hskip
      rw [run_emitAll] at hcode
      obtain ⟨hsteps, hback⟩ : im.Steps other t _ c₂ ∧ _ := Holds.straight (by decide) hnext hcode
      exact .head hstep (hsteps.tail (hback.callReg other hlast))
  | false =>
      -- another one: label `1`, in front of the `callq`
      rw [hzf] at hcall hstep
      have hskip : Lib.Program.run (CallInstr.exec t) (emit (.callReg .rax))
          (c.jump (c.rip + 2 + BitVec.ofNat 64 27)) = .ok ((), c') := hcall
      have hrip : c.rip + BitVec.ofNat 64 29 = c.rip + 2 + BitVec.ofNat 64 27 := by
        rw [BitVec.add_assoc]
        rfl
      have hback : im.Holds (c.rip + BitVec.ofNat 64 29) [.instr (.callReg .rax)] :=
        @behind κ im c.rip (.instr (.jne (codeLength skipPrologue)) ::
          skipPrologue.map fun i => .instr (.instr i)) _ h
      have hnext : im.Holds (c.jump (c.rip + 2 + BitVec.ofNat 64 27)).rip _ := hrip ▸ hback
      have hjump : im.Step other t c (c.jump (c.rip + 2 + BitVec.ofNat 64 27)) := hstep
      exact .head hjump (.single (hnext.callReg other hskip))

/-- **The code of a statement** does what its sequence does, one instruction after the other. The
cases are those of the statement. -/
theorem Holds.statement {stmt : Stmt (Item κ)} (h : im.Holds c.rip (stmtCode stmt))
    (hstmt : instrumentedStep (Item.exec other t) t stmt c = .ok c') :
    im.Steps other t c c' := by
  cases stmt with
  | startproc =>
      obtain ⟨⟨⟨⟩, d⟩, hrun, rfl⟩ := exists_of_map_ok hstmt
      obtain ⟨⟨⟩, c₁, hexec, hrest⟩ := exists_of_run_act hrun
      obtain ⟨hstep, hnext⟩ := Holds.falls other h rfl (exec_movOperand_stack.trans hexec)
      exact .head hstep (@sequence κ im other t c₁ d [.movImm shadowIndex .r10]
        (.movStore .r11 (shadowOperand 0)) (by simp [As.falls]) hnext hrest)
  | ret =>
      obtain ⟨⟨⟨⟩, d⟩, hrun, rfl⟩ := exists_of_map_ok hstmt
      exact @sequence κ im other t c d
        [.movImm shadowIndex .r10, .addImm (BitVec.ofNat 64 spaCpuWordLength) .rsp]
        (.jmpMem (shadowOperand (-8))) (by simp [As.falls]) h hrun
  | call g =>
      obtain ⟨⟨⟨⟩, d⟩, hrun, rfl⟩ := exists_of_map_ok hstmt
      exact @sequence κ im other t c d [] (.call g) (by simp) h hrun
  | directCall g =>
      obtain ⟨⟨⟨⟩, d⟩, hrun, rfl⟩ := exists_of_map_ok hstmt
      exact @sequence κ im other t c d
        [.leaRip (BitVec.ofNat 64 (codeLength (directCallTail g))) .r11,
          .movImm shadowIndex .r10, .movStore .r11 (shadowOperand (-8))]
        (.call (g + BitVec.ofNat 64 spaLengthOfProtectedPrologue)) (by simp [As.falls]) h hrun
  | indirectCall op length =>
      obtain ⟨⟨⟨⟩, d⟩, hrun, rfl⟩ := exists_of_map_ok hstmt
      obtain ⟨⟨⟩, c₁, hmov, hrun⟩ := exists_of_run_act hrun
      obtain ⟨hstep₁, h₁⟩ := Holds.falls other h rfl hmov
      obtain ⟨⟨⟩, c₂, himm, hrun⟩ := exists_of_run_act hrun
      obtain ⟨hstep₂, h₂⟩ := Holds.falls other h₁ rfl himm
      obtain ⟨⟨⟩, c₃, hcmp, hrun⟩ := exists_of_run_act hrun
      obtain ⟨hstep₃, h₃⟩ := Holds.falls other h₂ rfl hcmp
      exact .head hstep₁ (.head hstep₂ (.head hstep₃ (h₃.branch hrun)))
  | other item => exact .single ⟨item, h.fetch, hstmt⟩

/-! ### Runs -/

variable {stmts : List (Stmt (Item κ))} {e : Instrumented.Event}

theorem holds_of_programAt (hcode : im.code = stmts.flatMap stmtCode) {stmt : Stmt (Item κ)}
    (h : im.programAt stmts a = some stmt) : im.Holds a (stmtCode stmt) := by
  rw [Holds, hcode]
  exact stands_flatMap h

theorem steps_go (hcode : im.code = stmts.flatMap stmtCode)
    (h : Instrumented.step (im.programAt stmts) (Item.exec other t) t .go c = .ok c') :
    im.Steps other t c c' := by
  simp only [Instrumented.step] at h
  split at h
  · exact (holds_of_programAt hcode ‹_›).statement h
  · obtain rfl := Except.ok.inj h
    exact .refl

/-- **Every run of the instrumented program** is a run of the code that it is assembled to. -/
theorem runs_of_run (im : Image κ) (other : κ → Cpu → Except Fault Cpu) (t : Tid)
    {stmts : List (Stmt (Item κ))} (hcode : im.code = stmts.flatMap stmtCode)
    {es : List Instrumented.Event} {c c' : Cpu}
    (hrun : runAll (Instrumented.step (im.programAt stmts) (Item.exec other t) t) es c = .ok c') :
    im.Runs other t es c c' := by
  induction es generalizing c with
  | nil =>
      obtain rfl := Except.ok.inj hrun
      exact .nil c
  | cons e es ih =>
      obtain ⟨c₁, hstep, hrest⟩ := exists_of_runAll_cons hrun
      cases e with
      | go => exact .go (steps_go hcode hstep) (ih hrest)
      | rerandomize rsp rspAlloc env => exact .event (by simp) hstep (ih hrest)
      | elsewhere m => exact .event (by simp) hstep (ih hrest)

end Image

/-- **The assembled code preserves the meaning of programs**: whatever the original program does,
with its return addresses untouched, the code that its instrumentation is assembled to does,
instruction by instruction. -/
theorem fetched_simulates (im : Image κ) {other : κ → Cpu → Except Fault Cpu} {live : Live}
    {t : Tid} {r0 : Word} {stmts trace : List (Stmt (Item κ))}
    (hcode : im.code = stmts.flatMap stmtCode)
    (hconv : Conventions (im.programAt stmts) (Item.exec other t) live t) {s s' : Source} {c : Cpu}
    (h : Related (im.programAt stmts) live t r0 s c)
    (hrun : s.Run (im.programAt stmts) (Item.exec other t) live t r0 trace s')
    {es : List Instrumented.Event} (hes : Instrumented.steps es = trace.length)
    (hallowed : Along (Instrumented.step (im.programAt stmts) (Item.exec other t) t)
      (Instrumented.Allowed t r0) es c) :
    ∃ c', im.Runs other t es c c' ∧ Related (im.programAt stmts) live t r0 s' c' := by
  obtain ⟨c', hc', hrelated⟩ := h.run hconv hrun hes hallowed
  exact ⟨c', im.runs_of_run other t hcode hc', hrelated⟩

end Images

/-! ### A function that calls another one -/

/-- The two functions; the call is to the second. -/
def callingStmts : List (Stmt (Item Unit)) :=
  [.startproc, .other (.other ()), .directCall 0x401044, .ret, .startproc, .ret]

def callingImage : Image Unit where
  base := 0x401000
  code := callingStmts.flatMap stmtCode
  otherLength _ := 1
  pos := by decide
  fits := by decide

theorem callingImage_some {a : Word} {stmt : Stmt (Item Unit)}
    (h : callingImage.programAt callingStmts a = some stmt) :
    stmt = .startproc ∨ stmt = .other (.other ()) ∨ stmt = .directCall 0x401044 ∨ stmt = .ret := by
  obtain ⟨front, back, hstmts, -⟩ := exists_front h
  have hmem : stmt ∈ callingStmts := by
    rw [hstmts]
    exact List.mem_append_right _ List.mem_cons_self
  simp only [callingStmts, List.mem_cons, List.not_mem_nil, or_false] at hmem
  rcases hmem with rfl | rfl | rfl | rfl | rfl | rfl
  all_goals simp

theorem fetched_simulates_calling :
    ∃ s', (callingAt 0x401000).Run (callingImage.programAt callingStmts) (Item.exec nop 0)
        (fun _ _ => False) 0 0x7FFFFFFFE000
        [.startproc, .other (.other ()), .directCall 0x401044, .ret, .ret] s' ∧ s'.cpu.rip = 0 ∧
      ∃ c', callingImage.Runs nop 0 callingEvents Execution.beforeCall.cpu c' ∧
        Related (callingImage.programAt callingStmts) (fun _ _ => False) 0 0x7FFFFFFFE000
          s' c' := by
  obtain ⟨s', hrun, hrip⟩ := @calling_run _ (callingImage.programAt callingStmts)
    (Item.exec nop 0) (.other ()) 0x401044 (fun _ => rfl) rfl rfl rfl rfl rfl
  have hconv : Conventions (callingImage.programAt callingStmts) (Item.exec nop 0)
      (fun _ _ => False) 0 :=
    calling_conventions (fun _ => rfl) (fun _ _ => callingImage_some) rfl
  exact ⟨s', hrun, hrip, fetched_simulates callingImage rfl hconv (calling_related rfl) hrun rfl
    (calling_allowed _)⟩

end FlashStack.As
