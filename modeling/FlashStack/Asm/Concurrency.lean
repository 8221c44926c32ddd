/-
The inserted sequences among other threads.

Each sequence is safe, instruction by instruction, under everything other threads may do to
the rest of the process:

* `safe_prologue`: wherever the return address was read, it ends up in the slot;
* `safe_directCall`: the address of a rewritten direct call reaches its slot from a
  register, so nothing another thread writes matters;
* `safe_epilogue`: the jump goes to what the latest prologue has read.

The runtime functions are safe too (`safe_rerandomizeJob`, `safe_initJob`). Their proofs
about the machine already allow other threads to act between any two actions, and
`safe_runtime` takes them over to threads that run code.

`team` collects the results into the discipline of a process: `Job.May` says when a thread
may start a job, and `safe_job` that the job is then safe to its end. A thread calls where
there is room, leaves a function at the stack pointer of its entry, re-randomizes below the
start of its stack, and its `arch_prctl` succeeds. Where these fail the runtime faults or
leaves the thread without its region, which is the subject of the modules on atomicity and
on the frames above the start. What follows for every schedule is said in the module on
processes.
-/

import FlashStack.Asm.Team

namespace FlashStack.Asm

open Lib.Memory Lib.Program Lib.Events Lib.Interleaving FlashStack.Runtime

/-- `p` takes `P` to `Q` on thread `t` of a process, whatever the other threads do between its
steps, and each step promises what `Guarantee` says. -/
abbrev SafeOn (t : Tid) {α : Type} (P : View → Prop) (p : TeamProgram α) (Q : α → View → Prop) :
    Prop :=
  Safe (TeamOp.exec t) (among (Foreign t)) (Guarantee t) P p Q

/-! ### Stores -/

section Stores

variable {t : Tid} {r0 rsp a : Word} {slots : Slots} {fs : List Activation} {m : Machine}

/-- A slot that belongs to none of the activations. -/
theorem Frames.store_slot (h : Frames t r0 slots fs m) (hslot : HasSlot r0 rsp)
    (hnot : ∀ f ∈ fs, f.entry ≠ rsp) (v : Word) :
    Mapped m.mem (slotAddr (m.threads t).gs rsp) 8 ∧
      Frames t r0 (Function.update slots rsp (some v)) fs
        (m.withMem (storeN m.mem (slotAddr (m.threads t).gs rsp) 8 v.toNat)) ∧
      Confined t m (m.withMem (storeN m.mem (slotAddr (m.threads t).gs rsp) 8 v.toNat)) := by
  obtain ⟨ss, hthread⟩ := h.thread
  obtain ⟨hmapped, hthread', hconf⟩ := hthread.store_slot hslot v
  refine ⟨hmapped, ⟨⟨ss, hthread'⟩, fun f hf => ?_, fun f hf => hconf.ownedBy (h.words f hf),
    h.nested⟩, hconf⟩
  rw [Function.update_of_ne (hnot f hf)]
  exact h.reads f hf

/-- A store to memory of the program concerns no thread, since every assertion is about shadow
stacks and private state. -/
theorem foreign_store {n v : Nat} (hn : n ≤ 2 ^ 64) (h : OwnedBy m.mem .other a n) (u : Tid) :
    Foreign u m (m.withMem (storeN m.mem a n v)) where
  undisturbed := by
    refine ⟨kept_write ⟨hn, fun x hx w => ?_⟩ u, rfl⟩
    rw [(ownedBy_iff hn).mp h x hx]
    simp
  others x hx := by
    rw [Machine.withMem_mem, ownerOf_storeN]
    exact hx

theorem ne_of_below {x y : Word} (h : stackOffset r0 x < stackOffset r0 y) : y ≠ x := by
  rintro rfl
  exact lt_irrefl _ h

end Stores

/-! ### Rules -/

section Rules

variable {t : Tid} {r0 : Word} {P R : View → Prop} {Q : Unit → View → Prop}

/-- A step whose machine only changed where `t` is confined to. -/
theorem Guarantee.of_confined {op : TeamOp} {v v' : View} (h : Confined t v.1 v'.1)
    (hlogs : match op with
      | .instr i note => note.Logs i v v'
      | _ => v'.2.activations = v.2.activations) : Guarantee t op v v' where
  undisturbed _ hu := h.undisturbed hu
  others := h.keeps_other
  logs := hlogs

theorem Guarantee.of_foreign {op : TeamOp} {v v' : View} (h : ∀ u, Foreign u v.1 v'.1)
    (hlogs : match op with
      | .instr i note => note.Logs i v v'
      | _ => v'.2.activations = v.2.activations) : Guarantee t op v v' where
  undisturbed u _ := (h u).undisturbed
  others := (h t).others
  logs := hlogs

/-- The next instruction of a sequence. -/
theorem safe_instr {i : Instr} {note : Note} {code : List (Instr × Note)}
    (hstable : Stable (among (Foreign t)) P)
    (hexec : ∀ v, P v → ∃ c, i.exec t v.cpu = .ok ((), c) ∧
      Guarantee t (.instr i note) v (v.goOn c (note.apply i v.cpu c v.2.activations)) ∧
      R (v.goOn c (note.apply i v.cpu c v.2.activations)))
    (hrest : SafeOn t R (sequence code) Q) : SafeOn t P (sequence ((i, note) :: code)) Q := by
  refine safe_act (R := fun _ => R) hstable (fun v hv => ?_) fun _ => hrest
  obtain ⟨c, hop, hguar, hR⟩ := hexec v hv
  refine ⟨(), _, ?_, hguar, hR⟩
  simp only [TeamOp.exec, hop]

/-- An instruction that only concerns registers. -/
theorem safe_local {i : Instr} {code : List (Instr × Note)}
    (hstable : Stable (among (Foreign t)) P)
    (hexec : ∀ v, P v → ∃ c, i.exec t v.cpu = .ok ((), c) ∧ c.machine = v.1 ∧
      R (v.goOn c v.2.activations))
    (hrest : SafeOn t R (sequence code) Q) : SafeOn t P (sequence ((i, .plain) :: code)) Q := by
  refine safe_instr hstable (fun v hv => ?_) hrest
  obtain ⟨c, hop, hm, hR⟩ := hexec v hv
  refine ⟨c, hop, Guarantee.of_confined ?_ rfl, hR⟩
  rw [View.goOn_fst, hm]
  exact Confined.refl t v.1

end Rules

/-! ### The prologue -/

section Prologue

variable {t : Tid} {r0 : Word}

/-- **The prologue** puts the word it reads into the slot of its activation. -/
theorem safe_prologue :
    SafeOn t (Entering t r0 fun _ _ => True) (sequence notedPrologue) fun _ => IdleThread t := by
  refine safe_instr (R := Entering t r0 fun l f => l.regs .r11 = f.read) stable_entering ?_
    (safe_local (R := Entering t r0 fun l f => l.regs .r11 = f.read ∧ l.regs .r10 = shadowIndex)
      stable_entering ?_ (safe_instr (R := IdleThread t) stable_entering ?_
        (safe_ret stable_idleThread fun _ h => h)))
  · -- the load of the return address
    rintro v ⟨hstart, f, fs, slots, hacts, hframes, hslot, hword, hbelow, hrsp, -⟩
    obtain ⟨w, hload⟩ := load64_isSome hword.mapped
    have hload' : load64 v.cpu.machine.mem
        ((⟨false, 0, .rsp, none⟩ : Operand).addr t v.cpu) = some w := by
      rw [stackOperand_addr, hrsp]
      exact hload
    have happly : Note.read.apply (.movLoad ⟨false, 0, .rsp, none⟩ .r11) v.cpu
        ((v.cpu.setReg .r11 w).jump (v.cpu.next (.movLoad ⟨false, 0, .rsp, none⟩ .r11)))
          v.2.activations = { f with read := w } :: fs := by
      rw [hacts]
      rfl
    refine ⟨_, exec_movLoad .r11 hload', ?_⟩
    rw [happly]
    exact ⟨.of_confined (Confined.refl t v.1) ⟨f, fs, w, hacts, hload, rfl⟩, hstart,
      { f with read := w }, fs, slots, rfl, hframes, hslot, hword, hbelow, hrsp, rfl⟩
  · rintro v ⟨hstart, f, fs, slots, hacts, hframes, hslot, hword, hbelow, hrsp, hr11⟩
    exact ⟨_, exec_movImm _ _, rfl, hstart, f, fs, slots, hacts, hframes, hslot, hword, hbelow,
      hrsp, hr11, rfl⟩
  · -- the store to the slot
    rintro v ⟨hstart, f, fs, slots, hacts, hframes, hslot, hword, hbelow, hrsp, hr11, hr10⟩
    have haddr : (shadowOperand 0).addr t v.cpu = slotAddr (v.1.threads t).gs f.entry := by
      rw [shadowOperand_addr hr10, hrsp, View.cpu_machine]
      exact congrArg _ (BitVec.add_zero _)
    obtain ⟨hmapped, hframes', hconf⟩ := hframes.store_slot hslot
      (fun g hg => ne_of_below (hbelow g hg)) f.read
    refine ⟨_, exec_movStore .r11 (by rw [haddr]; exact hmapped), ?_⟩
    have hregs : v.cpu.regs .r11 = f.read := hr11
    rw [haddr, hregs]
    refine ⟨.of_confined hconf rfl, ?_⟩
    rw [IdleThread, View.goOn_start, hstart]
    refine ⟨_, hframes'.thread, fun g hg => ?_, fun g hg => ?_, ?_⟩
    · simp only [Note.apply, View.goOn_activations, hacts] at hg
      rcases List.mem_cons.mp hg with rfl | hg
      · exact Function.update_self _ _ _
      · exact hframes'.reads g hg
    · simp only [Note.apply, View.goOn_activations, hacts] at hg
      rcases List.mem_cons.mp hg with rfl | hg
      · exact hconf.ownedBy hword
      · exact hframes'.words g hg
    · simp only [Note.apply, View.goOn_activations, hacts]
      exact List.pairwise_cons.mpr ⟨hbelow, hframes.nested⟩

end Prologue

/-! ### Calls -/

section Calls

variable {t : Tid} {r0 : Word}

/-- The store of a `callq`, seen from its call site. -/
theorem CallSite.push {v : View} {slots : Slots} (h : CallSite r0 v)
    (hframes : Frames t r0 slots v.2.activations v.1) (g : Word) (w : Word) :
    (∀ u, Foreign u v.1 (v.1.withMem (storeN v.1.mem v.cpu.pushed 8 w.toNat))) ∧
      (∀ f ∈ v.2.activations, stackOffset r0 v.cpu.pushed < stackOffset r0 f.entry) ∧
      Frames t r0 slots v.2.activations
        (v.1.withMem (storeN v.1.mem v.cpu.pushed 8 w.toNat)) ∧
      OwnedBy (v.1.withMem (storeN v.1.mem v.cpu.pushed 8 w.toNat)).mem .other v.cpu.pushed 8 ∧
      (Instr.call g).exec t v.cpu = .ok ((), ((v.cpu.on (v.1.withMem (storeN v.1.mem
        v.cpu.pushed 8 (v.cpu.next (.call g)).toNat))).setReg .rsp v.cpu.pushed).jump g) :=
  ⟨foreign_store (by decide) h.word, hframes.below h.below,
    hframes.of_foreign (foreign_store (by decide) h.word t), ownedBy_storeN.mpr h.word,
    exec_call g h.word.mapped⟩

/-- **A plain call** ends with what its prologue has read in the slot. -/
theorem safe_call (g : Word) :
    SafeOn t (Calling t r0 fun _ _ => True) (sequence ((.call g, .enter) :: notedPrologue))
      fun _ => IdleThread t := by
  have hprologue : SafeOn t (Entering t r0 fun _ _ => True) (sequence notedPrologue)
      fun _ => IdleThread t := safe_prologue
  refine safe_instr stable_calling ?_ hprologue
  rintro v ⟨hstart, hsite, slots, hframes, -⟩
  obtain ⟨hforeign, hbelow, hframes', hword, hexec⟩ :=
    hsite.push hframes g (v.cpu.next (.call g))
  exact ⟨_, hexec, .of_foreign hforeign ⟨_, rfl⟩, hstart,
    ⟨v.cpu.pushed, v.cpu.next (.call g), v.cpu.next (.call g)⟩, v.2.activations, slots, rfl,
    hframes', hsite.slot, hword, hbelow, rfl, trivial⟩

/-- **A rewritten direct call** ends with the address behind it in the slot, whatever
other threads do to the call stack. -/
theorem safe_directCall (f : Word) :
    SafeOn t (Calling t r0 fun _ _ => True) (sequence (notedDirectCall f))
      fun _ => IdleThread t := by
  -- `%r11` runs ahead of `%rip` by the instructions that are left
  refine safe_local (R := Calling t r0 fun l _ => l.regs .r11 = l.rip + 21) stable_calling ?_
    (safe_local (R := Calling t r0 fun l _ => l.regs .r11 = l.rip + 11 ∧
      l.regs .r10 = shadowIndex) stable_calling ?_
      (safe_instr (R := Calling t r0 fun l slots => l.regs .r11 = l.rip + 5 ∧
        slots (l.regs .rsp - BitVec.ofNat 64 spaCpuWordLength) = some (l.regs .r11))
        stable_calling ?_ (safe_instr (R := IdleThread t) stable_calling ?_
          (safe_ret stable_idleThread fun _ h => h))))
  · rintro v ⟨hstart, hsite, slots, hframes, -⟩
    exact ⟨_, exec_leaRip _ _, rfl, hstart, ⟨hsite.slot, hsite.word, hsite.below⟩, slots,
      hframes, rfl⟩
  · rintro v ⟨hstart, hsite, slots, hframes, hr11⟩
    refine ⟨_, exec_movImm _ _, rfl, hstart, ⟨hsite.slot, hsite.word, hsite.below⟩, slots,
      hframes, ?_, rfl⟩
    have hnext : v.2.rip + 10 + 11 = v.2.rip + 21 := by grind
    exact hr11.trans hnext.symm
  · -- the store to the slot
    rintro v ⟨hstart, hsite, slots, hframes, hr11, hr10⟩
    have haddr : (shadowOperand (-8)).addr t v.cpu = slotAddr (v.1.threads t).gs v.cpu.pushed := by
      rw [shadowOperand_addr hr10, Cpu.pushed, BitVec.sub_eq_add_neg]
      rfl
    have hbelow := hframes.below hsite.below
    obtain ⟨hmapped, hframes', hconf⟩ := hframes.store_slot hsite.slot
      (fun g hg => ne_of_below (hbelow g hg)) (v.cpu.regs .r11)
    refine ⟨_, exec_movStore .r11 (by rw [haddr]; exact hmapped), ?_⟩
    rw [haddr]
    refine ⟨.of_confined hconf rfl, hstart, ⟨hsite.slot, hconf.ownedBy hsite.word, hsite.below⟩,
      _, hframes', ?_, Function.update_self _ _ _⟩
    have hnext : v.2.rip + 6 + 5 = v.2.rip + 11 := by grind
    exact hr11.trans hnext.symm
  · -- the `callq`
    rintro v ⟨hstart, hsite, slots, hframes, hr11, hslot⟩
    obtain ⟨hforeign, hbelow, hframes', hword, hexec⟩ := hsite.push hframes
      (f + BitVec.ofNat 64 spaLengthOfProtectedPrologue)
      (v.cpu.next (.call (f + BitVec.ofNat 64 spaLengthOfProtectedPrologue)))
    refine ⟨_, hexec, .of_foreign hforeign ⟨_, rfl⟩, ?_⟩
    rw [IdleThread, View.goOn_start, hstart]
    refine ⟨slots, hframes'.thread, fun g hg => ?_, fun g hg => ?_, ?_⟩
    · rcases List.mem_cons.mp hg with rfl | hg
      · exact hslot.trans (congrArg some hr11)
      · exact hframes'.reads g hg
    · rcases List.mem_cons.mp hg with rfl | hg
      · exact hword
      · exact hframes'.words g hg
    · exact List.pairwise_cons.mpr ⟨hbelow, hframes.nested⟩

/-- **A tail jump** reads the return address of its activation again. What it finds there is
whatever another thread may have left. -/
theorem safe_tailJump (g : Word) :
    SafeOn t (Leaving t r0 fun l f => l.regs .rsp = f.entry)
      (sequence ((.jmp g, .plain) :: notedPrologue)) fun _ => IdleThread t := by
  have hprologue : SafeOn t (Entering t r0 fun _ _ => True) (sequence notedPrologue)
      fun _ => IdleThread t := safe_prologue
  refine safe_local stable_leaving ?_ hprologue
  rintro v ⟨hstart, f, fs, slots, hacts, hframes, hrsp⟩
  have hmem : f ∈ f :: fs := List.mem_cons_self
  have hnested := List.pairwise_cons.mp hframes.nested
  obtain ⟨ss, md, hstack, hdesc⟩ := hframes.thread
  exact ⟨_, rfl, rfl, hstart, f, fs, slots, hacts,
    ⟨⟨ss, md, hstack, hdesc⟩, fun g hg => hframes.reads g (List.mem_cons_of_mem f hg),
      fun g hg => hframes.words g (List.mem_cons_of_mem f hg), hnested.2⟩,
    (hstack.holds f.entry f.read (hframes.reads f hmem)).1, hframes.words f hmem, hnested.1,
    hrsp, trivial⟩

/-- **The epilogue** goes to what the latest prologue has read. It loads the slot, which no other
thread has touched since. -/
theorem safe_epilogue :
    SafeOn t (Leaving t r0 fun l f => l.regs .rsp = f.entry) (sequence notedEpilogue)
      fun _ => IdleThread t := by
  refine safe_local (R := Leaving t r0 fun l f => l.regs .rsp = f.entry ∧
      l.regs .r10 = shadowIndex) stable_leaving ?_
    (safe_local (R := Leaving t r0 fun l f => l.regs .rsp = f.entry + 8 ∧
      l.regs .r10 = shadowIndex) stable_leaving ?_
      (safe_instr (R := IdleThread t) stable_leaving ?_
        (safe_ret stable_idleThread fun _ h => h)))
  · rintro v ⟨hstart, f, fs, slots, hacts, hframes, hrsp⟩
    exact ⟨_, exec_movImm _ _, rfl, hstart, f, fs, slots, hacts, hframes, hrsp, rfl⟩
  · rintro v ⟨hstart, f, fs, slots, hacts, hframes, hrsp, hr10⟩
    exact ⟨_, rfl, rfl, hstart, f, fs, slots, hacts, hframes, congrArg (· + 8) hrsp, hr10⟩
  · -- the jump
    rintro v ⟨hstart, f, fs, slots, hacts, hframes, hrsp, hr10⟩
    obtain ⟨ss, md, hstack, hdesc⟩ := hframes.thread
    obtain ⟨content, hm⟩ := hstack.anchored
    obtain ⟨-, hload⟩ := hstack.holds f.entry f.read (hframes.reads f List.mem_cons_self)
    have haddr : (shadowOperand (-8)).addr t v.cpu = slotAddr (initDiff ss r0) f.entry := by
      have hback : f.entry + 8 + -8 = f.entry := by grind
      have hrsp' : v.cpu.rsp = f.entry + 8 := hrsp
      rw [shadowOperand_addr hr10, hrsp', hback, View.cpu_machine, hm.gs]
    refine ⟨_, exec_jmpMem (by rw [haddr]; exact hload), .of_confined (Confined.refl t v.1)
      ⟨f, fs, hacts, by simp [Note.apply, hacts], rfl⟩, ?_⟩
    rw [IdleThread, View.goOn_start, hstart]
    simp only [Note.apply, View.goOn_activations, hacts, List.tail_cons]
    exact ⟨slots, ⟨ss, md, hstack, hdesc⟩,
      fun g hg => hframes.reads g (List.mem_cons_of_mem f hg),
      fun g hg => hframes.words g (List.mem_cons_of_mem f hg),
      (List.pairwise_cons.mp hframes.nested).2⟩

end Calls

/-! ### Runtime functions -/

section Runtime

variable {t : Tid} {r0 : Word} {env : Env} {α : Type}

/-- A runtime function that is safe on the machine is safe on the thread that calls it,
next to anything that depends on the thread and on the memory of the program. -/
theorem safe_runtime {P : Machine → Prop} {p : Program α} {Q : α → Machine → Prop}
    {F : View → Prop} (h : SafeAmong t env P p Q)
    (hF : ∀ m m' l, F (m, l) →
      (∀ x, ownerOf m.mem x = some .other → ownerOf m'.mem x = some .other) → F (m', l)) :
    SafeOn t (fun v => P v.1 ∧ F v) (runtime env p) fun a v => Q a v.1 ∧ F v := by
  have hstable : ∀ P : Machine → Prop, Stable (Undisturbed t) P →
      Stable (among (Foreign t)) fun v => P v.1 ∧ F v := by
    rintro P hP ⟨m, l⟩ ⟨m', l'⟩ ⟨hm, hf⟩ ⟨rfl, hr⟩
    exact ⟨hP m m' hm hr.undisturbed, hF m m' l' hf hr.others⟩
  induction p generalizing P with
  | ret a => exact ⟨hstable P h.1, fun v hv => ⟨h.2 v.1 hv.1, hv.2⟩⟩
  | act op k ih =>
      obtain ⟨hP, R, hexec, hrest⟩ := h
      have hact : ∀ v : View, P v.1 ∧ F v →
          ∃ r v', TeamOp.exec t (.runtime env op) v = .ok (r, v') ∧
          Guarantee t (.runtime env op) v v' ∧ R r v'.1 ∧ F v' := by
        rintro ⟨m, l⟩ ⟨hm, hf⟩
        obtain ⟨r, m', hop, hconf, hR⟩ := hexec m hm
        refine ⟨r, (m', l), ?_, .of_confined hconf rfl, hR, hF m m' l hf hconf.keeps_other⟩
        simp only [TeamOp.exec, hop]
      exact safe_act (hstable P hP) hact fun r => ih r (hrest r)

theorem safe_rerandomizeJob {rsp rspAlloc : Word} (hrsp : BelowStart r0 rsp)
    (hset : env.setGs = true) :
    SafeOn t (fun v => v.2.start = some r0 ∧ ∃ slots, Frames t r0 slots v.2.activations v.1)
      (runtime env (gsRspRuntimeRerandomize rsp rspAlloc)) fun _ => IdleThread t := by
  have hstable : Stable (among (Foreign t)) fun v : View =>
      v.2.start = some r0 ∧ ∃ slots, Frames t r0 slots v.2.activations v.1 := by
    rintro ⟨m, l⟩ ⟨m', l'⟩ ⟨hstart, slots, hframes⟩ ⟨rfl, hm⟩
    exact ⟨hstart, slots, hframes.of_foreign hm⟩
  have hcall : ∀ slots, SafeAmong t env (Idle t r0 slots) (gsRspRuntimeRerandomize rsp rspAlloc)
      fun _ => Idle t r0 slots := fun slots => safe_rerandomize hrsp hset
  -- the region moves under the recorded slots
  refine Safe.pre (safe_exists fun slots => Safe.post (safe_runtime
    (F := fun v => v.2.start = some r0 ∧ (∀ f ∈ v.2.activations, slots f.entry = some f.read) ∧
      (∀ f ∈ v.2.activations, OwnedBy v.1.mem .other f.entry 8) ∧
      v.2.activations.Pairwise fun f g => stackOffset r0 f.entry < stackOffset r0 g.entry)
    (hcall slots) ?_) ?_) hstable ?_
  · rintro m m' l ⟨hstart, hreads, hwords, hnested⟩ hkeep
    exact ⟨hstart, hreads, fun f hf i hi => hkeep _ (hwords f hf i hi), hnested⟩
  · rintro - v ⟨⟨ss, slots', hthread, hsaved⟩, hstart, hreads, hwords, hnested⟩
    rw [IdleThread, hstart]
    exact ⟨slots', ⟨ss, hthread⟩, fun f hf => hsaved _ _ (hreads f hf), hwords, hnested⟩
  · rintro v ⟨hstart, slots, ⟨ss, hthread⟩, hreads, hwords, hnested⟩
    exact ⟨slots, ⟨ss, slots, hthread, fun _ _ h => h⟩, hstart, hreads, hwords, hnested⟩

theorem safe_initJob {rspAlloc : Word} {fuel : Nat} (hr0 : r0.toNat % 8 = 0)
    (hset : env.setGs = true) :
    SafeOn t (fun v => ((v.1.threads t).inited = false ∧ NoShadow v.1 t) ∧ v.2.start = none ∧
        v.2.activations = [])
      (Job.init r0 rspAlloc fuel env).code fun _ => IdleThread t := by
  have hstable : ∀ done, Stable (among (Foreign t)) fun v : View =>
      Started t r0 done v.1 ∧ v.2.start = none ∧ v.2.activations = [] := by
    rintro done ⟨m, l⟩ ⟨m', l'⟩ ⟨hm, hl⟩ ⟨rfl, hr⟩
    refine ⟨?_, hl⟩
    cases done with
    | true =>
        obtain ⟨ss, hthread⟩ := hm
        exact ⟨ss, hthread.of_undisturbed hr.undisturbed⟩
    | false => exact stable_noShadow m m' hm hr.undisturbed
  refine safe_bind (safe_runtime (F := fun v => v.2.start = none ∧ v.2.activations = [])
    (safe_initShadowStack hr0 hset fuel) fun _ _ _ h _ => h) fun done => ?_
  cases done with
  | false =>
      rw [if_neg (by decide)]
      refine safe_ret (hstable false) ?_
      rintro v ⟨hno, hstart, hacts⟩
      rw [IdleThread, hstart]
      exact ⟨hacts, hno⟩
  | true =>
      rw [if_pos rfl]
      refine safe_act (R := fun _ => IdleThread t) (hstable true) ?_
        fun _ => safe_ret stable_idleThread fun _ h => h
      rintro v ⟨⟨ss, hthread⟩, hstart, hacts⟩
      refine ⟨(), _, rfl, .of_confined (Confined.refl t v.1) rfl, fun _ => none, ⟨ss, hthread⟩,
        ?_, ?_, ?_⟩
      · simp [hacts]
      · simp [hacts]
      · simp [hacts]

end Runtime

/-! ### The discipline of a process -/

/-- When a thread may start a job: it is initialised once, at an aligned stack pointer; it
calls from a call site, and leaves a function with the stack pointer back at its entry. The
program writes its own memory, and `arch_prctl` succeeds. -/
def Job.May (t : Tid) : Job → View → Prop
  | .init r0 _ _ env, v =>
      (v.2.start = none ∧ (v.1.threads t).inited = false) ∧ r0.toNat % 8 = 0 ∧ env.setGs = true
  | .compute _ _ _, _ => True
  | .write a n _, v => n ≤ 2 ^ 64 ∧ OwnedBy v.1.mem .other a n
  | .rerandomize rsp _ env, v =>
      (∃ r0, v.2.start = some r0 ∧ BelowStart r0 rsp) ∧ env.setGs = true
  | .call _, v => ∃ r0, v.2.start = some r0 ∧ CallSite r0 v
  | .directCall _, v => ∃ r0, v.2.start = some r0 ∧ CallSite r0 v
  | .tailJump _, v => ∃ f ∈ v.2.activations.head?, v.cpu.rsp = f.entry
  | .ret, v => ∃ f ∈ v.2.activations.head?, v.cpu.rsp = f.entry

section Discipline

variable {t : Tid} {r0 : Word}

theorem stable_may (j : Job) : Stable (among (Foreign t)) (j.May t) := by
  rintro ⟨m, l⟩ ⟨m', l'⟩ h ⟨rfl, hm⟩
  cases j with
  | init r0 rspAlloc fuel env =>
      refine ⟨⟨h.1.1, ?_⟩, h.2⟩
      rw [hm.undisturbed.thread]
      exact h.1.2
  | write a n x => exact ⟨h.1, hm.ownedBy h.2⟩
  | call g =>
      obtain ⟨r0, hstart, hsite⟩ := h
      exact ⟨r0, hstart, hsite.of_foreign ⟨rfl, hm⟩⟩
  | directCall f =>
      obtain ⟨r0, hstart, hsite⟩ := h
      exact ⟨r0, hstart, hsite.of_foreign ⟨rfl, hm⟩⟩
  | compute _ _ _ => exact h
  | rerandomize _ _ _ => exact h
  | tailJump _ => exact h
  | ret => exact h

theorem stable_ready (j : Job) :
    Stable (among (Foreign t)) fun v => IdleThread t v ∧ j.May t v :=
  stable_idleThread.and (stable_may j)

theorem IdleThread.frames {v : View} (h : IdleThread t v) (hstart : v.2.start = some r0) :
    ∃ slots, Frames t r0 slots v.2.activations v.1 := by
  rw [IdleThread, hstart] at h
  exact h

/-- A job that starts at a call site: it is safe if its code is safe from every call site. -/
theorem safe_calling {j : Job} (hj : ∀ v, j.May t v → ∃ r0, v.2.start = some r0 ∧ CallSite r0 v)
    (h : ∀ r0, SafeOn t (Calling t r0 fun _ _ => True) j.code fun _ => IdleThread t) :
    SafeOn t (fun v => IdleThread t v ∧ j.May t v) j.code fun _ => IdleThread t := by
  refine Safe.pre (safe_exists h) (stable_ready j) ?_
  rintro v ⟨hidle, hmay⟩
  obtain ⟨r0, hstart, hsite⟩ := hj v hmay
  obtain ⟨slots, hframes⟩ := hidle.frames hstart
  exact ⟨r0, hstart, hsite, slots, hframes, trivial⟩

/-- A job that leaves a function: it is safe if its code is, with the stack pointer back at the
entry of the activation. -/
theorem safe_leaving {j : Job}
    (hj : ∀ v, j.May t v → ∃ f ∈ v.2.activations.head?, v.cpu.rsp = f.entry)
    (h : ∀ r0, SafeOn t (Leaving t r0 fun l f => l.regs .rsp = f.entry) j.code
      fun _ => IdleThread t) :
    SafeOn t (fun v => IdleThread t v ∧ j.May t v) j.code fun _ => IdleThread t := by
  refine Safe.pre (safe_exists h) (stable_ready j) ?_
  rintro v ⟨hidle, hmay⟩
  obtain ⟨f, hf, hrsp⟩ := hj v hmay
  obtain ⟨fs, hacts⟩ : ∃ fs, v.2.activations = f :: fs := List.head?_eq_some_iff.mp hf
  cases hstart : v.2.start with
  | none =>
      rw [IdleThread, hstart, hacts] at hidle
      exact absurd hidle.1 (List.cons_ne_nil f fs)
  | some r0 =>
      obtain ⟨slots, hframes⟩ := hidle.frames hstart
      rw [hacts] at hframes
      exact ⟨r0, hstart, f, fs, slots, hacts, hframes, hrsp⟩

/-- **Every job** takes an idle thread to an idle thread, among other threads. -/
theorem safe_job (j : Job) :
    SafeOn t (fun v => IdleThread t v ∧ j.May t v) j.code fun _ => IdleThread t := by
  cases j with
  | init r0 rspAlloc fuel env =>
      by_cases hgood : r0.toNat % 8 = 0 ∧ env.setGs = true
      · refine (safe_initJob hgood.1 hgood.2).pre (stable_ready _) ?_
        rintro v ⟨hidle, ⟨hstart, hin⟩, -⟩
        rw [IdleThread, hstart] at hidle
        exact ⟨⟨hin, hidle.2⟩, hstart, hidle.1⟩
      · refine Safe.pre (safe_exists (P := fun (_ : False) (_ : View) => True) fun h => h.elim)
          (stable_ready _) ?_
        exact fun v hv => (hgood hv.2.2).elim
  | compute regs rip flags =>
      refine safe_act (R := fun _ => IdleThread t) (stable_ready _) ?_
        fun _ => safe_ret stable_idleThread fun _ h => h
      exact fun v hv => ⟨(), _, rfl, .of_confined (Confined.refl t v.1) rfl, hv.1⟩
  | write a n x =>
      refine safe_act (R := fun _ => IdleThread t) (stable_ready _) ?_
        fun _ => safe_ret stable_idleThread fun _ h => h
      rintro ⟨m, l⟩ ⟨hidle, hn, hown⟩
      exact ⟨(), _, rfl, .of_foreign (foreign_store hn hown) rfl,
        stable_idleThread _ _ hidle ⟨rfl, foreign_store hn hown t⟩⟩
  | rerandomize rsp rspAlloc env =>
      by_cases hset : env.setGs = true
      · refine Safe.pre (safe_exists fun r0 => safe_of_fact fun hrsp : BelowStart r0 rsp =>
          safe_rerandomizeJob hrsp hset) (stable_ready _) ?_
        rintro v ⟨hidle, ⟨r0, hstart, hrsp⟩, -⟩
        exact ⟨r0, hrsp, hstart, hidle.frames hstart⟩
      · refine Safe.pre (safe_exists (P := fun (_ : False) (_ : View) => True) fun h => h.elim)
          (stable_ready _) ?_
        exact fun v hv => (hset hv.2.2).elim
  | call g => exact safe_calling (fun _ h => h) fun _ => safe_call g
  | directCall f => exact safe_calling (fun _ h => h) fun _ => safe_directCall f
  | tailJump g => exact safe_leaving (fun _ h => h) fun _ => safe_tailJump g
  | ret => exact safe_leaving (fun _ h => h) fun _ => safe_epilogue

/-- The discipline of a process: what a thread relies on, what it promises, where it is between
two jobs, and when it may start one. -/
def team : Discipline TeamOp.exec Job.code where
  rely := Foreign
  guar := Guarantee
  Idle := IdleThread
  may := Job.May
  compatible hu h := h.foreign hu
  idle_stable _ := stable_idleThread
  safe _ := safe_job

end Discipline

end FlashStack.Asm
