/-
Every schedule of a process.

The threads of a process are scheduled instruction by instruction, and runtime functions
action by action. Whatever the schedule, as long as jobs are started where they may be
(`Job.May`):

* `interleaved_returns`: no access faults, a thread between two jobs has one region, and a
  return goes to what the latest prologue of its activation has read;
* `interleaved_integrity`: if every prologue finds the return address untouched, every
  return goes home;
* `direct_calls_return_home`: threads that only make rewritten direct calls return home,
  whatever the others write.

`planted_by_another_thread` is the converse: a thread that writes between a `callq` and the
load of the prologue decides where the call returns, in every state of the invariant in
which the two threads may do so.

The first three are instances of the rules of `Lib.Interleaving` at the discipline `team`.
What is left is to say that the activations remember the right words: `home_kept` says which
steps keep every `read` equal to its `home`. The lemmas on jobs of one thread then run a
whole job without another thread in between (`runs_callq`, `runs_prologue`, `runs_return`,
…), from a state of the invariant to one. From them the schedule of the two threads at the
end is put together: a call, a move of the shadow stack, a write of the second thread over
the first one's return address, and the return.
-/

import FlashStack.Asm.Concurrency

namespace FlashStack.Asm

open Lib.Memory Lib.Program Lib.Events Lib.Interleaving FlashStack.Runtime

/-- A process: the machine, and its threads with what is left of their jobs. -/
abbrev Process := Pool TeamOp TeamOp.Res Machine Core Tid

/-- Jobs whose prologue reads the call stack: a plain call and a tail jump. Before it reads,
others may have written there. -/
def Job.reads : Job → Bool
  | .call _ => true
  | .tailJump _ => true
  | _ => false

namespace Process

abbrev Event := Lib.Interleaving.Event Tid Job

abbrev step : Event → Process → Except Fault Process := Lib.Interleaving.step TeamOp.exec Job.code

/-- Before the first call of every thread, initialised or not. No thread is inside a job, and none
has an activation. -/
structure Initial (s : Process) : Prop where
  running : ∀ t, s.running t = none
  idle : ∀ t, IdleThread t (s.view t)
  activations : ∀ t, (s.own t).activations = []

/-- The CPU of thread `t`: its own registers, on the machine that all threads share. -/
def cpu (s : Process) (t : Tid) : Cpu := View.cpu (s.view t)

/-- The next step of `t` is the jump of an epilogue. The stack pointer has been raised already. -/
def Returning (s : Process) (t : Tid) : Prop :=
  ∃ i k, s.running t = some (.act (.instr i .leave) k)

/-- The next step of `t` ends its first activation `f`, and goes to `a`. -/
def ReturnsTo (s : Process) (t : Tid) (f : Activation) (a : Word) : Prop :=
  ∃ fs s', (s.own t).activations = f :: fs ∧ step (.step t) s = .ok s' ∧ (s'.own t).rip = a ∧
    (s'.own t).activations = fs

/-- A prologue finds the return address of its activation on the call stack. Other steps are not
restricted. -/
def Untouched (_ : Tid) (op : TeamOp) (v : View) : Prop :=
  ∀ i, op = .instr i .read →
    ∀ f ∈ v.2.activations.head?, load64 v.1.mem f.entry = some f.home

variable {s s₀ : Process} {t : Tid}

theorem Initial.inv (h : Initial s₀) : team.Inv s₀ :=
  Discipline.inv_of_idle h.running h.idle

/-! ### Returns -/

/-- A return goes to what the latest prologue of its activation has read. -/
theorem returnsTo_read (h : team.Inv s) (ht : Returning s t) :
    ∃ f, ReturnsTo s t f f.read := by
  obtain ⟨i, k, hrun⟩ := ht
  obtain ⟨r, s', hstep, -, hguar, -⟩ := h.step hrun
  obtain ⟨f, fs, hacts, hacts', hrip⟩ : Note.leave.Logs i (s.view t) (s'.view t) := hguar.logs
  exact ⟨f, fs, s', hacts, hstep, hrip, hacts'⟩

/-- A thread between two jobs has one region, with the return addresses it has read. -/
theorem oneRegion_of_idle {r0 : Word} (h : team.Inv s) (hrun : s.running t = none)
    (hstart : (s.own t).start = some r0) :
    ∃ ss, s.shared.OneRegion t r0 ss ∧
      ∀ f ∈ (s.own t).activations, epilogueLoad s.shared t f.entry = .ok f.read := by
  obtain ⟨slots, ⟨ss, hthread⟩, hreads, -⟩ := IdleThread.frames (h.idle t hrun) hstart
  obtain ⟨md, content, hm⟩ := hthread.coherent
  obtain ⟨md', hstack, -⟩ := hthread
  exact ⟨ss, hm.oneRegion, fun f hf => hstack.epilogueLoad_eq (hreads f hf)⟩

/-- **Every schedule.** No access faults; a thread between two jobs has one region, which
holds the return addresses that its prologues have read; and a return goes to what the
latest prologue of its activation has read. -/
theorem interleaved_returns (h₀ : Initial s₀) {es : List Event}
    (hes : Along step team.Allowed es s₀) :
    ∃ s, runAll step es s₀ = .ok s ∧
      (∀ t r0, s.running t = none → (s.own t).start = some r0 →
        ∃ ss, s.shared.OneRegion t r0 ss ∧
          ∀ f ∈ (s.own t).activations, epilogueLoad s.shared t f.entry = .ok f.read) ∧
      ∀ t, Returning s t → ∃ f, ReturnsTo s t f f.read := by
  obtain ⟨s, hrun, hinv⟩ := Discipline.run_inv h₀.inv hes
  exact ⟨s, hrun, fun t r0 => oneRegion_of_idle hinv, fun t => returnsTo_read hinv⟩

/-- A step that finds the return address untouched keeps the activations returning home. -/
theorem home_kept {op : TeamOp} {v v' : View} (h : ∀ f ∈ v.2.activations, f.read = f.home)
    (hop : Untouched t op v) (hguar : Guarantee t op v v') :
    ∀ f ∈ v'.2.activations, f.read = f.home := by
  have hlogs := hguar.logs
  cases op with
  | instr i note =>
      cases note with
      | plain =>
          have hacts : v'.2.activations = v.2.activations := hlogs
          rwa [hacts]
      | enter =>
          obtain ⟨entry, hacts⟩ : Note.enter.Logs i v v' := hlogs
          rw [hacts]
          exact List.forall_mem_cons.mpr ⟨rfl, h⟩
      | read =>
          obtain ⟨f, fs, w, hacts, hload, hacts'⟩ : Note.read.Logs i v v' := hlogs
          have hhome := hop i rfl f (by simp [hacts])
          rw [hacts, List.forall_mem_cons] at h
          rw [hacts', List.forall_mem_cons]
          exact ⟨Option.some.inj (hload.symm.trans hhome), h.2⟩
      | leave =>
          obtain ⟨f, fs, hacts, hacts', -⟩ : Note.leave.Logs i v v' := hlogs
          rw [hacts, List.forall_mem_cons] at h
          rw [hacts']
          exact h.2
  | runtime env op => rw [hlogs]; exact h
  | started r0 => rw [hlogs]; exact h
  | compute regs rip flags => rw [hlogs]; exact h
  | write a n x => rw [hlogs]; exact h

/-- **Return address integrity under every schedule.** If every prologue finds the return
address of its activation untouched, every return goes to the address behind its call. -/
theorem interleaved_integrity (h₀ : Initial s₀) {es : List Event}
    (hes : Along step (fun e s => team.Allowed e s ∧ Discipline.Taken Untouched e s) es s₀) :
    ∃ s, runAll step es s₀ = .ok s ∧
      ∀ t, Returning s t → ∃ f, ReturnsTo s t f f.home := by
  obtain ⟨s, hrun, hinv, hhome⟩ := Discipline.run_keeps_own h₀.inv
    (J := fun _ l => ∀ f ∈ l.activations, f.read = f.home)
    (fun t op v v' hv hop hguar => home_kept hv hop hguar)
    (fun t f hf => by simp [h₀.activations t] at hf) hes
  refine ⟨s, hrun, fun t ht => ?_⟩
  obtain ⟨f, hto⟩ := returnsTo_read hinv ht
  have hread : f.read = f.home := by
    obtain ⟨fs, s', hacts, -⟩ := hto
    exact hhome t f (by simp [hacts])
  exact ⟨f, hread ▸ hto⟩

/-! ### Direct calls -/

/-- An action that reads no return address: any but the first load of a prologue. -/
def ReadsNothing (op : TeamOp) : Prop := ∀ i, op ≠ .instr i .read

theorem performs_runtime {α : Type} (env : Env) (p : Program α) :
    Performs ReadsNothing (runtime env p) := by
  induction p with
  | ret a => trivial
  | act op k ih => exact ⟨(fun _ h => by cases h), ih⟩

theorem performs_sequence {code : List (Instr × Note)} (h : ∀ i ∈ code, i.2 ≠ .read) :
    Performs ReadsNothing (sequence code) := by
  induction code with
  | nil => trivial
  | cons i code ih =>
      obtain ⟨hi, hcode⟩ := List.forall_mem_cons.mp h
      refine ⟨fun j hj => hi ?_, fun _ => ih hcode⟩
      simp only [TeamOp.instr.injEq] at hj
      exact hj.2

theorem performs_code {j : Job} (hj : j.reads = false) : Performs ReadsNothing j.code := by
  cases j with
  | init r0 rspAlloc fuel env =>
      refine performs_bind (performs_runtime env _) fun done => ?_
      cases done with
      | true => exact ⟨(fun _ h => by cases h), fun _ => trivial⟩
      | false => trivial
  | compute _ _ _ => exact ⟨(fun _ h => by cases h), fun _ => trivial⟩
  | write _ _ _ => exact ⟨(fun _ h => by cases h), fun _ => trivial⟩
  | rerandomize rsp rspAlloc env => exact performs_runtime env _
  | directCall f =>
      refine performs_sequence fun i hi => ?_
      simp only [notedDirectCall, directCall, directCallTail, List.zip_cons_cons, List.zip_nil_left,
        List.mem_cons, List.not_mem_nil, or_false] at hi
      rcases hi with rfl | rfl | rfl | rfl <;> simp
  | ret =>
      refine performs_sequence fun i hi => ?_
      simp only [notedEpilogue, epilogue, List.zip_cons_cons, List.zip_nil_left, List.mem_cons,
        List.not_mem_nil, or_false] at hi
      rcases hi with rfl | rfl | rfl <;> simp
  | call _ => cases hj
  | tailJump _ => cases hj

/-- Where no job reads the call stack, no prologue finds a return address changed. -/
theorem along_untouched (h₀ : Initial s₀) {es : List Event}
    (hjobs : ∀ t j, .start t j ∈ es → j.reads = false) :
    Along step (Discipline.Taken Untouched) es s₀ := by
  have hcode : ∀ t j, .start t j ∈ es → Performs ReadsNothing j.code :=
    fun t j hj => performs_code (hjobs t j hj)
  refine (Discipline.along_performs hcode ?_).mono ?_
  · intro t p hp
    rw [h₀.running t] at hp
    cases hp
  · exact fun e s h t op k he hrun i hop => absurd hop (h t op k he hrun i)

/-- **Rewritten direct calls return home.** Where no thread makes a plain call or a tail
jump, every return goes to the address behind its call, whatever the threads write to the
call stacks of each other, and under every schedule. -/
theorem direct_calls_return_home (h₀ : Initial s₀) {es : List Event}
    (hes : Along step team.Allowed es s₀)
    (hjobs : ∀ t j, .start t j ∈ es → j.reads = false) :
    ∃ s, runAll step es s₀ = .ok s ∧ ∀ t, Returning s t → ∃ f, ReturnsTo s t f f.home :=
  interleaved_integrity h₀ (hes.and (along_untouched h₀ hjobs))

/-! ### Jobs of one thread -/

/-- One instruction of a sequence. -/
theorem exec_instr {i : Instr} {note : Note} {v v' : View}
    (h : TeamOp.exec t (.instr i note) v = .ok ((), v')) :
    ∃ c, i.exec t v.cpu = .ok ((), c) ∧ v' = v.goOn c (note.apply i v.cpu c v.2.activations) := by
  cases hexec : i.exec t v.cpu with
  | error e =>
      simp only [TeamOp.exec, hexec] at h
      cases h
  | ok out =>
      obtain ⟨⟨⟩, c⟩ := out
      simp only [TeamOp.exec, hexec, Except.ok.injEq, Prod.mk.injEq, true_and] at h
      exact ⟨c, rfl, h.symm⟩

/-- Thread `t` takes the next instruction of a sequence, while no other thread moves. The
invariant says that it does not fail. -/
theorem runs_instr {i : Instr} {note : Note} {code : List (Instr × Note)} (h : team.Inv s)
    (hrun : s.running t = some (sequence ((i, note) :: code))) :
    ∃ s', team.Runs [.step t] s s' ∧ team.Inv s' ∧
      s'.running = Function.update s.running t (some (sequence code)) ∧
      i.exec t (s.cpu t) = .ok ((), cpu s' t) ∧ note.Logs i (s.view t) (s'.view t) ∧
      (s'.own t).activations = note.apply i (s.cpu t) (cpu s' t) (s.own t).activations ∧
      (s'.own t).start = (s.own t).start := by
  obtain ⟨⟨⟩, v, hop, -⟩ := h.act hrun
  obtain ⟨s', hruns, h', hguar, hm, ho, hp⟩ := h.runs_act hrun hop
  have hview : s'.view t = v := Prod.ext hm (by rw [Pool.view, ho, Function.update_self])
  have hlogs : note.Logs i (s.view t) v := hguar.logs
  obtain ⟨c, hexec, rfl⟩ := exec_instr hop
  have hcpu : cpu s' t = c := congrArg View.cpu hview
  have hown : s'.own t = (View.goOn (s.view t) c
      (note.apply i (s.cpu t) c (s.own t).activations)).2 := congrArg Prod.snd hview
  refine ⟨s', hruns, h', hp, ?_, ?_, ?_, ?_⟩
  · rw [hcpu]
    exact hexec
  · rw [hview]
    exact hlogs
  · rw [hcpu, hown]
    rfl
  · rw [hown]
    rfl

/-- Thread `t` takes the plain instructions in front of `rest`, by induction on them. Its
activations stay as they are. -/
theorem runs_plain {rest : List (Instr × Note)} (code : List Instr) (h : team.Inv s)
    (hrun : s.running t = some (sequence (plainly code ++ rest))) :
    ∃ s', team.Runs (List.replicate code.length (.step t)) s s' ∧ team.Inv s' ∧
      s'.running = Function.update s.running t (some (sequence rest)) ∧
      runCode t code (s.cpu t) = .ok ((), cpu s' t) ∧
      (s'.own t).activations = (s.own t).activations ∧ (s'.own t).start = (s.own t).start := by
  induction code generalizing s with
  | nil =>
      refine ⟨s, ⟨trivial, rfl⟩, h, ?_, rfl, rfl, rfl⟩
      rw [eq_comm, Function.update_eq_self_iff]
      exact hrun.symm
  | cons i code ih =>
      obtain ⟨s₁, hruns₁, h₁, hp₁, hexec, -, hacts₁, hstart₁⟩ := runs_instr h hrun
      obtain ⟨s₂, hruns₂, h₂, hp₂, hcode, hacts₂, hstart₂⟩ :=
        ih h₁ (by rw [hp₁, Function.update_self]; rfl)
      refine ⟨s₂, hruns₁.append hruns₂, h₂, ?_, ?_, hacts₂.trans hacts₁, hstart₂.trans hstart₁⟩
      · rw [hp₂, hp₁, Function.update_idem]
      · rw [runCode_cons hexec, hcode]

/-- Thread `t` has started to call `g`: the address behind the call is on the call stack,
and the prologue is to come. -/
theorem runs_callq (h : team.Inv s) (ht : s.running t = none) {r0 : Word}
    (hstart : (s.own t).start = some r0) (hsite : CallSite r0 (s.view t)) (g : Word) :
    ∃ s', team.Runs [.start t (.call g), .step t] s s' ∧ team.Inv s' ∧
      OwnedBy s'.shared.mem .other (s.cpu t).pushed 8 ∧
      (s'.own t).activations = ⟨(s.cpu t).pushed, (s.cpu t).next (.call g),
        (s.cpu t).next (.call g)⟩ :: (s.own t).activations ∧
      s'.running = Function.update s.running t (some (sequence notedPrologue)) ∧
      (Instr.call g).exec t (s.cpu t) = .ok ((), cpu s' t) ∧
      load64 s'.shared.mem (s.cpu t).pushed = some ((s.cpu t).next (.call g)) ∧
      (s'.own t).start = some r0 := by
  obtain ⟨slots, hframes⟩ := IdleThread.frames (h.idle t ht) hstart
  obtain ⟨-, -, -, hword, hexec⟩ := hsite.push hframes g ((s.cpu t).next (.call g))
  obtain ⟨s₁, hruns₁, h₁, hm₁, ho₁, hp₁⟩ := h.runs_start (l := Job.call g) ht ⟨r0, hstart, hsite⟩
  have hview : s₁.view t = s.view t := Prod.ext hm₁ (congrFun ho₁ t)
  have hcpu : cpu s₁ t = s.cpu t := congrArg View.cpu hview
  have hrun₁ : s₁.running t = some (sequence ((.call g, .enter) :: notedPrologue)) := by
    rw [hp₁, Function.update_self]
    rfl
  obtain ⟨s₂, hruns₂, h₂, hp₂, hexec₂, -, hacts₂, hstart₂⟩ := runs_instr h₁ hrun₁
  rw [hcpu] at hexec₂ hacts₂
  have hdone := (Prod.mk.inj (Except.ok.inj (hexec.symm.trans hexec₂))).2
  have hshared : s₂.shared = (cpu s₂ t).machine := rfl
  refine ⟨s₂, hruns₁.append hruns₂, h₂, ?_, ?_, ?_, hexec₂, ?_, ?_⟩
  · rw [hshared, ← hdone]
    exact hword
  · rw [hacts₂, ho₁, ← hdone]
    rfl
  · rw [hp₂, hp₁, Function.update_idem]
  · rw [hshared, ← hdone]
    exact load64_storeN_self hsite.word.mapped
  · rw [hstart₂, ho₁, hstart]

/-- Thread `u` writes `w` to a word of the program. -/
theorem runs_write {u : Tid} {a : Word} (h : team.Inv s) (hu : s.running u = none)
    (hword : OwnedBy s.shared.mem .other a 8) (w : Word) :
    ∃ s', team.Runs [.start u (.write a 8 w.toNat), .step u] s s' ∧ team.Inv s' ∧
      s'.shared = s.shared.withMem (storeN s.shared.mem a 8 w.toNat) ∧
      load64 s'.shared.mem a = some w ∧ s'.own = s.own ∧
      ∀ t, t ≠ u → s'.running t = s.running t := by
  obtain ⟨s₁, hruns₁, h₁, hm₁, ho₁, hp₁⟩ :=
    h.runs_start (l := Job.write a 8 w.toNat) hu ⟨by decide, hword⟩
  have hrun : s₁.running u = some (.act (.write a 8 w.toNat) .ret) := by
    rw [hp₁, Function.update_self]
    rfl
  obtain ⟨s₂, hruns₂, h₂, -, hm₂, ho₂, hp₂⟩ := h₁.runs_act hrun rfl
  have hshared : s₂.shared = s.shared.withMem (storeN s.shared.mem a 8 w.toNat) := by
    rw [hm₂, Pool.view, hm₁]
  refine ⟨s₂, hruns₁.append hruns₂, h₂, hshared, ?_, ?_, fun t ht => ?_⟩
  · rw [hshared]
    exact load64_storeN_self hword.mapped
  · rw [ho₂, Pool.view, Function.update_eq_self, ho₁]
  · rw [hp₂, hp₁, Function.update_of_ne ht, Function.update_of_ne ht]

/-- The prologue of `t`, undisturbed: the activation has read the word at its entry. -/
theorem runs_prologue {f : Activation} {fs : List Activation} {w : Word} (h : team.Inv s)
    (hrun : s.running t = some (sequence notedPrologue))
    (hacts : (s.own t).activations = f :: fs) (hload : load64 s.shared.mem f.entry = some w) :
    ∃ s', team.Runs [.step t, .step t, .step t, .step t] s s' ∧ team.Inv s' ∧
      s'.running = Function.update s.running t none ∧
      (s'.own t).activations = { f with read := w } :: fs ∧
      runCode t prologue (s.cpu t) = .ok ((), cpu s' t) ∧ (s'.own t).start = (s.own t).start := by
  have hrun : s.running t = some (sequence ((.movLoad ⟨false, 0, .rsp, none⟩ .r11, .read) ::
      (plainly [.movImm shadowIndex .r10, .movStore .r11 (shadowOperand 0)] ++ []))) := hrun
  obtain ⟨s₁, hruns₁, h₁, hp₁, hexec₁, hlogs₁, -, hstart₁⟩ := runs_instr h hrun
  obtain ⟨f', fs', w', hacts', hload', hread⟩ :
      Note.read.Logs (.movLoad ⟨false, 0, .rsp, none⟩ .r11) (s.view t) (s₁.view t) := hlogs₁
  obtain ⟨rfl, rfl⟩ := List.cons.inj (hacts.symm.trans hacts')
  obtain rfl := Option.some.inj (hload.symm.trans hload')
  obtain ⟨s₂, hruns₂, h₂, hp₂, hcode₂, hacts₂, hstart₂⟩ :=
    runs_plain _ h₁ (by rw [hp₁, Function.update_self])
  obtain ⟨s₃, hruns₃, h₃, hm₃, ho₃, hp₃⟩ :=
    h₂.runs_ret (by rw [hp₂, Function.update_self]; rfl)
  have hview : s₃.view t = s₂.view t := Prod.ext hm₃ (congrFun ho₃ t)
  have hcpu : cpu s₃ t = cpu s₂ t := congrArg View.cpu hview
  refine ⟨s₃, hruns₁.append (hruns₂.append hruns₃), h₃, ?_, ?_, ?_, ?_⟩
  · rw [hp₃, hp₂, hp₁, Function.update_idem, Function.update_idem]
  · rw [ho₃, hacts₂]
    exact hread
  · rw [prologue, runCode_cons hexec₁, hcode₂, hcpu]
  · rw [ho₃, hstart₂, hstart₁]

/-- Thread `t` calls `g`, undisturbed: five steps, behind which its activation has read its own
return address. -/
theorem runs_call (h : team.Inv s) (ht : s.running t = none) {r0 : Word}
    (hstart : (s.own t).start = some r0) (hsite : CallSite r0 (s.view t)) (g : Word) :
    ∃ s', team.Runs (.start t (.call g) :: List.replicate 5 (.step t)) s s' ∧ team.Inv s' ∧
      s'.running = s.running ∧
      (s'.own t).activations = ⟨(s.cpu t).pushed, (s.cpu t).next (.call g),
        (s.cpu t).next (.call g)⟩ :: (s.own t).activations ∧
      runCode t (.call g :: prologue) (s.cpu t) = .ok ((), cpu s' t) ∧
      (s'.own t).start = some r0 := by
  obtain ⟨s₁, hruns₁, h₁, -, hacts₁, hp₁, hexec₁, hload, hstart₁⟩ :=
    runs_callq h ht hstart hsite g
  obtain ⟨s₂, hruns₂, h₂, hp₂, hacts₂, hcode₂, hstart₂⟩ :=
    runs_prologue h₁ (by rw [hp₁, Function.update_self]) hacts₁ hload
  refine ⟨s₂, hruns₁.append hruns₂, h₂, ?_, hacts₂, ?_, hstart₂.trans hstart₁⟩
  · rw [hp₂, hp₁, Function.update_idem, Function.update_eq_self_iff, ht]
  · exact (runCode_cons hexec₁).trans hcode₂

/-- Thread `t` makes a rewritten direct call, undisturbed. The activation has its return address
without a look at the call stack. -/
theorem runs_directCall (h : team.Inv s) (ht : s.running t = none) {r0 : Word}
    (hstart : (s.own t).start = some r0) (hsite : CallSite r0 (s.view t)) {f : Word} {c : Cpu}
    (hcode : runCode t (directCall f) (s.cpu t) = .ok ((), c)) :
    ∃ s' ret, team.Runs (.start t (.directCall f) :: List.replicate 5 (.step t)) s s' ∧
      team.Inv s' ∧ s'.running = s.running ∧
      (s'.own t).activations = ⟨c.rsp, ret, ret⟩ :: (s.own t).activations ∧ cpu s' t = c ∧
      (s'.own t).start = some r0 := by
  obtain ⟨s₁, hruns₁, h₁, hm₁, ho₁, hp₁⟩ :=
    h.runs_start (l := Job.directCall f) ht ⟨r0, hstart, hsite⟩
  have hview₁ : s₁.view t = s.view t := Prod.ext hm₁ (congrFun ho₁ t)
  have hcpu₁ : cpu s₁ t = s.cpu t := congrArg View.cpu hview₁
  let front : List Instr := [.leaRip (BitVec.ofNat 64 (codeLength (directCallTail f))) .r11,
    .movImm shadowIndex .r10, .movStore .r11 (shadowOperand (-8))]
  let last : Instr := .call (f + BitVec.ofNat 64 spaLengthOfProtectedPrologue)
  have hrun₁ : s₁.running t = some (sequence (plainly front ++ [(last, .enter)])) := by
    rw [hp₁, Function.update_self]
    rfl
  obtain ⟨s₂, hruns₂, h₂, hp₂, hcode₂, hacts₂, hstart₂⟩ := runs_plain front h₁ hrun₁
  obtain ⟨s₃, hruns₃, h₃, hp₃, hexec₃, -, hacts₃, hstart₃⟩ :=
    runs_instr h₂ (by rw [hp₂, Function.update_self])
  obtain ⟨s₄, hruns₄, h₄, hm₄, ho₄, hp₄⟩ :=
    h₃.runs_ret (by rw [hp₃, Function.update_self]; rfl)
  have hview₄ : s₄.view t = s₃.view t := Prod.ext hm₄ (congrFun ho₄ t)
  have hcpu₄ : cpu s₄ t = cpu s₃ t := congrArg View.cpu hview₄
  have hdone : cpu s₃ t = c := by
    rw [hcpu₁] at hcode₂
    have hsplit : directCall f = front ++ [last] := rfl
    rw [hsplit, runCode_append hcode₂, runCode_cons hexec₃] at hcode
    exact (Prod.mk.inj (Except.ok.inj hcode)).2
  refine ⟨s₄, (cpu s₂ t).next last, hruns₁.append (hruns₂.append (hruns₃.append hruns₄)), h₄, ?_,
    ?_, hcpu₄.trans hdone, ?_⟩
  · rw [hp₄, hp₃, hp₂, hp₁, Function.update_idem, Function.update_idem, Function.update_idem,
      Function.update_eq_self_iff, ht]
  · rw [ho₄, hacts₃, hacts₂, ho₁, hdone]
    rfl
  · rw [ho₄, hstart₃, hstart₂, ho₁, hstart]

/-- The body of `t` gives the stack pointer back, and the function returns. -/
theorem runs_return {f : Activation} {fs : List Activation} (h : team.Inv s)
    (ht : s.running t = none) (hacts : (s.own t).activations = f :: fs) (regs : Reg → Word)
    (rip : Word) (flags : Flags) :
    ∃ s', team.Runs [.start t (.compute (Function.update regs .rsp f.entry) rip flags), .step t,
        .step t, .start t .ret, .step t, .step t] s s' ∧
      Returning s' t ∧ ReturnsTo s' t f f.read := by
  obtain ⟨s₁, hruns₁, h₁, -, ho₁, hp₁⟩ := h.runs_start
    (l := Job.compute (Function.update regs .rsp f.entry) rip flags) ht trivial
  obtain ⟨s₂, hruns₂, h₂, -, -, ho₂, hp₂⟩ := h₁.runs_act
    (by rw [hp₁, Function.update_self]; rfl) rfl
  obtain ⟨s₃, hruns₃, h₃, -, ho₃, hp₃⟩ := h₂.runs_ret (by rw [hp₂, Function.update_self])
  have hacts₃ : (s₃.own t).activations = f :: fs := by
    rw [ho₃, ho₂, Function.update_self, ← hacts, ← ho₁]
    rfl
  have hrsp₃ : (cpu s₃ t).rsp = f.entry := by
    simp only [cpu, Pool.view, ho₃, ho₂, Function.update_self, View.cpu, Cpu.rsp]
  have hmay : Job.May t .ret (s₃.view t) := ⟨f, by simp [Pool.view, hacts₃], hrsp₃⟩
  obtain ⟨s₄, hruns₄, h₄, -, ho₄, hp₄⟩ := h₃.runs_start (l := Job.ret)
    (by rw [hp₃, Function.update_self]) hmay
  have hrun₄ : s₄.running t = some (sequence (plainly [.movImm shadowIndex .r10,
      .addImm (BitVec.ofNat 64 spaCpuWordLength) .rsp] ++
        [(.jmpMem (shadowOperand (-8)), .leave)])) := by
    rw [hp₄, Function.update_self]
    rfl
  obtain ⟨s₅, hruns₅, h₅, hp₅, -, hacts₅, -⟩ := runs_plain _ h₄ hrun₄
  have hreturning : Returning s₅ t := ⟨_, _, by rw [hp₅, Function.update_self]; rfl⟩
  obtain ⟨f', hto⟩ := returnsTo_read h₅ hreturning
  have hf : f' = f := by
    obtain ⟨fs', s₆, hacts₆, -⟩ := hto
    rw [hacts₅, ho₄, hacts₃] at hacts₆
    exact (List.cons.inj hacts₆).1.symm
  subst hf
  exact ⟨s₅, hruns₁.append (hruns₂.append (hruns₃.append (hruns₄.append hruns₅))), hreturning,
    hto⟩

/-- A runtime function, undisturbed, does on its thread what it does on the machine. -/
theorem run_runtime {α : Type} (env : Env) (p : Program α) (v : View) :
    run (TeamOp.exec t) (runtime env p) v =
      match run (Runtime.exec t env) p v.1 with
      | .error e => .error e
      | .ok (a, m) => .ok (a, (m, v.2)) := by
  induction p generalizing v with
  | ret a => rfl
  | act op k ih =>
      cases hop : Runtime.exec t env op v.1 with
      | error e =>
          have hop' : TeamOp.exec t (.runtime env op) v = .error e := by
            simp only [TeamOp.exec, hop]
          rw [runtime, run_act_error hop', run_act_error hop]
      | ok out =>
          have hop' : TeamOp.exec t (.runtime env op) v = .ok (out.1, (out.2, v.2)) := by
            simp only [TeamOp.exec, hop]
          rw [runtime, run_act_ok hop', run_act_ok hop]
          exact ih out.1 (out.2, v.2)

/-! ### The window of a plain call -/

/-- Thread `t` calls `g`. Before the prologue has loaded the return address, thread `u`
writes `w` over it. Then `t` goes on undisturbed, and returns. -/
def plantedCall (t u : Tid) (g w : Word) (s : Process) : List Event :=
  [.start t (.call g), .step t] ++ ([.start u (.write (s.cpu t).pushed 8 w.toNat), .step u] ++
    ([.step t, .step t, .step t, .step t] ++
      [.start t (.compute (Function.update (s.own t).regs .rsp (s.cpu t).pushed) g
        (s.own t).flags), .step t, .step t, .start t .ret, .step t, .step t]))

/-- **The window of a plain call.** In every state in which `t` may call and `u` is idle,
that schedule is allowed, and the call returns to the word that `u` has written. -/
theorem planted_by_another_thread (h : team.Inv s) {u : Tid} (hut : u ≠ t)
    (ht : s.running t = none) (hu : s.running u = none) {r0 : Word}
    (hstart : (s.own t).start = some r0) (hsite : CallSite r0 (s.view t)) (g w : Word) :
    ∃ s' f, team.Runs (plantedCall t u g w s) s s' ∧ Returning s' t ∧
      f.home = (s.cpu t).next (.call g) ∧ ReturnsTo s' t f w := by
  obtain ⟨s₁, hruns₁, h₁, hword, hacts₁, hp₁, -⟩ := runs_callq h ht hstart hsite g
  obtain ⟨s₂, hruns₂, h₂, -, hload, ho₂, hp₂⟩ :=
    runs_write h₁ (u := u) (by rw [hp₁, Function.update_of_ne hut, hu]) hword w
  obtain ⟨s₃, hruns₃, h₃, hp₃, hacts₃, -⟩ := runs_prologue h₂
    (by rw [hp₂ t hut.symm, hp₁, Function.update_self]) (by rw [ho₂]; exact hacts₁) hload
  have hidle : s₃.running t = none := by rw [hp₃, Function.update_self]
  obtain ⟨s₄, hruns₄, hreturning, hto⟩ :=
    runs_return h₃ hidle hacts₃ (s.own t).regs g (s.own t).flags
  exact ⟨s₄, _, hruns₁.append (hruns₂.append (hruns₃.append hruns₄)), hreturning, rfl, hto⟩

/-! ### Two threads -/

/-- Thread 0 is about to call, and thread 1 has not been initialised. -/
def twoThreads : Process where
  shared := Execution.beforeCall.cpu.machine
  own t :=
    { regs := Execution.beforeCall.cpu.regs
      rip := Execution.beforeCall.cpu.rip
      flags := Execution.beforeCall.cpu.flags
      start := if t = 0 then some 0x7FFFFFFFE000 else none
      activations := [] }
  running _ := none

theorem noShadow_beforeCall {t : Tid} (ht : t ≠ 0) :
    NoShadow Execution.beforeCall.cpu.machine t := by
  intro x hx
  by_cases hin : InRange 0x7FFFFFFFB000 4096 x
  · have hown : ownerOf Execution.beforeCall.cpu.machine.mem x = some .other := by
      simp only [Execution.beforeCall, Machine.withMem_mem, ownerOf, mapZero_inside hin,
        Option.map_some]
    rw [hown] at hx
    cases hx
  · have hmem : ownerOf Execution.beforeCall.cpu.machine.mem x =
        ownerOf (Machine.started 0 0x7FFFFFFFE000 0x10000000).mem x := by
      simp only [Execution.beforeCall, Machine.withMem_mem, ownerOf, mapZero_outside hin]
    rw [hmem] at hx
    simp only [Machine.started, ownerOf_storeN] at hx
    by_cases hss : InRange 0x10000000 realShadowStackSize x
    · simp only [ownerOf, mapZero_inside hss, Option.map_some, Option.some.injEq,
        Owner.shadow.injEq] at hx
      exact ht hx.symm
    · simp only [ownerOf, mapZero_outside hss, Option.map_none] at hx
      cases hx

theorem twoThreads_initial : Initial twoThreads where
  running _ := rfl
  idle t := by
    by_cases ht : t = 0
    · subst ht
      obtain ⟨ss, slots, hthread⟩ := Execution.beforeCall_initial.1
      exact ⟨slots, ⟨ss, hthread⟩, by simp [twoThreads, Pool.view], by simp [twoThreads, Pool.view],
        by simp [twoThreads, Pool.view]⟩
    · have hstart : (twoThreads.view t).2.start = none := if_neg ht
      rw [IdleThread, hstart]
      exact ⟨rfl, noShadow_beforeCall ht⟩
  activations _ := rfl

theorem twoThreads_callSite : CallSite 0x7FFFFFFFE000 (twoThreads.view 0) := by
  obtain ⟨hslot, hword, -⟩ := Execution.beforeCall_call 0x402000
  exact ⟨hslot, hword, by simp [twoThreads, Pool.view]⟩

/-- The region of thread 0 is at `0x10000000`, with the metadata of its initialisation, and
there is room for it at `0x20000000`. -/
structure Movable (m : Machine) : Prop where
  coherent : ∃ content, Coherent m 0 0x7FFFFFFFE000 0x10000000
    (initialMetadata 0x10000000 (initDiff 0x10000000 0x7FFFFFFFE000)) content
  free : Free m.mem 0x20000000 realShadowStackSize

theorem Movable.store_other {m : Machine} {a w : Word} (h : Movable m)
    (hword : OwnedBy m.mem .other a 8) : Movable (m.withMem (storeN m.mem a 8 w.toNat)) where
  coherent := by
    obtain ⟨content, hm⟩ := h.coherent
    exact ⟨content, hm.of_undisturbed (foreign_store (by decide) hword 0).undisturbed⟩
  free := free_storeN.mpr h.free

theorem Movable.store_slot {m : Machine} {rsp w : Word} (h : Movable m)
    (hslot : HasSlot 0x7FFFFFFFE000 rsp) :
    Mapped m.mem (slotAddr (m.threads 0).gs rsp) 8 ∧
      Movable (m.withMem (storeN m.mem (slotAddr (m.threads 0).gs rsp) 8 w.toNat)) := by
  obtain ⟨content, hm⟩ := h.coherent
  obtain ⟨md, hstack, -⟩ := System.threadAt_of_coherent hm (by decide)
  have hown := hstack.slot_owned hslot
  obtain ⟨content', hm'⟩ :=
    hm.prologue (hslot.isSlotOffset (by decide)) (Machine.store_owned hown)
  exact ⟨hown.mapped, ⟨content', hm'⟩, free_storeN.mpr h.free⟩

theorem Movable.call {c d : Cpu} {g : Word} (h : Movable c.machine)
    (hslot : HasSlot 0x7FFFFFFFE000 c.pushed) (hword : OwnedBy c.machine.mem .other c.pushed 8)
    (hcode : runCode 0 (.call g :: prologue) c = .ok ((), d)) : Movable d.machine := by
  have hpushed := h.store_other hword (w := c.next (.call g))
  obtain ⟨hmapped, hstored⟩ := hpushed.store_slot hslot (w := c.next (.call g))
  have hload := load64_storeN_self (v := c.next (.call g)) hword.mapped
  rw [runCode_cons (exec_call g hword.mapped), run_prologue hload hmapped] at hcode
  obtain rfl := (Prod.mk.inj (Except.ok.inj hcode)).2
  exact hstored

theorem Movable.directCall {c : Cpu} (h : Movable c.machine)
    (hslot : HasSlot 0x7FFFFFFFE000 c.pushed) (hword : OwnedBy c.machine.mem .other c.pushed 8)
    (f : Word) :
    ∃ d, runCode 0 (directCall f) c = .ok ((), d) ∧ d.rsp = c.pushed ∧ Movable d.machine := by
  obtain ⟨hmapped, hstored⟩ := h.store_slot hslot (w := c.behind f)
  exact ⟨_, run_directCall hmapped hword.mapped, rfl,
    hstored.store_other (ownedBy_storeN.mpr hword)⟩

/-- A re-randomization takes the region there. -/
theorem Movable.moves {m m' : Machine} (h : Movable m)
    (hrun : run (Runtime.exec 0 (System.willing 0x20000000))
      (gsRspRuntimeRerandomize 0x7FFFFFFFB000 0x7FFFFFFFA000) m = .ok ((), m')) :
    (∃ md content, Coherent m' 0 0x7FFFFFFFE000 0x20000000 md content) ∧
      OthersKept 0 m.mem m'.mem := by
  obtain ⟨content, hm⟩ := h.coherent
  have hbelow : BelowStart 0x7FFFFFFFE000 0x7FFFFFFFB000 := by decide
  obtain ⟨m₁, md, hrun₁, hm₁, hothers, -⟩ :=
    run_moves_done hm hbelow (System.moveTarget_sample h.free) rfl
  obtain rfl := (Prod.mk.inj (Except.ok.inj (hrun.symm.trans hrun₁))).2
  exact ⟨⟨md, content, hm₁⟩, hothers⟩

theorem twoThreads_movable : Movable twoThreads.shared where
  coherent := ⟨_, Execution.beforeCall_coherent⟩
  free := by
    have hsize : realShadowStackSize = 10485760 := by decide
    rw [free_iff realShadowStackSize_le]
    intro x hx
    have hpage : ¬ InRange 0x7FFFFFFFB000 4096 x := by
      rw [hsize] at hx
      unfold InRange at *
      bv_omega
    have hmem : twoThreads.shared.mem x =
        (Machine.started 0 0x7FFFFFFFE000 0x10000000).mem x := mapZero_outside hpage
    rw [hmem]
    exact (free_iff realShadowStackSize_le).mp
      (started_free realShadowStackSize_le System.apart_sample) x hx

/-- Thread 0 has made a call, which returns to `ret`, and no thread is inside a job. The region of
thread 0 can still move. -/
structure Called (s : Process) (ret : Word) : Prop where
  inv : team.Inv s
  running : ∀ t, s.running t = none
  start : (s.own 0).start = some 0x7FFFFFFFE000
  activations : (s.own 0).activations = [⟨0x7FFFFFFFB800, ret, ret⟩]
  movable : Movable s.shared

/-- Thread 0 starts `j`, and finishes it undisturbed. -/
def calling (j : Job) : List Event := .start 0 j :: List.replicate 5 (.step 0)

theorem called_call (g : Word) :
    ∃ s, team.Runs (calling (.call g)) twoThreads s ∧ Called s 0x401005 := by
  have hsite := twoThreads_callSite
  obtain ⟨s, hruns, h, hp, hacts, hcode, hstart⟩ :=
    runs_call twoThreads_initial.inv rfl rfl hsite g
  exact ⟨s, hruns, h, fun t => congrFun hp t, hstart, hacts,
    Movable.call twoThreads_movable hsite.slot hsite.word hcode⟩

theorem called_directCall (f : Word) :
    ∃ s ret, team.Runs (calling (.directCall f)) twoThreads s ∧ Called s ret := by
  have hsite := twoThreads_callSite
  obtain ⟨c, hcode, hrsp, hmovable⟩ :=
    Movable.directCall twoThreads_movable hsite.slot hsite.word f
  obtain ⟨s, ret, hruns, h, hp, hacts, hcpu, hstart⟩ :=
    runs_directCall twoThreads_initial.inv rfl rfl hsite hcode
  rw [hrsp] at hacts
  refine ⟨s, ret, hruns, h, fun t => congrFun hp t, hstart, hacts, ?_⟩
  have hshared : s.shared = (cpu s 0).machine := rfl
  rw [hshared, hcpu]
  exact hmovable

/-- While thread 0 moves its shadow stack, thread 1 writes over the return address on the
call stack of thread 0. -/
def movedAndOverwritten (n : Nat) : List Event :=
  .start 0 (.rerandomize 0x7FFFFFFFB000 0x7FFFFFFFA000 (System.willing 0x20000000)) ::
    ([.start 1 (.write 0x7FFFFFFFB800 8 (0x666000 : Word).toNat), .step 1] ++
      List.replicate n (.step 0))

/-- The body gives the stack pointer back, and the function returns. -/
def leaving : List Event :=
  [.start 0 (.compute (Function.update (fun _ => 0) .rsp 0x7FFFFFFFB800) 0x402000
    ⟨false, false, false, false, false, false⟩), .step 0, .step 0, .start 0 .ret, .step 0, .step 0]

/-- The region has moved, the return address on the call stack is overwritten, and the call
returns all the same. -/
theorem Called.runs {ret : Word} (h : Called s ret) :
    ∃ n s₁ s₂, team.Runs (movedAndOverwritten n) s s₁ ∧ s₁.running 0 = none ∧
      (s₁.own 0).start = some 0x7FFFFFFFE000 ∧
      (s₁.own 0).activations = [⟨0x7FFFFFFFB800, ret, ret⟩] ∧
      s₁.shared.OneRegion 0 0x7FFFFFFFE000 0x20000000 ∧
      load64 s₁.shared.mem 0x7FFFFFFFB800 = some 0x666000 ∧
      team.Runs leaving s₁ s₂ ∧ Returning s₂ 0 ∧
      ReturnsTo s₂ 0 ⟨0x7FFFFFFFB800, ret, ret⟩ ret := by
  have hmay : (Job.rerandomize 0x7FFFFFFFB000 0x7FFFFFFFA000 (System.willing 0x20000000)).May 0
      (s.view 0) := ⟨⟨_, h.start, by decide⟩, rfl⟩
  obtain ⟨a, hruns₁, h₁, hm₁, ho₁, hp₁⟩ := h.inv.runs_start
    (l := Job.rerandomize 0x7FFFFFFFB000 0x7FFFFFFFA000 (System.willing 0x20000000))
    (h.running 0) hmay
  obtain ⟨slots, hframes⟩ := IdleThread.frames (h.inv.idle 0 (h.running 0)) h.start
  have hword : OwnedBy a.shared.mem .other 0x7FFFFFFFB800 8 := by
    rw [hm₁]
    exact hframes.words ⟨0x7FFFFFFFB800, ret, ret⟩ (by simp [Pool.view, h.activations])
  obtain ⟨b, hruns₂, h₂, hm₂, hload₂, ho₂, hp₂⟩ := runs_write h₁ (u := 1)
    (by rw [hp₁, Function.update_of_ne (by decide), h.running 1]) hword 0x666000
  have hrunning : b.running 0 = some (Job.rerandomize 0x7FFFFFFFB000 0x7FFFFFFFA000
      (System.willing 0x20000000)).code := by
    rw [hp₂ 0 (by decide), hp₁, Function.update_self]
  obtain ⟨n, s₁, hruns₃, h₃, hrun₃, -, hp₃⟩ := h₂.runs_program hrunning
  have hmovable : Movable b.shared := by
    rw [hm₂, hm₁]
    rw [hm₁] at hword
    exact h.movable.store_other hword
  rw [Job.code, run_runtime] at hrun₃
  cases hrun : run (Runtime.exec 0 (System.willing 0x20000000))
      (gsRspRuntimeRerandomize 0x7FFFFFFFB000 0x7FFFFFFFA000) (b.view 0).1 with
  | error e =>
      rw [hrun] at hrun₃
      cases hrun₃
  | ok out =>
      rw [hrun] at hrun₃
      have hview := (Prod.mk.inj (Except.ok.inj hrun₃)).2
      have hshared : out.2 = s₁.shared := congrArg Prod.fst hview
      have hown : b.own 0 = s₁.own 0 := congrArg Prod.snd hview
      obtain ⟨⟨md, content, hcoherent⟩, hothers⟩ := hmovable.moves hrun
      rw [hshared] at hcoherent hothers
      have hown₀ : s₁.own 0 = s.own 0 := by rw [← hown, ho₂, ho₁]
      have hacts : (s₁.own 0).activations = [⟨0x7FFFFFFFB800, ret, ret⟩] := by
        rw [hown₀, h.activations]
      have hidle : s₁.running 0 = none := by rw [hp₃, Function.update_self]
      obtain ⟨s₂, hruns₄, hreturning, hto⟩ := runs_return h₃ hidle hacts (fun _ => 0) 0x402000
        ⟨false, false, false, false, false, false⟩
      refine ⟨n, s₁, s₂, hruns₁.append (hruns₂.append hruns₃), hidle, hown₀ ▸ h.start, hacts,
        hcoherent.oneRegion, ?_, hruns₄, hreturning, hto⟩
      have hother : OwnedBy b.shared.mem .other 0x7FFFFFFFB800 8 := by
        rw [hm₂]
        exact ownedBy_storeN.mpr hword
      rw [hothers.load64_other hother, hload₂]

/-- No job of this schedule reads the call stack, apart from the first. -/
theorem reads_nothing {n : Nat} {t : Tid} {j : Job}
    (h : .start t j ∈ movedAndOverwritten n ++ leaving) : j.reads = false := by
  simp only [movedAndOverwritten, leaving, List.cons_append, List.nil_append, List.mem_cons,
    List.mem_append, List.mem_replicate, Lib.Interleaving.Event.start.injEq,
    reduceCtorEq, and_false, false_or, List.not_mem_nil, or_false] at h
  rcases h with ⟨-, rfl⟩ | ⟨-, rfl⟩ | ⟨-, rfl⟩ | ⟨-, rfl⟩
  · rfl
  · rfl
  · rfl
  · rfl

/-- A plain call whose prologue runs before anybody else writes finds its return address. -/
theorem along_untouched_call (h : team.Inv s) (ht : s.running t = none) {r0 : Word}
    (hstart : (s.own t).start = some r0) (hsite : CallSite r0 (s.view t)) (g : Word)
    (hothers : ∀ u, u ≠ t → s.running u = none) (es : List Event)
    (hjobs : ∀ t j, .start t j ∈ es → j.reads = false) :
    Along step (Discipline.Taken Untouched) (.start t (.call g) :: .step t :: .step t :: es) s := by
  obtain ⟨s₁, hruns₁, h₁, -, hacts₁, hp₁, -, hload, -⟩ := runs_callq h ht hstart hsite g
  have hrun₁ : s₁.running t = some (sequence ((.movLoad ⟨false, 0, .rsp, none⟩ .r11, .read) ::
      (plainly [.movImm shadowIndex .r10, .movStore .r11 (shadowOperand 0)] ++ []))) := by
    rw [hp₁, Function.update_self]
    rfl
  obtain ⟨s₂, hruns₂, h₂, hp₂, -⟩ := runs_instr h₁ hrun₁
  -- the `callq` reads nothing
  have hcallq : Along step (Discipline.Taken Untouched) [.start t (.call g), .step t] s := by
    refine ⟨fun u op k he => (by cases he), fun s' hs' => ⟨?_, fun _ _ => trivial⟩⟩
    intro u op k he hrun i hop
    cases he
    obtain rfl := Except.ok.inj hs'
    subst hop
    have hcode := Option.some.inj ((Function.update_self t _ s.running).symm.trans hrun)
    cases hcode
  have hread : Along step (Discipline.Taken Untouched) [.step t] s₁ := by
    refine ⟨fun u op k he _ i _ f hf => ?_, fun _ _ => trivial⟩
    cases he
    have hhead : f ∈ (s₁.own t).activations.head? := hf
    rw [hacts₁] at hhead
    obtain rfl := Option.some.inj hhead
    exact hload
  have hrest : Along step (Discipline.Taken Untouched) es s₂ := by
    refine (Discipline.along_performs (fun t j hj => performs_code (hjobs t j hj)) ?_).mono
      fun e s h t op k he hrun i hop => absurd hop (h t op k he hrun i)
    intro u p hp
    by_cases hut : u = t
    · subst hut
      rw [hp₂, Function.update_self] at hp
      obtain rfl := Option.some.inj hp
      exact performs_sequence fun i hi => by
        simp only [plainly, List.append_nil, List.map_cons, List.map_nil, List.mem_cons,
          List.not_mem_nil, or_false] at hi
        rcases hi with rfl | rfl <;> simp
    · rw [hp₂, Function.update_of_ne hut, hp₁, Function.update_of_ne hut, hothers u hut] at hp
      cases hp
  exact hcallq.append hruns₁.2 (hread.append hruns₂.2 hrest)

/-- Thread 0 calls and returns; in between its shadow stack moves, and thread 1 writes over the
return address on its call stack. -/
theorem twoThreads_returns :
    ∃ n s₁ s₂ f, runAll step (calling (.call 0x402000) ++ movedAndOverwritten n) twoThreads =
        .ok s₁ ∧
      load64 s₁.shared.mem 0x7FFFFFFFB800 = some 0x666000 ∧
      s₁.shared.OneRegion 0 0x7FFFFFFFE000 0x20000000 ∧
      epilogueLoad s₁.shared 0 0x7FFFFFFFB800 = .ok 0x401005 ∧
      runAll step ((calling (.call 0x402000) ++ movedAndOverwritten n) ++ leaving) twoThreads =
        .ok s₂ ∧
      Returning s₂ 0 ∧ ReturnsTo s₂ 0 f f.read := by
  obtain ⟨s, hcall, h⟩ := called_call 0x402000
  obtain ⟨n, s₁, s₂, hmove, hidle, hstart, hacts, hregion, hload, hleave, hreturning, -⟩ := h.runs
  have hfirst := hcall.append hmove
  have hboth := hfirst.append hleave
  obtain ⟨s₁', hrun₁, hregions, -⟩ := interleaved_returns twoThreads_initial hfirst.1
  obtain rfl := Except.ok.inj (hfirst.2.symm.trans hrun₁)
  obtain ⟨ss, -, hloads⟩ := hregions 0 _ hidle hstart
  obtain ⟨s₂', hrun₂, -, hreturns⟩ := interleaved_returns twoThreads_initial hboth.1
  obtain rfl := Except.ok.inj (hboth.2.symm.trans hrun₂)
  obtain ⟨f, hto⟩ := hreturns 0 hreturning
  exact ⟨n, s₁, s₂, f, hrun₁, hload, hregion, hloads ⟨0x7FFFFFFFB800, 0x401005, 0x401005⟩
    (by simp [hacts]), hrun₂, hreturning, hto⟩

/-- The same schedule: the prologue has found its return address untouched, and the call returns
behind itself. -/
theorem twoThreads_integrity :
    ∃ n s f, runAll step (calling (.call 0x402000) ++ (movedAndOverwritten n ++ leaving))
        twoThreads = .ok s ∧
      Returning s 0 ∧ f.home = 0x401005 ∧ ReturnsTo s 0 f f.home := by
  obtain ⟨s, hcall, h⟩ := called_call 0x402000
  obtain ⟨n, s₁, s₂, hmove, -, -, -, -, -, hleave, hreturning, fs, s₃, hacts, -⟩ := h.runs
  have hruns := hcall.append (hmove.append hleave)
  have huntouched : Along step (Discipline.Taken Untouched)
      (calling (.call 0x402000) ++ (movedAndOverwritten n ++ leaving)) twoThreads := by
    refine along_untouched_call twoThreads_initial.inv rfl rfl twoThreads_callSite 0x402000
      (fun _ _ => rfl) (List.replicate 3 (.step 0) ++ (movedAndOverwritten n ++ leaving))
      fun t j hj => ?_
    rcases List.mem_append.mp hj with hstep | hrest
    · cases (List.mem_replicate.mp hstep).2
    · exact reads_nothing hrest
  obtain ⟨s₂', hrun, hreturns⟩ :=
    interleaved_integrity twoThreads_initial (hruns.1.and huntouched)
  obtain rfl := Except.ok.inj (hruns.2.symm.trans hrun)
  obtain ⟨f, fs', s₃', hacts', hto⟩ := hreturns 0 hreturning
  obtain ⟨rfl, rfl⟩ := List.cons.inj (hacts.symm.trans hacts')
  exact ⟨n, s₂, _, hrun, hreturning, rfl, fs, s₃', hacts', hto⟩

/-- The same with a rewritten direct call. -/
theorem twoThreads_direct :
    ∃ n s f, runAll step (calling (.directCall 0x403000) ++ (movedAndOverwritten n ++ leaving))
        twoThreads = .ok s ∧
      Returning s 0 ∧ f.entry = 0x7FFFFFFFB800 ∧ ReturnsTo s 0 f f.home := by
  obtain ⟨s, ret, hcall, h⟩ := called_directCall 0x403000
  obtain ⟨n, s₁, s₂, hmove, -, -, -, -, -, hleave, hreturning, fs, s₃, hacts, -⟩ := h.runs
  have hruns := hcall.append (hmove.append hleave)
  obtain ⟨s₂', hrun, hreturns⟩ :=
    direct_calls_return_home twoThreads_initial hruns.1 fun t j hj => by
      rcases List.mem_append.mp hj with hfirst | hrest
      · simp only [calling, List.mem_cons, Lib.Interleaving.Event.start.injEq,
          List.mem_replicate, reduceCtorEq, and_false, or_false] at hfirst
        obtain ⟨-, rfl⟩ := hfirst
        rfl
      · exact reads_nothing hrest
  obtain rfl := Except.ok.inj (hruns.2.symm.trans hrun)
  obtain ⟨f, fs', s₃', hacts', hto⟩ := hreturns 0 hreturning
  obtain ⟨rfl, rfl⟩ := List.cons.inj (hacts.symm.trans hacts')
  exact ⟨n, s₂, _, hrun, hreturning, rfl, fs, s₃', hacts', hto⟩

/-- Thread 1 plants `0x666000`. -/
theorem twoThreads_planted :
    ∃ s' f, team.Runs (plantedCall 0 1 0x402000 0x666000 twoThreads) twoThreads s' ∧
      Returning s' 0 ∧ f.home = (cpu twoThreads 0).next (.call 0x402000) ∧
      ReturnsTo s' 0 f 0x666000 :=
  planted_by_another_thread twoThreads_initial.inv (by decide) rfl rfl rfl twoThreads_callSite
    0x402000 0x666000

end Process

end FlashStack.Asm
