/-
The instrumentation preserves the meaning of programs.

A run of the original program that finds its return addresses untouched is simulated,
statement by statement, by the instrumented program, whenever its shadow stack is
re-randomized in between and whatever the runtime does for other threads, as long as the
memory of the program stays.

* `Agree`: the registers that the code reads, and the memory of the program, are the same;
* `Conventions`: what the inserted sequences use is not read behind them;
* `Related`: the states of the two programs, where the shadow stack holds the return address
  of every function that has been entered;
* `Related.step`: one statement, with one lemma for each kind of it;
* `instrumented_simulates`: every run, by induction on the events.

The invariant says less at the first statement of a function than inside it: there the
prologue is still to come, and the slot of the innermost function holds what an earlier call
left in it (`outer` against `all`). A direct call that skips the prologue has filled the
slot before it enters.

Of copied instructions it is asked that they read no register that is not live, leave the
shadow stack alone, and do the same wherever it is (`Transparent`). The converse simulation
is not stated: a run that has lost a return address means something else in the two
programs.
-/

import FlashStack.Asm.Programs

namespace FlashStack.Asm

open Lib.Memory Lib.Program Lib.Events FlashStack.Runtime

/-! ### Memory -/

section Memory

variable {m m' m'' : Machine} {t : Tid} {a v : Word} {n : Nat}

theorem SameProgram.trans (h : SameProgram m m') (h' : SameProgram m' m'') : SameProgram m m'' :=
  fun x b => (h x b).trans (h' x b)

theorem sameProgram_of_othersKept (h : OthersKept t m.mem m'.mem) : SameProgram m m' :=
  fun x b => h x ⟨.other, b⟩ (by simp)

/-- The memory of a program without the runtime: no address belongs to the shadow stack of any
thread. -/
def Unshadowed (m : Machine) : Prop := ∀ t, NoShadow m t

/-- What such a program has mapped is mapped for both. -/
theorem SameProgram.cell (h : SameProgram m m') (hm : Unshadowed m) {x : Word}
    (hx : (m.mem x).isSome = true) : m'.mem x = m.mem x ∧ ownerOf m'.mem x = some .other := by
  obtain ⟨⟨o, b⟩, hc⟩ := Option.isSome_iff_exists.mp hx
  cases o with
  | other =>
      have hc' := (h x b).mp hc
      exact ⟨hc'.trans hc.symm, by rw [ownerOf, hc']; rfl⟩
  | shadow u => exact absurd (by rw [ownerOf, hc]; rfl) (hm u x)

theorem SameProgram.owned (h : SameProgram m m') (hm : Unshadowed m) (ha : Mapped m.mem a n) :
    OwnedBy m'.mem .other a n := fun k hk => (h.cell hm (ha k hk)).2

theorem SameProgram.load64 (h : SameProgram m m') (hm : Unshadowed m)
    (ha : load64 m.mem a = some v) : load64 m'.mem a = some v := by
  rw [← ha]
  refine load64_congr fun k hk => ?_
  rw [byteOf, byteOf, (h.cell hm (mapped_of_load64 ha k hk)).1]

/-- The same store, to a word of the program. -/
theorem SameProgram.store (h : SameProgram m m') (hm : Unshadowed m) (ha : Mapped m.mem a 8)
    (x : Nat) :
    SameProgram (m.withMem (storeN m.mem a 8 x)) (m'.withMem (storeN m'.mem a 8 x)) := by
  have hmapped := (forall_offset_iff (P := fun x => (m.mem x).isSome = true) (by decide)).mp ha
  intro y b
  by_cases hy : InRange a 8 y
  · have hcell := (h.cell hm (hmapped y hy)).1
    rw [Machine.withMem_mem, Machine.withMem_mem, storeN_congr hcell]
  · rw [Machine.withMem_mem, Machine.withMem_mem, storeN_outside hy, storeN_outside hy]
    exact h y b

theorem Unshadowed.store (h : Unshadowed m) (a : Word) (x : Nat) :
    Unshadowed (m.withMem (storeN m.mem a 8 x)) := by
  intro t y
  rw [Machine.withMem_mem, ownerOf_storeN]
  exact h t y

end Memory

/-! ### Registers -/

/-- The register is not scratch, or is read. On the others the two programs may differ. -/
def Seen (L : Scratch → Prop) : Reg → Prop
  | .rax => L .rax
  | .r10 => L .r10
  | .r11 => L .r11
  | _ => True

theorem Seen.mono {L L' : Scratch → Prop} (h : ∀ x, L' x → L x) {r : Reg} (hr : Seen L' r) :
    Seen L r := by
  cases r with
  | rax => exact h .rax hr
  | r10 => exact h .r10 hr
  | r11 => exact h .r11 hr
  | rbx | rcx | rdx | rsi | rdi | rbp | rsp | r8 | r9 | r12 | r13 | r14 | r15 => trivial

/-- The two CPUs agree on what is read: the instruction pointer, the registers and flags that are
live, and the memory of the program. -/
structure Agree (L : Scratch → Prop) (c c' : Cpu) : Prop where
  rip : c'.rip = c.rip
  regs : ∀ r, Seen L r → c'.regs r = c.regs r
  flags : L .flags → c'.flags = c.flags
  program : SameProgram c.machine c'.machine

theorem Agree.rsp {L : Scratch → Prop} {c c' : Cpu} (h : Agree L c c') : c'.rsp = c.rsp :=
  h.regs .rsp trivial

/-- Nothing that the prologue or the direct call uses is read. `%rax` may be, for it carries the
result of a function. -/
def OnlyRax (L : Scratch → Prop) : Prop := ∀ x, L x → x = .rax

theorem OnlyRax.ne {L : Scratch → Prop} (h : OnlyRax L) {r : Reg} (hr : Seen L r) :
    r ≠ .r10 ∧ r ≠ .r11 := by
  constructor
  · rintro rfl
    cases h .r10 hr
  · rintro rfl
    cases h .r11 hr

/-- The registers that a prologue uses are not read. -/
theorem Agree.prologue_regs {L L' : Scratch → Prop} {c c' : Cpu} (h : Agree L c c')
    (hL' : OnlyRax L') (hrax : L' .rax → L .rax) (v w : Word) {r : Reg} (hr : Seen L' r) :
    Function.update (Function.update c'.regs .r11 v) .r10 w r = c.regs r := by
  obtain ⟨h10, h11⟩ := hL'.ne hr
  rw [Function.update_of_ne h10, Function.update_of_ne h11]
  refine h.regs r (hr.mono fun x hx => ?_)
  obtain rfl := hL' x hx
  exact hrax hx

/-- A register that an indirect call uses is not read where nothing is. -/
theorem seen_of_none {L : Scratch → Prop} (hL : ∀ x, ¬ L x) {r : Reg} (hr : Seen L r) :
    r ≠ .rax ∧ r ≠ .r10 ∧ r ≠ .r11 := by
  refine ⟨?_, OnlyRax.ne (fun x hx => absurd hx (hL x)) hr⟩
  rintro rfl
  exact hL .rax hr

theorem Agree.compared_regs {L L' : Scratch → Prop} {c c' : Cpu} (h : Agree L c c')
    (hL' : ∀ x, ¬ L' x) (length : Nat) (v w : Word) {r : Reg} (hr : Seen L' r) :
    (c'.compared length v w).regs r = c.regs r := by
  obtain ⟨hax, -, h11⟩ := seen_of_none hL' hr
  refine (Function.update_of_ne h11 ..).trans ((Function.update_of_ne hax ..).trans ?_)
  exact h.regs r (hr.mono fun x hx => absurd hx (hL' x))

/-! ### Conventions -/

section Conventions

variable {ι : Type} (code : Code ι) (meaning : ι → Cpu → Except Fault Cpu) (live : Live) (t : Tid)

/-- A copied instruction reads no register that is not live, leaves the shadow stack of the
thread alone, and does the same wherever that is. -/
def Transparent (a : Word) (i : ι) : Prop :=
  ∀ c c' d, c.rip = a → Unshadowed c.machine → Agree (live a) c c' → meaning i c = .ok d →
    Unshadowed d.machine ∧ ∃ d', meaning i c' = .ok d' ∧ Agree (live d.rip) d d' ∧
      Undisturbed t c'.machine d'.machine

/-- The calling conventions: no function takes an argument in `%r10` or `%r11`, or in the
flags, and no caller expects a value there. A direct call is rewritten only where the callee
begins with a prologue. -/
structure Conventions : Prop where
  startproc : ∀ a, code a = some .startproc → OnlyRax (live a) ∧
    ∀ x, live (a + BitVec.ofNat 64 spaLengthOfProtectedPrologue) x → x = .rax ∧ live a .rax
  call : ∀ (c : Cpu) g, code c.rip = some (.call g) → (code g = some .startproc ∨ code g = none) ∧
    (∀ x, live g x → live c.rip x) ∧ OnlyRax (live (c.next (.call g)))
  directCall : ∀ (c : Cpu) g, code c.rip = some (.directCall g) → code g = some .startproc ∧
    (live g .rax → live c.rip .rax) ∧ OnlyRax (live (c.behind g))
  indirectCall : ∀ (c : Cpu) op length, code c.rip = some (.indirectCall op length) →
    OnlyRax (live (c.behindIndirect length)) ∧ ∀ c' v, Unshadowed c.machine →
      Agree (live c.rip) c c' → op.value t c = .ok v → op.value t c' = .ok v
  other : ∀ a i, code a = some (.other i) → Transparent meaning live t a i

end Conventions

/-! ### Related states -/

section Related

variable {ι : Type} (code : Code ι) (live : Live) (t : Tid) (r0 : Word)

/-- A function begins at `a`, or the program is left. At both the prologue, or code that is not
modelled, is still to come. -/
def Begins (a : Word) : Prop := code a = some .startproc ∨ code a = none

/-- The shadow stack of `t` holds the return addresses of the functions `fs`, each in the slot of
the place where it was pushed. -/
def Shadowed (fs : List Frame) (m : Machine) : Prop :=
  ∃ ss slots, ThreadAt m t r0 ss slots ∧ ∀ f ∈ fs, slots f.entry = some f.home

/-- The functions have slots, inner ones below outer ones, and no caller reads scratch but the
value returned. -/
structure Placed (fs : List Frame) : Prop where
  slots : ∀ f ∈ fs, HasSlot r0 f.entry
  nested : fs.Pairwise fun f g => stackOffset r0 f.entry < stackOffset r0 g.entry
  homes : ∀ f ∈ fs, OnlyRax (live f.home)

/-- The original and the instrumented program. Where a function begins, its prologue is still
to come. -/
structure Related (s : Source) (c : Cpu) : Prop where
  agree : Agree (live s.cpu.rip) s.cpu c
  unshadowed : Unshadowed s.cpu.machine
  placed : Placed live r0 s.frames
  outer : Shadowed t r0 s.frames.tail c.machine
  all : ¬ Begins code s.cpu.rip → Shadowed t r0 s.frames c.machine

end Related

theorem not_begins {ι : Type} {code : Code ι} {a : Word} {stmt : Stmt ι}
    (hcode : code a = some stmt) (hstmt : stmt ≠ .startproc) : ¬ Begins code a := by
  rintro (hstart | hnone)
  · exact hstmt (Option.some.inj (hcode.symm.trans hstart))
  · cases hcode.symm.trans hnone

section Steps

variable {ι : Type} {code : Code ι} {meaning : ι → Cpu → Except Fault Cpu} {live : Live} {t : Tid}
  {r0 : Word} {s s' : Source} {c : Cpu}

theorem Shadowed.mono {fs gs : List Frame} {m : Machine} (h : Shadowed t r0 fs m)
    (hsub : ∀ f ∈ gs, f ∈ fs) : Shadowed t r0 gs m := by
  obtain ⟨ss, slots, hthread, hslots⟩ := h
  exact ⟨ss, slots, hthread, fun f hf => hslots f (hsub f hf)⟩

theorem Shadowed.of_undisturbed {fs : List Frame} {m m' : Machine} (h : Shadowed t r0 fs m)
    (hund : Undisturbed t m m') : Shadowed t r0 fs m' := by
  obtain ⟨ss, slots, hthread, hslots⟩ := h
  exact ⟨ss, slots, hthread.of_undisturbed hund, hslots⟩

theorem Placed.tail {f : Frame} {fs : List Frame} (h : Placed live r0 (f :: fs)) :
    Placed live r0 fs where
  slots g hg := h.slots g (List.mem_cons_of_mem f hg)
  nested := (List.pairwise_cons.mp h.nested).2
  homes g hg := h.homes g (List.mem_cons_of_mem f hg)

/-- A function is called below all others that have not returned, so its slot is none of theirs.
-/
theorem Placed.below (h : Placed live r0 s.frames) (hroom : s.HasRoom r0) :
    ∀ g ∈ s.frames, stackOffset r0 s.cpu.pushed < stackOffset r0 g.entry := by
  have hnested := h.nested
  have hbelow := hroom.below
  cases hframes : s.frames with
  | nil => simp
  | cons f fs =>
      rw [hframes] at hbelow hnested
      have hf := hbelow f (by simp)
      exact List.forall_mem_cons.mpr
        ⟨hf, fun g hg => lt_trans hf ((List.pairwise_cons.mp hnested).1 g hg)⟩

theorem Placed.push (h : Placed live r0 s.frames) (hroom : s.HasRoom r0) {back : Word}
    (hback : OnlyRax (live back)) : Placed live r0 (s.push back) where
  slots := List.forall_mem_cons.mpr ⟨hroom.slot, h.slots⟩
  nested := List.pairwise_cons.mpr ⟨h.below hroom, h.nested⟩
  homes := List.forall_mem_cons.mpr ⟨hback, h.homes⟩

/-- A return address goes to its slot. -/
theorem Shadowed.record {f : Frame} {fs : List Frame} {m : Machine} (h : Shadowed t r0 fs m)
    (hf : HasSlot r0 f.entry)
    (hbelow : ∀ g ∈ fs, stackOffset r0 f.entry < stackOffset r0 g.entry) :
    OwnedBy m.mem (.shadow t) (slotAddr (m.threads t).gs f.entry) 8 ∧
      Shadowed t r0 (f :: fs) (m.withMem (storeN m.mem (slotAddr (m.threads t).gs f.entry) 8
        f.home.toNat)) ∧
      SameProgram m (m.withMem (storeN m.mem (slotAddr (m.threads t).gs f.entry) 8
        f.home.toNat)) := by
  obtain ⟨ss, slots, ⟨md, hstack, hdesc⟩, hslots⟩ := h
  have hown := hstack.slot_owned hf
  obtain ⟨m', hstep, hstack', hkept⟩ := hstack.prologue hf f.home
  obtain rfl := Except.ok.inj ((Machine.store_owned hown).symm.trans hstep)
  refine ⟨hown, ⟨ss, _, ⟨md, hstack', hdesc⟩, ?_⟩, sameProgram_of_othersKept hkept.others⟩
  refine List.forall_mem_cons.mpr ⟨Function.update_self .., fun g hg => ?_⟩
  have hne : g.entry ≠ f.entry := fun heq => absurd (hbelow g hg) (by rw [heq]; omega)
  rw [Function.update_of_ne hne]
  exact hslots g hg

/-- The return address that a function finds is on both call stacks. -/
theorem Related.load (h : Related code live t r0 s c) {f : Frame} (hf : s.AtFrame f) :
    load64 c.machine.mem c.rsp = some f.home := by
  rw [h.agree.rsp, hf.rsp]
  exact h.agree.program.load64 h.unshadowed hf.home

theorem Related.startproc (hconv : Conventions code meaning live t)
    (h : Related code live t r0 s c) (hcode : code s.cpu.rip = some .startproc) {f : Frame}
    {fs : List Frame} (hfs : s.frames = f :: fs) (hf : s.AtFrame f) :
    ∃ c', instrumentedStep meaning t .startproc c = .ok c' ∧ Related code live t r0
      ⟨s.cpu.jump (s.cpu.rip + BitVec.ofNat 64 spaLengthOfProtectedPrologue), s.frames⟩ c' := by
  obtain ⟨-, hlive⟩ := hconv.startproc _ hcode
  obtain ⟨cpu, frames⟩ := s
  obtain rfl : frames = f :: fs := hfs
  have hrsp : c.rsp = f.entry := h.agree.rsp.trans hf.rsp
  obtain ⟨hown, hshadow, hsame⟩ := h.outer.record (h.placed.slots f List.mem_cons_self)
    (List.pairwise_cons.mp h.placed.nested).1
  rw [← hrsp] at hown hshadow hsame
  refine ⟨_, congrArg (Except.map Prod.snd) (run_prologue (h.load hf) hown.mapped), ?_⟩
  refine ⟨⟨?_, ?_, ?_, ?_⟩, h.unshadowed, h.placed,
    hshadow.mono fun _ => List.mem_cons_of_mem f, fun _ => hshadow⟩
  · exact congrArg (· + _) h.agree.rip
  · exact fun r hr => h.agree.prologue_regs (fun x hx => (hlive x hx).1)
      (fun hx => (hlive .rax hx).2) _ _ hr
  · intro hflags
    cases (hlive .flags hflags).1
  · exact h.agree.program.trans hsame

theorem plainStep_ret {a : Word} (h : load64 c.machine.mem c.rsp = some a) :
    plainStep meaning t .ret c =
      .ok ((c.setReg .rsp (c.rsp + BitVec.ofNat 64 spaCpuWordLength)).jump a) := by
  simp only [plainStep, Cpu.read_eq h]

theorem Related.ret (h : Related code live t r0 s c) (hcode : code s.cpu.rip = some .ret)
    {f : Frame} {fs : List Frame} (hfs : s.frames = f :: fs) (hf : s.AtFrame f)
    (hlive : live f.home .rax → live s.cpu.rip .rax) {d : Cpu}
    (hd : plainStep meaning t .ret s.cpu = .ok d) :
    ∃ c', instrumentedStep meaning t .ret c = .ok c' ∧ Related code live t r0 ⟨d, fs⟩ c' := by
  obtain ⟨cpu, frames⟩ := s
  obtain rfl : frames = f :: fs := hfs
  obtain ⟨ss, slots, hthread, hslots⟩ := h.all (not_begins hcode (by simp))
  obtain ⟨md, hstack, hdesc⟩ := hthread
  obtain ⟨content, hm⟩ := hstack.anchored
  have hrsp : c.rsp = f.entry := h.agree.rsp.trans hf.rsp
  obtain ⟨-, hload⟩ := hstack.holds f.entry f.home (hslots f List.mem_cons_self)
  rw [← hm.gs, ← hrsp] at hload
  have hload' : load64 cpu.machine.mem cpu.rsp = some f.home := by
    rw [show cpu.rsp = f.entry from hf.rsp]
    exact hf.home
  obtain rfl := Except.ok.inj ((plainStep_ret hload').symm.trans hd)
  have honly : OnlyRax (live f.home) := h.placed.homes f List.mem_cons_self
  refine ⟨_, congrArg (Except.map Prod.snd) (run_epilogue hload), ?_⟩
  have hfs : Shadowed t r0 fs c.machine :=
    ⟨ss, slots, ⟨md, hstack, hdesc⟩, fun g hg => hslots g (List.mem_cons_of_mem f hg)⟩
  refine ⟨⟨rfl, fun r hr => ?_, ?_, h.agree.program⟩, h.unshadowed, h.placed.tail,
    hfs.mono fun _ => List.mem_of_mem_tail, fun _ => hfs⟩
  · by_cases hsp : r = .rsp
    · subst hsp
      simp only [Cpu.setReg, Cpu.jump, Function.update_self]
      rw [h.agree.rsp]
    · simp only [Cpu.setReg, Cpu.jump, Function.update_of_ne hsp,
        Function.update_of_ne (honly.ne hr).1]
      refine h.agree.regs r (hr.mono fun x hx => ?_)
      obtain rfl := honly x hx
      exact hlive hx
  · intro hflags
    cases honly .flags hflags

/-- The first function of a thread is about to begin. -/
theorem related_start {f : Frame} (hcode : code s.cpu.rip = some .startproc)
    (hframes : s.frames = [f]) (hagree : Agree (live s.cpu.rip) s.cpu c)
    (hunshadowed : Unshadowed s.cpu.machine) (hslot : HasSlot r0 f.entry)
    (hhome : OnlyRax (live f.home)) {ss : Word} {slots : Slots}
    (hthread : ThreadAt c.machine t r0 ss slots) : Related code live t r0 s c where
  agree := hagree
  unshadowed := hunshadowed
  placed := by
    rw [hframes]
    refine ⟨?_, List.pairwise_singleton _ f, ?_⟩
    · simpa using hslot
    · simpa using hhome
  outer := ⟨ss, slots, hthread, by simp [hframes]⟩
  all hbody := absurd (Or.inl hcode) hbody

/-! ### Calls -/

/-- The CPU after the push of `back` and the jump to `target`. -/
def Cpu.entering (c : Cpu) (back target : Word) : Cpu :=
  ((c.on (c.machine.withMem (storeN c.machine.mem c.pushed 8 back.toNat))).setReg .rsp
    c.pushed).jump target

theorem enters_mapped {back target : Word} (hmapped : Mapped c.machine.mem c.pushed 8) :
    c.enters back target = .ok (c.entering back target) :=
  congrArg (Except.map Prod.snd) (Cpu.enter_eq hmapped back target)

theorem enters_eq {d : Cpu} {back target : Word} (hmapped : Mapped c.machine.mem c.pushed 8)
    (hd : c.enters back target = .ok d) : d = c.entering back target := by
  rw [enters_mapped hmapped] at hd
  exact (Except.ok.inj hd).symm

/-- A store to a word of the program leaves the shadow stack alone. -/
theorem Shadowed.store {fs : List Frame} {m : Machine} (h : Shadowed t r0 fs m) {a : Word}
    (ha : OwnedBy m.mem .other a 8) (x : Nat) :
    Shadowed t r0 fs (m.withMem (storeN m.mem a 8 x)) :=
  h.of_undisturbed ⟨kept_write (outsideShadow_of_other ha) t, rfl⟩

/-- **The callee is entered**, by a call that returns to `back`: `c'` is the instrumented
program behind the call. -/
theorem Related.enter (h : Related code live t r0 s c) (hroom : s.HasRoom r0) {back target : Word}
    {c' : Cpu} (hback : OnlyRax (live back)) (hrip : c'.rip = target)
    (hregs : ∀ r, Seen (live target) r → r ≠ .rsp → c'.regs r = s.cpu.regs r)
    (hrsp : c'.rsp = s.cpu.pushed)
    (hflags : live target .flags → c'.flags = s.cpu.flags)
    (hprogram : SameProgram (s.cpu.entering back target).machine c'.machine)
    (hshadow : Shadowed t r0 s.frames c'.machine)
    (hall : ¬ Begins code target → Shadowed t r0 (s.push back) c'.machine) :
    Related code live t r0 ⟨s.cpu.entering back target, s.push back⟩ c' where
  agree := by
    refine ⟨hrip, fun r hr => ?_, hflags, hprogram⟩
    by_cases hsp : r = .rsp
    · subst hsp
      exact hrsp.trans (by simp [Cpu.entering, Cpu.setReg, Cpu.jump])
    · exact (hregs r hr hsp).trans (Function.update_of_ne hsp ..).symm
  unshadowed := h.unshadowed.store _ _
  placed := h.placed.push hroom hback
  outer := hshadow
  all := hall

/-- What stands at the call, for both programs. -/
theorem Related.site (h : Related code live t r0 s c) (hroom : s.HasRoom r0) :
    c.pushed = s.cpu.pushed ∧ OwnedBy c.machine.mem .other c.pushed 8 := by
  have hpushed : c.pushed = s.cpu.pushed := congrArg (· - _) h.agree.rsp
  rw [hpushed]
  exact ⟨rfl, h.agree.program.owned h.unshadowed hroom.mapped⟩

/-- Both programs push the return address, and it is the same word: the code addresses are the
same. -/
theorem Related.pushes (h : Related code live t r0 s c) (hroom : s.HasRoom r0) (back target : Word)
    {m : Machine} (hm : SameProgram s.cpu.machine m) :
    SameProgram (s.cpu.entering back target).machine
      (m.withMem (storeN m.mem c.pushed 8 back.toNat)) := by
  rw [(h.site hroom).1]
  exact hm.store h.unshadowed hroom.mapped _

theorem Related.call (hconv : Conventions code meaning live t)
    (h : Related code live t r0 s c) {g : Word} (hcode : code s.cpu.rip = some (.call g))
    (hroom : s.HasRoom r0) {d : Cpu} (hd : plainStep meaning t (.call g) s.cpu = .ok d) :
    ∃ c', instrumentedStep meaning t (.call g) c = .ok c' ∧
      Related code live t r0 ⟨d, s.push (s.cpu.next (.call g))⟩ c' := by
  obtain ⟨htarget, hlive, hback⟩ := hconv.call _ g hcode
  obtain ⟨hpushed, howned⟩ := h.site hroom
  have hnext : c.next (.call g) = s.cpu.next (.call g) := congrArg (· + _) h.agree.rip
  obtain rfl := enters_eq hroom.mapped hd
  refine ⟨_, congrArg (Except.map Prod.snd) ((runCode_cons (exec_call g howned.mapped)).trans rfl),
    ?_⟩
  refine h.enter hroom hback rfl ?_ hpushed (fun hf => h.agree.flags (hlive _ hf)) ?_
    ((h.all (not_begins hcode (by simp))).store howned _) fun hno => absurd htarget hno
  · intro r hr hsp
    exact (Function.update_of_ne hsp ..).trans (h.agree.regs r (hr.mono hlive))
  · rw [← hnext]
    exact h.pushes hroom _ g h.agree.program

/-- **A return address goes to its slot, and to the call stack**, in front of a callee whose
prologue is skipped. -/
theorem Related.fill (h : Related code live t r0 s c)
    (hall : Shadowed t r0 s.frames c.machine) (hroom : s.HasRoom r0) (back target : Word) :
    Mapped c.machine.mem (slotAddr (c.machine.threads t).gs c.pushed) 8 ∧
      Mapped c.machine.mem c.pushed 8 ∧
      Shadowed t r0 (s.push back) (c.machine.withMem (storeN
        (storeN c.machine.mem (slotAddr (c.machine.threads t).gs c.pushed) 8 back.toNat)
          c.pushed 8 back.toNat)) ∧
      SameProgram (s.cpu.entering back target).machine (c.machine.withMem (storeN
        (storeN c.machine.mem (slotAddr (c.machine.threads t).gs c.pushed) 8 back.toNat)
          c.pushed 8 back.toNat)) := by
  obtain ⟨hpushed, howned⟩ := h.site hroom
  have hpush := hall.record (f := ⟨s.cpu.pushed, back⟩) hroom.slot (h.placed.below hroom)
  rw [← hpushed] at hpush
  obtain ⟨hslot, hshadow, hsame⟩ := hpush
  refine ⟨hslot.mapped, howned.mapped, ?_, h.pushes hroom back target (h.agree.program.trans hsame)⟩
  rw [Source.push, ← hpushed]
  exact hshadow.store (ownedBy_storeN.mpr howned) _

theorem Related.directCall (hconv : Conventions code meaning live t)
    (h : Related code live t r0 s c) {g : Word} (hcode : code s.cpu.rip = some (.directCall g))
    (hroom : s.HasRoom r0) {d : Cpu} (hd : plainStep meaning t (.directCall g) s.cpu = .ok d) :
    ∃ c', instrumentedStep meaning t (.directCall g) c = .ok c' ∧
      Related code live t r0 ⟨d, s.push (s.cpu.behind g)⟩ c' := by
  obtain ⟨htarget, hlive, hback⟩ := hconv.directCall _ g hcode
  obtain ⟨-, hbody⟩ := hconv.startproc _ htarget
  have hall := h.all (not_begins hcode (by simp))
  have hbehind : c.behind g = s.cpu.behind g := congrArg (· + _) h.agree.rip
  obtain rfl := enters_eq hroom.mapped hd
  obtain ⟨hslot, hstack, hshadow, hsame⟩ := h.fill hall hroom (s.cpu.behind g)
    (g + BitVec.ofNat 64 spaLengthOfProtectedPrologue)
  have hrun := run_directCall (f := g) hslot hstack
  rw [hbehind] at hrun
  refine ⟨_, congrArg (Except.map Prod.snd) hrun, ?_⟩
  refine h.enter hroom hback rfl ?_ (h.site hroom).1 ?_ hsame
    (hshadow.mono fun _ => List.mem_cons_of_mem _) fun _ => hshadow
  · intro r hr hsp
    exact (Function.update_of_ne hsp ..).trans (h.agree.prologue_regs (fun x hx => (hbody x hx).1)
      (fun hx => hlive (hbody .rax hx).2) _ _ hr)
  · intro hflags
    cases (hbody .flags hflags).1

theorem Related.indirectCall (hconv : Conventions code meaning live t)
    (h : Related code live t r0 s c) {op : CallOperand} {length : Nat} {v : Word}
    (hcode : code s.cpu.rip = some (.indirectCall op length)) (hroom : s.HasRoom r0)
    (hop : op.value t s.cpu = .ok v) (htext : Mapped s.cpu.machine.mem v 8)
    (hmagic : s.cpu.ProtectedAt v ↔ code v = some .startproc)
    (hplain : ¬ s.cpu.ProtectedAt v → code v = none) (hlive : ∀ x, ¬ live v x) {d : Cpu}
    (hd : plainStep meaning t (.indirectCall op length) s.cpu = .ok d) :
    ∃ c', instrumentedStep meaning t (.indirectCall op length) c = .ok c' ∧
      Related code live t r0 ⟨d, s.push (s.cpu.behindIndirect length)⟩ c' := by
  obtain ⟨hback, hvalue⟩ := hconv.indirectCall _ op length hcode
  have hop' := hvalue c v h.unshadowed h.agree hop
  have hall := h.all (not_begins hcode (by simp))
  have hbehind : c.behindIndirect length = s.cpu.behindIndirect length :=
    congrArg (· + _) h.agree.rip
  obtain ⟨w, hw⟩ := load64_isSome htext
  have hw' := h.agree.program.load64 h.unshadowed hw
  have hrun := run_indirectCall hop' length hw'
  rw [plainStep, hop] at hd
  obtain rfl := enters_eq hroom.mapped hd
  by_cases hword : w = spaProtectedFuncMagicNum
  · subst hword
    have hprotected : s.cpu.ProtectedAt v := hw
    have hentered : s.cpu.entered v = v + BitVec.ofNat 64 spaLengthOfProtectedPrologue :=
      if_pos hprotected
    obtain ⟨-, hbody⟩ := hconv.startproc _ (hmagic.mp hprotected)
    have hnone : ∀ x, ¬ live (v + BitVec.ofNat 64 spaLengthOfProtectedPrologue) x :=
      fun x hx => hlive .rax (hbody x hx).2
    obtain ⟨hslot, hstack, hshadow, hsame⟩ := h.fill hall hroom (s.cpu.behindIndirect length)
      (s.cpu.entered v)
    obtain ⟨flags, hbranch⟩ := run_branch_protected (v := v) length hslot hstack
    rw [hbehind] at hbranch
    refine ⟨_, congrArg (Except.map Prod.snd) (hrun.trans hbranch), ?_⟩
    rw [hentered] at hsame ⊢
    refine h.enter hroom hback rfl ?_ (h.site hroom).1 (fun hx => absurd hx (hnone .flags)) hsame
      (hshadow.mono fun _ => List.mem_cons_of_mem _) fun _ => hshadow
    intro r hr hsp
    obtain ⟨hax, h10, h11⟩ := seen_of_none hnone hr
    refine (Function.update_of_ne hsp ..).trans ?_
    rw [Function.update_of_ne hax, Function.update_of_ne h10, Function.update_of_ne h11]
    exact h.agree.compared_regs hnone length v _ hr
  · have hunprotected : ¬ s.cpu.ProtectedAt v :=
      fun hv => hword (Option.some.inj (hw.symm.trans hv))
    have hentered : s.cpu.entered v = v := if_neg hunprotected
    obtain ⟨hpushed, howned⟩ := h.site hroom
    have hbranch := run_branch_plain (t := t) (v := v) hword length howned.mapped
    rw [hbehind] at hbranch
    refine ⟨_, congrArg (Except.map Prod.snd) (hrun.trans hbranch), ?_⟩
    rw [hentered]
    refine h.enter hroom hback rfl ?_ hpushed (fun hx => absurd hx (hlive .flags))
      (h.pushes hroom _ v h.agree.program) (hall.store howned _)
      fun hno => absurd (Or.inr (hplain hunprotected)) hno
    intro r hr hsp
    exact (Function.update_of_ne hsp ..).trans (h.agree.compared_regs hlive length v w hr)

theorem Related.other (hconv : Conventions code meaning live t)
    (h : Related code live t r0 s c) {i : ι} (hcode : code s.cpu.rip = some (.other i)) {d : Cpu}
    (hd : plainStep meaning t (.other i) s.cpu = .ok d) :
    ∃ c', instrumentedStep meaning t (.other i) c = .ok c' ∧
      Related code live t r0 ⟨d, s.frames⟩ c' := by
  have hall := h.all (not_begins hcode (by simp))
  obtain ⟨hunshadowed, d', hstep, hagree, hund⟩ :=
    hconv.other _ i hcode s.cpu c d rfl h.unshadowed h.agree hd
  exact ⟨d', hstep, hagree, hunshadowed, h.placed, h.outer.of_undisturbed hund,
    fun _ => hall.of_undisturbed hund⟩

/-- **One statement**, of the original and of the instrumented program. The cases are the kinds of
statements, each with a lemma of its own. -/
theorem Related.step (hconv : Conventions code meaning live t)
    (h : Related code live t r0 s c) {stmt : Stmt ι} (hcode : code s.cpu.rip = some stmt)
    (hstep : s.Step code meaning live t r0 stmt s') :
    ∃ c', instrumentedStep meaning t stmt c = .ok c' ∧ Related code live t r0 s' c' := by
  cases hstep with
  | startproc hfs hf hc =>
      obtain rfl := Except.ok.inj hc
      exact h.startproc hconv hcode hfs hf
  | ret hfs hf hlive hc => exact h.ret hcode hfs hf hlive hc
  | call hroom hc => exact h.call hconv hcode hroom hc
  | directCall hroom hc => exact h.directCall hconv hcode hroom hc
  | indirectCall hroom hop htext hmagic hplain hlive hc =>
      exact h.indirectCall hconv hcode hroom hop htext hmagic hplain hlive hc
  | other hc => exact h.other hconv hcode hc

/-! ### Runs -/

/-- Another thread, or the runtime, changes nothing that the program reads. -/
theorem Related.elsewhere (h : Related code live t r0 s c) {m : Machine}
    (hsame : SameProgram c.machine m)
    (hshadow : ∀ fs, Shadowed t r0 fs c.machine → Shadowed t r0 fs m) :
    Related code live t r0 s (c.on m) where
  agree := ⟨h.agree.rip, h.agree.regs, h.agree.flags, h.agree.program.trans hsame⟩
  unshadowed := h.unshadowed
  placed := h.placed
  outer := hshadow _ h.outer
  all hbody := hshadow _ (h.all hbody)

/-- The shadow stack moves with the return addresses on it, whether the call moves the region or
gives up. -/
theorem Shadowed.rerandomize {fs : List Frame} {m : Machine} (h : Shadowed t r0 fs m)
    {rsp rspAlloc : Word} {env : Env} (hrsp : BelowStart r0 rsp)
    (hdone : (Action.rerandomize rsp rspAlloc env).Completes t m) :
    ∃ m', (Action.rerandomize rsp rspAlloc env).step t m = .ok m' ∧ Shadowed t r0 fs m' ∧
      SameProgram m m' := by
  obtain ⟨ss, slots, hthread, hslots⟩ := h
  obtain ⟨m', hstep, hthread', -, -, hothers⟩ :=
    Action.step_thread hthread (a := .rerandomize rsp rspAlloc env) hrsp hdone
  exact ⟨m', hstep, ⟨_, slots, hthread', hslots⟩, sameProgram_of_othersKept (hothers rfl)⟩

variable {es : List Instrumented.Event} {stmts : List (Stmt ι)}

/-- **An event that is no statement** leaves the original program where it is. -/
theorem Related.event (h : Related code live t r0 s c) {e : Instrumented.Event}
    (he : e ≠ .go) (hallowed : Instrumented.Allowed t r0 e c) :
    ∃ c', Instrumented.step code meaning t e c = .ok c' ∧ Related code live t r0 s c' := by
  cases e with
  | go => exact absurd rfl he
  | rerandomize rsp rspAlloc env =>
      obtain ⟨hrsp, hdone⟩ := hallowed
      obtain ⟨m, hstep, -, hsame⟩ := h.outer.rerandomize hrsp hdone
      refine ⟨c.on m, by simp only [Instrumented.step, hstep], h.elsewhere hsame fun fs hfs => ?_⟩
      obtain ⟨m', hstep', hfs', -⟩ := hfs.rerandomize hrsp hdone
      obtain rfl := Except.ok.inj (hstep.symm.trans hstep')
      exact hfs'
  | elsewhere m =>
      exact ⟨c.on m, rfl, h.elsewhere hallowed.2 fun fs hfs => hfs.of_undisturbed hallowed.1⟩

/-- **A run** of the original program, with events between its statements. The induction is on the
events, and each statement is one of them. -/
theorem Related.run (hconv : Conventions code meaning live t) (h : Related code live t r0 s c)
    (hrun : s.Run code meaning live t r0 stmts s') (hes : Instrumented.steps es = stmts.length)
    (hallowed : Along (Instrumented.step code meaning t) (Instrumented.Allowed t r0) es c) :
    ∃ c', runAll (Instrumented.step code meaning t) es c = .ok c' ∧
      Related code live t r0 s' c' := by
  induction es generalizing s c stmts with
  | nil =>
      cases hrun with
      | nil => exact ⟨c, rfl, h⟩
      | cons hcode hstep hrun => cases hes
  | cons e es ih =>
      by_cases hgo : e = .go
      · subst hgo
        cases hrun with
        | nil => cases hes
        | cons hcode hstep hrun =>
            obtain ⟨c', hc', hrelated⟩ := h.step hconv hcode hstep
            have hnext : Instrumented.step code meaning t .go c = .ok c' := by
              simp only [Instrumented.step, h.agree.rip, hcode, hc']
            rw [runAll_cons hnext]
            exact ih hrelated hrun (Nat.succ.inj hes) (hallowed.tail hnext)
      · obtain ⟨c', hnext, hrelated⟩ := h.event hgo hallowed.1
        rw [runAll_cons hnext]
        refine ih hrelated hrun ?_ (hallowed.tail hnext)
        rw [← hes, Instrumented.steps_cons hgo]

end Steps

/-- **The instrumentation preserves the meaning of programs**: whatever the original program
does, with its return addresses untouched, the instrumented one does, at the same addresses
and with the same memory and live registers. In between, the runtime re-randomizes its shadow
stack, and works for other threads. -/
theorem instrumented_simulates {ι : Type} {code : Code ι} {meaning : ι → Cpu → Except Fault Cpu}
    {live : Live} {t : Tid} {r0 : Word} (hconv : Conventions code meaning live t)
    {s s' : Source} {c : Cpu} (h : Related code live t r0 s c) {stmts : List (Stmt ι)}
    (hrun : s.Run code meaning live t r0 stmts s') {es : List Instrumented.Event}
    (hes : Instrumented.steps es = stmts.length)
    (hallowed : Along (Instrumented.step code meaning t) (Instrumented.Allowed t r0) es c) :
    ∃ c', runAll (Instrumented.step code meaning t) es c = .ok c' ∧
      Related code live t r0 s' c' :=
  h.run hconv hrun hes hallowed

/-- A function that calls another one, behind a `nop`. The addresses leave room for the emitted
sequences. -/
def callingCode : Code Unit := fun a =>
  if a = 0x401000 then some .startproc
  else if a = 0x401013 then some (.other ())
  else if a = 0x401014 then some (.directCall 0x403000)
  else if a = 0x401030 then some .ret
  else if a = 0x403000 then some .startproc
  else if a = 0x403013 then some .ret
  else none

def nop : Unit → Cpu → Except Fault Cpu := fun _ c => .ok (c.jump (c.rip + 1))

/-- The first function, at `a`, before and after the call. Its return address is zero, in a
page of its call stack. -/
def callingAt (a : Word) : Source where
  cpu := (Execution.beforeCall.cpu.on (Execution.beforeCall.cpu.machine.withMem
    (mapZero (fun _ => none) .other 0x7FFFFFFFB000 4096))).jump a
  frames := [⟨0x7FFFFFFFB808, 0⟩]

section Calling

variable {ι : Type} {code : Code ι} {meaning : ι → Cpu → Except Fault Cpu} {i : ι} {g : Word}

/-- The call and both returns, wherever the function called is. -/
theorem calling_run (hi : ∀ c, meaning i c = .ok (c.jump (c.rip + 1)))
    (hstartproc : code 0x401000 = some .startproc) (hother : code 0x401013 = some (.other i))
    (hdirect : code 0x401014 = some (.directCall g))
    (hcallee : code (g + BitVec.ofNat 64 spaLengthOfProtectedPrologue) = some .ret)
    (hret : code 0x401030 = some .ret) :
    ∃ s', (callingAt 0x401000).Run code meaning (fun _ _ => False) 0 0x7FFFFFFFE000
      [.startproc, .other i, .directCall g, .ret, .ret] s' ∧ s'.cpu.rip = 0 := by
  have hzero : load64 (callingAt 0x401000).cpu.machine.mem 0x7FFFFFFFB808 = some 0 := by decide
  have hmapped : Mapped (callingAt 0x401014).cpu.machine.mem (callingAt 0x401014).cpu.pushed 8 := by
    decide
  have hself : load64 (storeN (callingAt 0x401014).cpu.machine.mem
      (callingAt 0x401014).cpu.pushed 8 (0x401030 : Word).toNat)
        (callingAt 0x401014).cpu.pushed = some 0x401030 := load64_storeN_self hmapped
  have hback : load64 (storeN (callingAt 0x401014).cpu.machine.mem
      (callingAt 0x401014).cpu.pushed 8 (0x401030 : Word).toNat) 0x7FFFFFFFB808 = some 0 :=
    (load64_storeN_apart (by decide)).trans hzero
  have hslot : HasSlot 0x7FFFFFFFE000 (callingAt 0x401014).cpu.pushed :=
    ⟨by decide, (by decide : InRange (callStackBase 0x7FFFFFFFE000) metadataOffsetOnShadowStack
      0x7FFFFFFFB800)⟩
  have hbelow : stackOffset 0x7FFFFFFFE000 (callingAt 0x401014).cpu.pushed <
      stackOffset 0x7FFFFFFFE000 0x7FFFFFFFB808 := by decide
  have hroom : (callingAt 0x401014).HasRoom 0x7FFFFFFFE000 := by
    refine ⟨hslot, hmapped, ?_⟩
    rintro f ⟨⟩
    exact hbelow
  let called : Source :=
    ⟨(callingAt 0x401014).cpu.entering 0x401030
      (g + BitVec.ofNat 64 spaLengthOfProtectedPrologue), (callingAt 0x401014).push 0x401030⟩
  let returned : Source :=
    ⟨(called.cpu.setReg .rsp (called.cpu.rsp + BitVec.ofNat 64 spaCpuWordLength)).jump 0x401030,
      (callingAt 0x401014).frames⟩
  have hstart : (callingAt 0x401000).Step code meaning (fun _ _ => False) 0 0x7FFFFFFFE000
      .startproc (callingAt 0x401013) := .startproc rfl ⟨rfl, hzero⟩ rfl
  have hnop : (callingAt 0x401013).Step code meaning (fun _ _ => False) 0 0x7FFFFFFFE000
      (.other i) (callingAt 0x401014) := .other (hi _)
  have hcall : (callingAt 0x401014).Step code meaning (fun _ _ => False) 0 0x7FFFFFFFE000
      (.directCall g) called := .directCall hroom (enters_mapped hmapped)
  have hinner : called.Step code meaning (fun _ _ => False) 0 0x7FFFFFFFE000 .ret returned :=
    .ret rfl ⟨rfl, hself⟩ False.elim (plainStep_ret hself)
  let finished : Source :=
    ⟨(returned.cpu.setReg .rsp (returned.cpu.rsp + BitVec.ofNat 64 spaCpuWordLength)).jump 0, []⟩
  have houter : returned.Step code meaning (fun _ _ => False) 0 0x7FFFFFFFE000 .ret finished :=
    .ret rfl ⟨rfl, hback⟩ False.elim (plainStep_ret hback)
  exact ⟨_, .cons hstartproc hstart (.cons hother hnop (.cons hdirect hcall
    (.cons hcallee hinner (.cons hret houter (.nil _))))), rfl⟩

theorem calling_conventions (hi : ∀ c, meaning i c = .ok (c.jump (c.rip + 1)))
    (hcode : ∀ a stmt, code a = some stmt →
      stmt = .startproc ∨ stmt = .other i ∨ stmt = .directCall g ∨ stmt = .ret)
    (hg : code g = some .startproc) : Conventions code meaning (fun _ _ => False) 0 where
  startproc _ _ := ⟨fun _ => False.elim, fun _ => False.elim⟩
  call c g hcall := by
    have hcases := hcode _ _ hcall
    simp at hcases
  directCall c g hcall := by
    have hcases := hcode _ _ hcall
    simp only [reduceCtorEq, Stmt.directCall.injEq, false_or, or_false] at hcases
    subst hcases
    exact ⟨hg, False.elim, fun _ => False.elim⟩
  indirectCall c op length hcall := by
    have hcases := hcode _ _ hcall
    simp at hcases
  other a j hother := by
    have hcases := hcode _ _ hother
    simp only [reduceCtorEq, Stmt.other.injEq, false_or, or_false] at hcases
    subst hcases
    rintro c c' d - hunshadowed hagree hd
    rw [hi] at hd
    obtain rfl := Except.ok.inj hd
    exact ⟨hunshadowed, _, hi _, ⟨congrArg (· + 1) hagree.rip, hagree.regs, hagree.flags,
      hagree.program⟩, Undisturbed.refl 0 _⟩

/-- A thread that has just started has nothing but its shadow stack. -/
theorem started_other (t : Tid) (r0 ss x : Word) :
    ownerOf (Machine.started t r0 ss).mem x ≠ some .other := by
  simp only [Machine.started, ownerOf_storeN]
  by_cases hx : InRange ss realShadowStackSize x
  · simp [ownerOf, mapZero_inside hx]
  · simp [ownerOf, mapZero_outside hx]

theorem calling_related (hcode : code 0x401000 = some .startproc) :
    Related code (fun _ _ => False) 0 0x7FFFFFFFE000 (callingAt 0x401000)
      Execution.beforeCall.cpu := by
  obtain ⟨ss, slots, hthread⟩ := Execution.beforeCall_initial.1
  have hslot : HasSlot 0x7FFFFFFFE000 0x7FFFFFFFB808 := ⟨by decide, by decide⟩
  refine related_start hcode rfl ⟨rfl, fun _ _ => rfl, fun _ => rfl, ?_⟩ ?_ hslot
    (fun _ => False.elim) hthread
  · intro x b
    by_cases hx : InRange 0x7FFFFFFFB000 4096 x
    · simp only [callingAt, Execution.beforeCall, Cpu.on, Cpu.jump, Machine.withMem_mem,
        mapZero_inside hx]
    · simp only [callingAt, Execution.beforeCall, Cpu.on, Cpu.jump, Machine.withMem_mem,
        mapZero_outside hx]
      constructor
      · intro hnone
        cases hnone
      · intro hcell
        refine absurd ?_ (started_other 0 0x7FFFFFFFE000 0x10000000 x)
        rw [ownerOf, hcell]
        rfl
  · intro t x
    have hmem : (callingAt 0x401000).cpu.machine.mem =
        mapZero (fun _ => none) .other 0x7FFFFFFFB000 4096 := rfl
    rw [hmem, ownerOf]
    by_cases hx : InRange 0x7FFFFFFFB000 4096 x
    · rw [mapZero_inside hx]
      simp
    · rw [mapZero_outside hx]
      simp

end Calling

theorem callingCode_some {a : Word} {stmt : Stmt Unit} (h : callingCode a = some stmt) :
    stmt = .startproc ∨ stmt = .other () ∨ stmt = .directCall 0x403000 ∨ stmt = .ret := by
  unfold callingCode at h
  split_ifs at h
  all_goals
    cases h
    simp

/-- The shadow stack is re-randomized at the beginning, and in the function called. -/
def callingEvents : List Instrumented.Event :=
  [.rerandomize 0x7FFFFFFFB000 0x7FFFFFFFA000 (System.willing 0x20000000), .go, .go, .go,
    .rerandomize 0x7FFFFFFFB000 0x7FFFFFFFA000 (System.willing 0x30000000), .go, .go]

theorem calling_allowed {step : Instrumented.Event → Cpu → Except Fault Cpu} (c : Cpu) :
    Along step (Instrumented.Allowed 0 0x7FFFFFFFE000) callingEvents c := by
  refine along_of_forall (fun e he c => ?_) c
  simp only [callingEvents, List.mem_cons, List.not_mem_nil, or_false] at he
  rcases he with rfl | rfl | rfl | rfl | rfl | rfl | rfl
  · exact ⟨by decide, fun _ => rfl⟩
  · trivial
  · trivial
  · trivial
  · exact ⟨by decide, fun _ => rfl⟩
  · trivial
  · trivial

theorem instrumented_simulates_calling :
    ∃ s', (callingAt 0x401000).Run callingCode nop (fun _ _ => False) 0 0x7FFFFFFFE000
        [.startproc, .other (), .directCall 0x403000, .ret, .ret] s' ∧ s'.cpu.rip = 0 ∧
      ∃ c', runAll (Instrumented.step callingCode nop 0)
        [.rerandomize 0x7FFFFFFFB000 0x7FFFFFFFA000 (System.willing 0x20000000), .go, .go, .go,
          .rerandomize 0x7FFFFFFFB000 0x7FFFFFFFA000 (System.willing 0x30000000), .go, .go]
        Execution.beforeCall.cpu = .ok c' ∧
        Related callingCode (fun _ _ => False) 0 0x7FFFFFFFE000 s' c' := by
  obtain ⟨s', hrun, hrip⟩ := @calling_run Unit callingCode nop () 0x403000 (fun _ => rfl)
    rfl rfl rfl rfl rfl
  have hconv : Conventions callingCode nop (fun _ _ => False) 0 :=
    calling_conventions (fun _ => rfl) (fun _ _ => callingCode_some) rfl
  refine ⟨s', hrun, hrip, instrumented_simulates hconv (calling_related rfl) hrun rfl
    (calling_allowed _)⟩

end FlashStack.Asm
