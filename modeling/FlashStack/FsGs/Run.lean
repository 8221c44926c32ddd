/-
Runs of a thread in the fs/gs mode.

A thread is initialised, and then enters and leaves functions, re-randomizes, and has the
rest of the process change whatever is outside its own two mappings. A build may also set
the counter that decides about moves.

* `atRest_init`: what `do_init_shadow_stack` leaves behind, whatever the kernel answers;
* `Step`, `Reachable`: prologues, epilogues, re-randomizations and the rest of the process,
  under a condition on the steps that each result chooses for itself;
* `AtRest.elsewhere`, `AtRest.prologue`: the steps that are not calls of the runtime;
* `reachable_atRest`: in a run whose moves keep the shadow stack, the thread is at rest
  behind every step, by induction on the run.

What is live is kept beside the machine: for each stack pointer the return address that its
latest prologue encoded. The code reads none of it. Whether it can be decoded again is not
asked here, since a value change may lose it without any damage to the regions. The last
section builds a first thread, from memory in which nothing is mapped, for the examples of
the later modules.
-/

import FlashStack.FsGs.Rerandomize

namespace FlashStack.FsGs

open Lib.Memory Lib.Pages

/-! ### Initialisation -/

/-- Two fresh mappings, as the source asks for them. -/
theorem Fresh.holds {m : Machine} {p ss : Word} (hinited : m.inited = true)
    (hss : Fresh (m.mapZero p realMetaDataSize) ss realShadowStackSize) {m' : Machine}
    (hm' : (m.mapZero p realMetaDataSize).mapZero ss realShadowStackSize = m') :
    Holds { m' with saved := ss } p ss (m'.get p) (fun off => m'.mem.word (ss + off)) := by
  subst hm'
  have hpage : Protected (m.mapZero p realMetaDataSize).mem p realMetaDataSize .readWrite :=
    m.mem.protected_mapZero
  have hapart := (hss.noOverlap (hpage.mapped (by decide))).symm
  exact {
    inited := hinited
    saved := rfl
    aligned := hss.aligned
    low := hss.low
    page := (Paged.protected_mapZero_of_noOverlap _ hapart hpage).mapped (by decide)
    region := Paged.protected_mapZero _
    apart := hapart
    fields := fun _ => rfl
    words := fun _ _ => rfl }

theorem Holds.clear {m : Machine} {p ss : Word} {md : Field → Word} {slots : Word → Word}
    (h : Holds m p ss md slots) : ∃ md', Holds (clear p m) p ss md' slots := by
  unfold FsGs.clear
  generalize Field.all = fs
  induction fs generalizing m md with
  | nil => exact ⟨md, h⟩
  | cons f fs ih => exact ih (h.set f 0)

theorem clear_saved (m : Machine) (p ss : Word) :
    { clear p m with saved := ss } = clear p { m with saved := ss } := by
  unfold clear
  generalize Field.all = fs
  induction fs generalizing m with
  | nil => rfl
  | cons f fs ih => exact ih (m.set p f 0)

theorem Holds.setCallStackInfo {m : Machine} {p ss : Word} {md : Field → Word}
    {slots : Word → Word} (h : Holds m p ss md slots) (hss : md .shadowStack = ss)
    (stackLow stackSize : Word) :
    Holds (setCallStackInfo p stackLow stackSize m) p ss
      (Function.update (Function.update (Function.update md .callStackTop
        (stackHigh stackLow stackSize)) .shadowStackTop (ss + callStackSize)) .state
        flashStackInited) slots := by
  have htop := h.set .callStackTop (stackHigh stackLow stackSize)
  have hget : (m.set p .callStackTop (stackHigh stackLow stackSize)).get p .shadowStack = ss :=
    (htop.fields _).trans hss
  rw [FsGs.setCallStackInfo, hget]
  exact (htop.set .shadowStackTop (ss + callStackSize)).set .state flashStackInited

/-- **After the initialisation** the thread is at rest: the fields say where its two mappings are,
and the mappings are apart. -/
theorem atRest_init {k : Stack} {env : Env} {fuel : Nat} {m m' : Machine}
    (hinited : m.inited = false)
    (hrun : initShadowStack env fuel k.r0 k.stackLow k.stackSize m = some m') :
    ∃ p ss md slots, AtRest k m' p ss md slots ∧ md .cpuCycles = 0 := by
  rw [initShadowStack, hinited, if_neg (by decide)] at hrun
  obtain ⟨⟨p, m₁⟩, hp, hpage⟩ := Option.bind_eq_some_iff.mp hrun
  obtain ⟨⟨ss, m₂⟩, hss, hregion⟩ := Option.bind_eq_some_iff.mp hpage
  obtain ⟨-, rfl⟩ := getMemoryAtRandom_spec fuel 0 hp
  obtain ⟨hfresh, hm₂⟩ := getMemoryAtRandom_spec fuel 0 hss
  obtain ⟨md, hclear⟩ := (Fresh.holds rfl hfresh hm₂.symm).clear
  rw [← clear_saved] at hclear
  have hfields := (((((((hclear.set .selfAddr p).set .diff (ss + callStackSize - k.r0)).set
    .shadowStack ss).set .cpuCycles 0).set .isRandomizing 0).set .ratioFactor
    defaultChangingMovingRatio).set .r env.rdrand).setGs p
  have hinfo := hfields.setCallStackInfo rfl k.stackLow k.stackSize
  obtain rfl := Option.some.inj hregion
  refine ⟨p, ss, _, _, {
    toHolds := hinfo
    gs := rfl
    describes := fun f v hf => ?_
    idle := by simp }, by simp⟩
  cases f with
  | selfAddr | diff | shadowStack | shadowStackTop | callStackTop | state =>
      obtain rfl := Option.some.inj hf
      simp [Stack.top]
  | r | isRandomizing | cpuCycles | ratioFactor | savedDiff | relaxing => exact nomatch hf

/-! ### Steps -/

/-- A thread, and the return address that the latest prologue at each stack pointer of a live
activation encoded. -/
structure State where
  machine : Machine
  live : Word → Option Word

/-- The rest of the process changes whatever it likes outside the metadata page and the shadow
stack. -/
structure Elsewhere (m m' : Machine) : Prop where
  gs : m'.gs = m.gs
  inited : m'.inited = m.inited
  saved : m'.saved = m.saved
  page : ∀ x, InRange m.gs realMetaDataSize x →
    m'.mem.word x = m.mem.word x ∧ m'.mem.prot x = m.mem.prot x
  region : ∀ x, InRange m.saved realShadowStackSize x →
    m'.mem.word x = m.mem.word x ∧ m'.mem.prot x = m.mem.prot x

inductive Action where
  | elsewhere (m : Machine)
  | prologue (r : Word)
  | leave (r : Word)
  | ratio (v : Word)
  | rerandomize (env : Env) (fuel : Nat) (rsp : Word)

/-- The steps of thread `k`. A function is left through its epilogue, or past it. The build
chooses the values of `ratio_factor`. -/
inductive Step (k : Stack) (msr : Bool) : State → Action → State → Prop where
  | elsewhere {s : State} {m : Machine} (h : Elsewhere s.machine m) :
      Step k msr s (.elsewhere m) { s with machine := m }
  | prologue {s : State} {r : Word} (hr : k.InStack r) :
      Step k msr s (.prologue r)
        { machine := prologue msr r s.machine
          live := Function.update s.live r (some (s.machine.mem.word r)) }
  | leave {s : State} (r : Word) :
      Step k msr s (.leave r) { s with live := Function.update s.live r none }
  | ratio {s : State} (v : Word) :
      Step k msr s (.ratio v)
        { s with machine := s.machine.set s.machine.gs .ratioFactor v }
  | rerandomize {s : State} {env : Env} {fuel : Nat} {rsp : Word} {m : Machine}
      (hrsp : k.InStack rsp) (hlive : ∀ r, (s.live r).isSome = true → rsp.toNat ≤ r.toNat)
      (hrun : fsgsRuntimeRerandomize msr env fuel rsp s.machine = some m) :
      Step k msr s (.rerandomize env fuel rsp) { s with machine := m }

/-- The states of the runs whose actions all meet `cond`. The condition may depend on the state
before the action. -/
inductive Reachable (k : Stack) (msr : Bool) (cond : State → Action → Prop) : State → Prop where
  | init {env : Env} {fuel : Nat} {m m' : Machine} (hinited : m.inited = false)
      (hrun : initShadowStack env fuel k.r0 k.stackLow k.stackSize m = some m') :
      Reachable k msr cond ⟨m', fun _ => none⟩
  | step {s s' : State} {a : Action} (h : Reachable k msr cond s) (hcond : cond s a)
      (hstep : Step k msr s a s') : Reachable k msr cond s'

/-- The metadata that the thread uses: the block that its GS base points to. -/
def State.metadata (s : State) : Field → Word := s.machine.get s.machine.gs

/-- No prologue writes to the metadata page, and every move has its `mremap`. This is enough for
the thread to stay at rest. -/
def Kept (s : State) : Action → Prop
  | .prologue r => ¬ InRange s.machine.gs realMetaDataSize (r + s.metadata .diff)
  | .rerandomize env _ _ =>
      elapsed env (s.metadata .cpuCycles) = true → Moves s.metadata → env.mremap = true
  | _ => True

section Steps

variable {k : Stack} {m m' : Machine} {p ss : Word} {md : Field → Word} {slots : Word → Word}

theorem AtRest.elsewhere (h : AtRest k m p ss md slots) (he : Elsewhere m m') :
    AtRest k m' p ss md slots := by
  obtain ⟨hgs, hinited, hsaved, hpage, hregion⟩ := he
  rw [h.gs] at hgs hpage
  rw [h.saved] at hsaved hregion
  exact {
    inited := hinited.trans h.inited
    saved := hsaved
    aligned := h.aligned
    low := h.low
    page := fun x hx => (hpage x hx).2.trans_ne (h.page x hx)
    region := fun x hx => (hregion x hx).2.trans (h.region x hx)
    apart := h.apart
    fields := fun f => (hpage _ (inRange_field p f)).1.trans (h.fields f)
    words := fun off hoff => (hregion _ (inRange_offset hoff)).1.trans (h.words off hoff)
    gs := hgs
    describes := h.describes
    idle := h.idle }

/-- A store outside the metadata page; it may be to the shadow stack. -/
theorem AtRest.store (h : AtRest k m p ss md slots) {a : Word}
    (ha : ¬ InRange p realMetaDataSize a) (v : Word) :
    AtRest k { m with mem := m.mem.set a v } p ss md (Function.update slots (a - ss) v) :=
  { h with
    fields := fun f => by
      have hne : p + f.offset ≠ a := fun heq => ha (heq ▸ inRange_field p f)
      exact (m.mem.set_of_ne hne).trans (h.fields f)
    words := fun off hoff => by
      by_cases hsame : off = a - ss
      · have haddr : ss + off = a := by grind
        rw [haddr, hsame, Function.update_self]
        exact m.mem.set_self _ _
      · rw [Function.update_of_ne hsame]
        refine (m.mem.set_of_ne fun heq => hsame ?_).trans (h.words off hoff)
        grind }

/-- The fields that describe the regions, for a thread at rest. -/
theorem AtRest.get_place (h : AtRest k m p ss md slots) {f : Field} {v : Word}
    (hf : place k p ss f = some v) : m.get m.gs f = v := by
  rw [h.gs, h.fields, h.describes f v hf]

/-- The address of a slot. -/
theorem AtRest.add_diff (h : AtRest k m p ss md slots) (r : Word) :
    r + m.get m.gs .diff = ss + k.slotOffset r := by
  have hdiff : m.get m.gs .diff = ss + callStackSize - k.r0 := h.get_place rfl
  rw [hdiff, Stack.slotOffset]
  grind

/-- **A prologue** stores the return address, with the random value, in its slot. -/
theorem AtRest.prologue (h : AtRest k m p ss md slots) {r : Word} (msr : Bool)
    (hr : ¬ InRange p realMetaDataSize (r + m.get m.gs .diff)) :
    AtRest k (prologue msr r m) p ss md (Function.update slots (k.slotOffset r)
      (randomAfter msr (md .r) (m.mem.word r))) := by
  have hoff : ss + k.slotOffset r - ss = k.slotOffset r := by grind
  have hvalue : (if msr then m.mem.word r + m.get m.gs .r else m.mem.word r) =
      randomAfter msr (md .r) (m.mem.word r) := by
    rw [h.gs, h.fields]
    rfl
  have hrun : FsGs.prologue msr r m = { m with
      mem := m.mem.set (ss + k.slotOffset r) (randomAfter msr (md .r) (m.mem.word r)) } := by
    rw [FsGs.prologue]
    simp only [h.add_diff, hvalue]
  rw [h.add_diff] at hr
  have hstore := h.store hr (randomAfter msr (md .r) (m.mem.word r))
  rwa [hoff, ← hrun] at hstore

theorem AtRest.ratio (h : AtRest k m p ss md slots) (v : Word) :
    AtRest k (m.set m.gs .ratioFactor v) p ss (Function.update md .ratioFactor v) slots := by
  rw [h.gs]
  exact { h.toHolds.set .ratioFactor v with
    gs := h.gs
    describes := h.describes.update rfl v
    idle := h.idle }

/-- A thread at rest passes the tests before the call. -/
theorem AtRest.enters (h : AtRest k m p ss md slots) : entersRerandomize m = true := by
  have hself : m.get m.gs .selfAddr = p := h.get_place rfl
  have hstate : m.get m.gs .state = flashStackInited := h.get_place rfl
  rw [h.gs] at hstate
  have hidle : m.get p .isRandomizing = 0 := by rw [h.fields, h.idle]
  simp [entersRerandomize, hself, hstate, hidle, h.inited]

theorem AtRest.call_eq (h : AtRest k m p ss md slots) (msr : Bool) (env : Env) (fuel : Nat)
    (rsp : Word) :
    fsgsRuntimeRerandomize msr env fuel rsp m = rerandomize msr env fuel rsp p m := by
  have hself : m.get m.gs .selfAddr = p := h.get_place rfl
  rw [fsgsRuntimeRerandomize, if_pos h.enters, hself]

/-- One call, for a thread at rest: in time or too early, it leaves a thread at rest, with the
slots that the change of the value makes of them. -/
theorem AtRest.call_spec (h : AtRest k m p ss md slots) {msr : Bool} {env : Env} {fuel : Nat}
    {rsp : Word} (hrsp : k.InStack rsp)
    (hrun : fsgsRuntimeRerandomize msr env fuel rsp m = some m')
    (hmremap : elapsed env (md .cpuCycles) = true → Moves md → env.mremap = true) :
    (elapsed env (md .cpuCycles) = false ∧ AtRest k m' p ss md slots) ∨
      (elapsed env (md .cpuCycles) = true ∧
        ∃ p' ss' md', AtRest k m' p' ss' md' (slotsAfter k msr rsp env.rdrand slots) ∧
          md' .r = randomAfter msr env.rdrand (md .r)) := by
  rw [h.call_eq] at hrun
  rcases rerandomize_spec h hrsp hrun with hearly | hrest | hlost
  · exact Or.inl ⟨hearly.1, hearly.2.1⟩
  · obtain ⟨helapsed, -, p', ss', md', hrest, hr, -⟩ := hrest
    exact Or.inr ⟨helapsed, p', ss', md', hrest, hr⟩
  · obtain ⟨helapsed, hmoves, hfails, -⟩ := hlost
    rw [hmremap helapsed hmoves] at hfails
    cases hfails

theorem AtRest.metadata_eq {s : State} (h : AtRest k s.machine p ss md slots) :
    s.metadata = md := by
  funext f
  rw [State.metadata, h.gs, h.fields]

/-- What an action makes of the random value and of the words of the shadow stack. -/
def Effect (k : Stack) (msr : Bool) (s : State) (md : Field → Word) (slots : Word → Word)
    (r' : Word) (slots' : Word → Word) : Action → Prop
  | .prologue r => r' = md .r ∧ slots' = Function.update slots (k.slotOffset r)
      (randomAfter msr (md .r) (s.machine.mem.word r))
  | .rerandomize env _ rsp =>
      if elapsed env (md .cpuCycles) then
        r' = randomAfter msr env.rdrand (md .r) ∧ slots' = slotsAfter k msr rsp env.rdrand slots
      else r' = md .r ∧ slots' = slots
  | _ => r' = md .r ∧ slots' = slots

/-- **Every step** leaves the thread at rest, and what it does to the shadow stack. -/
theorem atRest_step {msr : Bool} {s s' : State} {a : Action}
    (h : AtRest k s.machine p ss md slots) (hkept : Kept s a) (hstep : Step k msr s a s') :
    ∃ p' ss' md' slots', AtRest k s'.machine p' ss' md' slots' ∧
      Effect k msr s md slots (md' .r) slots' a := by
  cases hstep with
  | elsewhere he => exact ⟨p, ss, md, slots, h.elsewhere he, rfl, rfl⟩
  | prologue hr =>
      have hout := hkept
      rw [Kept, State.metadata, h.gs] at hout
      exact ⟨p, ss, md, _, h.prologue msr (by rwa [h.gs]), rfl, rfl⟩
  | leave r => exact ⟨p, ss, md, slots, h, rfl, rfl⟩
  | ratio v => exact ⟨p, ss, _, slots, h.ratio v, rfl, rfl⟩
  | rerandomize hrsp hlive hrun =>
      rw [Kept, h.metadata_eq] at hkept
      rcases h.call_spec hrsp hrun hkept with ⟨hearly, hrest⟩ | ⟨hlate, p', ss', md', hrest, hr⟩
      · exact ⟨p, ss, md, slots, hrest, by simp [Effect, hearly]⟩
      · exact ⟨p', ss', md', _, hrest, by simp [Effect, hlate, hr]⟩

/-- **At every state** of a run the thread is at rest, by induction on the run; each step is one
of the lemmas on `AtRest`. -/
theorem reachable_atRest {msr : Bool} {s : State} (h : Reachable k msr Kept s) :
    ∃ p ss md slots, AtRest k s.machine p ss md slots := by
  induction h with
  | init hinited hrun =>
      obtain ⟨p, ss, md, slots, hrest, -⟩ := atRest_init hinited hrun
      exact ⟨p, ss, md, slots, hrest⟩
  | step hs hkept hstep ih =>
      obtain ⟨p, ss, md, slots, hrest⟩ := ih
      obtain ⟨p', ss', md', slots', hrest', -⟩ := atRest_step hrest hkept hstep
      exact ⟨p', ss', md', slots', hrest'⟩

end Steps

/-! ### A first thread -/

/-- When the kernel has room, the initialisation returns; it takes two mappings. -/
theorem exists_init {env : Env} {m : Machine} {p ss : Word} (hinited : m.inited = false)
    (hpage : ∀ hint, env.mmap 0 0 hint = some p) (hregion : ∀ hint, env.mmap 1 0 hint = some ss)
    (hp : Fresh { m with inited := true } p realMetaDataSize)
    (hss : Fresh (Machine.mapZero { m with inited := true } p realMetaDataSize) ss
      realShadowStackSize) (rsp stackLow stackSize : Word) :
    ∃ m', initShadowStack env 1 rsp stackLow stackSize m = some m' ∧
      m'.mem.prot = ((m.mem.mapZero p realMetaDataSize).mapZero ss realShadowStackSize).prot := by
  rw [initShadowStack, hinited, if_neg (by decide), getMemoryAtRandom_of_fresh hpage hp 0]
  simp only [Option.bind_eq_bind, Option.bind_some, getMemoryAtRandom_of_fresh hregion hss 0]
  exact ⟨_, rfl, rfl⟩

/-- A call stack whose top is at `0x7ffff8000000`, initialised one page below. -/
def firstStack : Stack where
  stackLow := 0x7ffff7800000
  stackSize := callStackSize
  r0 := 0x7ffff7fff000
  r0_aligned := by decide
  r0_high := by decide

/-- A stack pointer one page below that of the initialisation, for the runs at the end. -/
def firstRsp : Word := 0x7ffff7ffe000

theorem inStack_firstRsp : firstStack.InStack firstRsp := ⟨by decide, by decide, by decide⟩

/-- A machine without memory. The thread that starts on it has mapped nothing. -/
def emptyMachine : Machine := ⟨⟨fun _ => 0, fun _ => .none⟩, 0, false, 0⟩

/-- A kernel that answers with `page` and `region`. -/
def firstEnv (rdtsc rdrand page region : Word) : Env where
  rdtsc := rdtsc
  rdrand := rdrand
  rdrandAt _ _ := 0
  mmap call _ _ := some (if call = 0 then page else region)
  mremap := true

/-- Two gigabytes apart, a page and a shadow stack have nothing in common. -/
theorem not_inRange_apart {a b : Word} {n j : Nat} (hn : n ≤ realShadowStackSize)
    (hj : j ≤ realShadowStackSize) (hab : a.toNat + 2 ^ 31 ≤ b.toNat) (hb : b.toNat ≤ 2 ^ 47)
    {i : Nat} (hi : i < j) : ¬ InRange a n (b + BitVec.ofNat 64 i) := by
  unfold InRange
  unfold realShadowStackSize defBuddyCallStackSize at *
  bv_omega

/-- A thread that has just been initialised, with room for another page and shadow stack. -/
theorem exists_first (rdtsc rdrand : Word) :
    ∃ m, emptyMachine.inited = false ∧
      initShadowStack (firstEnv rdtsc rdrand 0x7f0000000000 0x7f1000000000) 1 firstStack.r0
        firstStack.stackLow firstStack.stackSize emptyMachine = some m ∧
      Fresh m 0x7f2000000000 realMetaDataSize ∧
      Fresh (m.mapZero 0x7f2000000000 realMetaDataSize) 0x7f3000000000 realShadowStackSize := by
  have hp : Fresh { emptyMachine with inited := true } 0x7f0000000000 realMetaDataSize :=
    ⟨by decide, by decide, fun _ _ => rfl⟩
  have hss : Fresh (Machine.mapZero { emptyMachine with inited := true } 0x7f0000000000
      realMetaDataSize) 0x7f1000000000 realShadowStackSize :=
    ⟨by decide, by decide, fun i hi =>
      if_neg (not_inRange_apart (by decide) (by decide) (by decide) (by decide) hi)⟩
  obtain ⟨m, hm, hprot⟩ := @exists_init
    (firstEnv rdtsc rdrand 0x7f0000000000 0x7f1000000000) emptyMachine _ _ rfl (fun _ => rfl)
    (fun _ => rfl) hp hss firstStack.r0 firstStack.stackLow firstStack.stackSize
  have hfree : ∀ x, ¬ InRange 0x7f1000000000 realShadowStackSize x →
      ¬ InRange 0x7f0000000000 realMetaDataSize x → m.mem.prot x = .none := by
    intro x hregion hpage
    rw [hprot]
    exact (if_neg hregion).trans (if_neg hpage)
  refine ⟨m, rfl, hm, ⟨by decide, by decide, fun i hi => hfree _ ?_ ?_⟩,
    ⟨by decide, by decide, fun i hi => (if_neg ?_).trans (hfree _ ?_ ?_)⟩⟩
  all_goals exact not_inRange_apart (by decide) (by decide) (by decide) (by decide) hi

end FlashStack.FsGs
