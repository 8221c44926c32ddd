/-
Any number of threads under the runtime, in any order of steps.

A state is the machine and, for each thread, the stack pointer it was initialised at. A step
is the initialisation of a thread or one action of it; a re-randomization is a single step
here, and the module on interference takes it apart. The abstract system only remembers what
was last stored in each slot; the invariant `Inv` relates the two, and every step keeps it
(`step_inv`).

* `shadow_stack_coherence`: no run fails, every epilogue loads what the latest prologue at
  its stack pointer stored, and after every run each thread has one region, which its GS
  base and its metadata describe.

The memory of the first state is arbitrary but that no shadow stack is mapped in it. Threads
may be initialised at any time, and a second time, which does nothing. `Allowed` collects
what the steps rest on: aligned stack pointers, stores outside shadow stacks, slots in
range, and `arch_prctl`.

The invariant has one part for each thread, and a step touches the part of its own thread
only; what the others keep is `Undisturbed`. That the regions of two threads do not overlap
is not in it: it follows, because a byte has one owner (`Machine.OneRegion.disjoint`).
-/

import FlashStack.Lib.Events
import FlashStack.Runtime.Action

namespace FlashStack.Runtime

open Lib.Memory Lib.Program Lib.Events

structure System where
  machine : Machine
  /-- Where each initialised thread was initialised. -/
  start : Tid → Option Word

inductive Event where
  | init (t : Tid) (r0 rspAlloc : Word) (fuel : Nat) (env : Env)
  | act (t : Tid) (a : Action)

namespace System

def step : Event → System → Except Fault System
  | .init t r0 rspAlloc fuel env, s =>
      match run (exec t env) (initShadowStack fuel r0 rspAlloc) s.machine with
      | .error e => .error e
      | .ok (done, m) =>
          .ok
            { machine := m
              start := if done && !(s.machine.threads t).inited then
                  Function.update s.start t (some r0)
                else s.start }
  | .act t a, s =>
      match a.step t s.machine with
      | .error e => .error e
      | .ok m => .ok { s with machine := m }

/-- The steps a program takes: threads are initialised at an 8-byte-aligned stack
pointer, and act once they are. `arch_prctl` succeeds. -/
def Allowed : Event → System → Prop
  | .init _ r0 _ _ env, _ => r0.toNat % 8 = 0 ∧ env.setGs = true
  | .act t a, s =>
      (∃ r0, s.start t = some r0 ∧ a.Allowed r0 s.machine) ∧ a.Completes t s.machine

/-- Before the first runtime call: no thread is initialised. Memory is arbitrary. -/
structure Initial (s : System) : Prop where
  start : ∀ t, s.start t = none
  noShadow : ∀ t, NoShadow s.machine t
  inited : ∀ t, (s.machine.threads t).inited = false

/-! ### The abstract system -/

/-- The value a step stores in the slot of `rsp` of thread `t`; `none` for all steps but a
prologue there. -/
def storedAt (t : Tid) (rsp : Word) : Event → Option Word
  | .act t' (.prologue rsp' v) => if t' = t ∧ rsp' = rsp then some v else none
  | _ => none

/-- The value of the latest prologue store of `t` at `rsp` in a run. -/
def lastStored (es : List Event) (t : Tid) (rsp : Word) : Option Word :=
  es.reverse.findSome? (storedAt t rsp)

/-- What every thread last stored in its slots. It is the state of the abstract system, which
knows no memory. -/
abbrev Record := Tid → Slots

def record (slots : Record) (e : Event) : Record := fun t rsp =>
  (storedAt t rsp e).or (slots t rsp)

theorem foldl_record (es : List Event) (slots : Record) (t : Tid) (rsp : Word) :
    es.foldl record slots t rsp = (lastStored es t rsp).or (slots t rsp) := by
  induction es generalizing slots with
  | nil => rfl
  | cons e es ih =>
      rw [List.foldl_cons, ih]
      simp only [lastStored, List.reverse_cons, List.findSome?_append, List.findSome?_cons,
        List.findSome?_nil, record]
      cases es.reverse.findSome? (storedAt t rsp) with
      | some v => rfl
      | none => cases storedAt t rsp e <;> rfl

theorem record_act_self (slots : Record) (t : Tid) (a : Action) :
    record slots (.act t a) t = a.record (slots t) := by
  funext rsp
  cases a with
  | prologue rsp' v =>
      by_cases h : rsp' = rsp
      · subst h
        simp [record, storedAt, Action.record]
      · simp [record, storedAt, Action.record, h, Function.update_of_ne (Ne.symm h)]
  | epilogue _ => rfl
  | write _ _ _ => rfl
  | rerandomize _ _ _ => rfl

theorem record_act_other (slots : Record) {t u : Tid} (a : Action) (hu : u ≠ t) :
    record slots (.act t a) u = slots u := by
  funext rsp
  cases a with
  | prologue rsp' v => simp [record, storedAt, Ne.symm hu]
  | epilogue _ => rfl
  | write _ _ _ => rfl
  | rerandomize _ _ _ => rfl

/-! ### The invariant -/

structure Inv (s : System) (slots : Record) : Prop where
  started : ∀ t r0, s.start t = some r0 → ∃ ss, ThreadAt s.machine t r0 ss (slots t)
  notStarted : ∀ t, s.start t = none → NoShadow s.machine t ∧ ∀ rsp, slots t rsp = none

theorem Initial.inv {s : System} (h : s.Initial) : Inv s fun _ _ => none where
  started t r0 ht := by
    rw [h.start t] at ht
    cases ht
  notStarted t _ := ⟨h.noShadow t, fun _ => rfl⟩

/-- A step of thread `t` that leaves the others undisturbed keeps the invariant if
it does so for `t`. -/
theorem Inv.of_undisturbed {s s' : System} {slots slots' : Record} (h : Inv s slots) (t : Tid)
    (hothers : ∀ u, u ≠ t → Undisturbed u s.machine s'.machine ∧ s'.start u = s.start u ∧
      slots' u = slots u)
    (hstarted : ∀ r0, s'.start t = some r0 → ∃ ss, ThreadAt s'.machine t r0 ss (slots' t))
    (hnot : s'.start t = none → NoShadow s'.machine t ∧ ∀ rsp, slots' t rsp = none) :
    Inv s' slots' where
  started u r0 hu := by
    by_cases heq : u = t
    · subst heq
      exact hstarted r0 hu
    · obtain ⟨hund, hstart, hslots⟩ := hothers u heq
      rw [hstart] at hu
      rw [hslots]
      obtain ⟨ss, hthread⟩ := h.started u r0 hu
      exact ⟨ss, hthread.of_undisturbed hund⟩
  notStarted u hu := by
    by_cases heq : u = t
    · subst heq
      exact hnot hu
    · obtain ⟨hund, hstart, hslots⟩ := hothers u heq
      rw [hstart] at hu
      rw [hslots]
      obtain ⟨hno, hnone⟩ := h.notStarted u hu
      exact ⟨hno.of_kept hund.kept, hnone⟩

/-- A second initialisation does nothing. -/
theorem init_again {s : System} {t : Tid} (h : (s.machine.threads t).inited = true)
    (r0 rspAlloc : Word) (fuel : Nat) (env : Env) :
    step (.init t r0 rspAlloc fuel env) s = .ok s := by
  rw [step, initShadowStack_again h]
  simp [h]

theorem threadAt_of_coherent {m : Machine} {t : Tid} {r0 ss : Word} {md : Field → Word}
    {content : Nat → Byte} (h : Coherent m t r0 ss md content) (hr0 : r0.toNat % 8 = 0) :
    ThreadAt m t r0 ss fun _ => none :=
  ⟨md, ⟨⟨content, h.toAnchored⟩, hr0, fun _ _ hv => by cases hv⟩, h.describes⟩

/-- The initialisation of a new thread gives it the first region obtained, or leaves
it looking for one. -/
theorem init_new {s : System} {t : Tid} {r0 rspAlloc : Word} {fuel : Nat} {env : Env}
    (hno : NoShadow s.machine t) (hin : (s.machine.threads t).inited = false)
    (hset : env.setGs = true) :
    ∃ s', step (.init t r0 rspAlloc fuel env) s = .ok s' ∧
      OthersKept t s.machine.mem s'.machine.mem ∧
      (∀ u, u ≠ t → Undisturbed u s.machine s'.machine ∧ s'.start u = s.start u) ∧
      s'.machine.threadInfo = s.machine.threadInfo ∧ (s'.machine.threads t).inited = true ∧
      match firstPlacement env rspAlloc s.machine.mem fuel 0 with
      | some ss => s'.start t = some r0 ∧
          Coherent s'.machine t r0 ss (initialMetadata ss (initDiff ss r0)) fun _ => 0
      | none => s'.start t = s.start t ∧ NoShadow s'.machine t := by
  obtain ⟨done, m', hrun, ⟨hothers, hthreads, hinfo, hin'⟩, hdone, hregion⟩ :=
    initShadowStack_spec hno hin hset fuel
  have hstep : step (.init t r0 rspAlloc fuel env) s = .ok
      { machine := m', start := if done then Function.update s.start t (some r0)
          else s.start } := by
    rw [step, hrun]
    simp [hin]
  refine ⟨_, hstep, hothers, fun u hu => ⟨⟨hothers.kept hu, hthreads u hu⟩, ?_⟩, hinfo, hin', ?_⟩
  · cases done with
    | true => exact Function.update_of_ne hu _ _
    | false => rfl
  · cases hplace : firstPlacement env rspAlloc s.machine.mem fuel 0 with
    | none =>
        rw [hplace] at hregion
        exact ⟨by simp [hdone, hplace], hregion⟩
    | some ss =>
        rw [hplace] at hregion
        exact ⟨by simp [hdone, hplace], hregion⟩

/-- The initialisation of a thread keeps the invariant. -/
theorem init_inv {s : System} {slots : Record} (h : Inv s slots) {t : Tid} {r0 : Word}
    (hr0 : r0.toNat % 8 = 0) {env : Env} (hset : env.setGs = true) (rspAlloc : Word)
    (fuel : Nat) :
    ∃ s', step (.init t r0 rspAlloc fuel env) s = .ok s' ∧ Inv s' slots := by
  cases hin : (s.machine.threads t).inited with
  | true => exact ⟨s, init_again hin r0 rspAlloc fuel env, h⟩
  | false =>
      have hnew : s.start t = none := by
        cases ht : s.start t with
        | none => rfl
        | some r =>
            obtain ⟨ss, hthread⟩ := h.started t r ht
            obtain ⟨md, content, hm⟩ := hthread.coherent
            rw [hm.inited] at hin
            cases hin
      obtain ⟨hno, hslots⟩ := h.notStarted t hnew
      have hslots' : slots t = fun _ => none := funext hslots
      obtain ⟨s', hstep, -, hothers, -, -, hcase⟩ :=
        init_new hno hin hset
      refine ⟨s', hstep, h.of_undisturbed t (fun u hu =>
        ⟨(hothers u hu).1, (hothers u hu).2, rfl⟩) ?_ ?_⟩
      · intro r hr
        split at hcase
        · obtain rfl : r = r0 := Option.some.inj (hr.symm.trans hcase.1)
          rw [hslots']
          exact ⟨_, threadAt_of_coherent hcase.2 hr0⟩
        · rw [hcase.1, hnew] at hr
          cases hr
      · intro hr
        split at hcase
        · rw [hcase.1] at hr
          cases hr
        · exact ⟨hcase.2, hslots⟩

/-- **Every step keeps the invariant** and does not fail. One thread moves, by its own step lemma;
the others are undisturbed. -/
theorem step_inv (e : Event) (s : System) (slots : Record) (h : Inv s slots)
    (he : Allowed e s) : ∃ s', step e s = .ok s' ∧ Inv s' (record slots e) := by
  cases e with
  | init t r0 rspAlloc fuel env => exact init_inv h he.1 he.2 rspAlloc fuel
  | act t a =>
      obtain ⟨⟨r0, ht, ha⟩, hdone⟩ := he
      obtain ⟨ss, hthread⟩ := h.started t r0 ht
      obtain ⟨m', hstep, hthread', hothers, -⟩ := Action.step_thread hthread ha hdone
      refine ⟨{ s with machine := m' }, by rw [step, hstep], h.of_undisturbed t ?_ ?_ ?_⟩
      · exact fun u hu => ⟨hothers u hu, rfl, record_act_other slots a hu⟩
      · intro r hr
        obtain rfl : r = r0 := Option.some.inj (hr.symm.trans ht)
        rw [record_act_self]
        exact ⟨_, hthread'⟩
      · intro hr
        rw [ht] at hr
        cases hr

/-! ### Runs -/

/-- After every run the invariant holds, with the record of the run. The record is what an
abstract run of the same steps leaves. -/
theorem run_inv {s₀ : System} (h₀ : s₀.Initial) {es : List Event}
    (hes : Along step Allowed es s₀) :
    ∃ s, runAll step es s₀ = .ok s ∧ Inv s (lastStored es) := by
  obtain ⟨s, hrun, hinv⟩ := run_simulates record
    (fun e s slots h he => step_inv e s slots h he) h₀.inv hes
  have hrecord : es.foldl record (fun _ _ => none) = lastStored es := by
    funext t rsp
    rw [foldl_record, Option.or_none]
  rw [hrecord] at hinv
  exact ⟨s, hrun, hinv⟩

end System

/-- GS base, metadata and memory agree that the one region of `t` is at `ss`, and
the lookup from the stack of `t` finds it. -/
structure Machine.OneRegion (m : Machine) (t : Tid) (r0 ss : Word) : Prop where
  mapped : ∀ x, ownerOf m.mem x = some (.shadow t) ↔ InRange ss realShadowStackSize x
  gs : (m.threads t).gs = initDiff ss r0
  shadowStack :
    load64 m.mem (Field.shadowStack.addr (getGsRspMetadataByShadowStack ss)) = some ss
  diff :
    load64 m.mem (Field.diff.addr (getGsRspMetadataByShadowStack ss)) =
      some (m.threads t).gs
  isRandomizing :
    load64 m.mem (Field.isRandomizing.addr (getGsRspMetadataByShadowStack ss)) = some 0
  lookup : ∀ rsp, BelowStart r0 rsp → shadowStackByRsp rsp (m.threads t).gs = ss

theorem Coherent.oneRegion {m : Machine} {t : Tid} {r0 ss : Word} {md : Field → Word}
    {content : Nat → Byte} (h : Coherent m t r0 ss md content) : m.OneRegion t r0 ss where
  mapped x := by simpa using h.region.owns x
  gs := h.gs
  shadowStack := by rw [h.region.fields, h.describes.shadowStack]
  diff := by rw [h.region.fields, h.describes.diff, h.gs]
  isRandomizing := by rw [h.region.fields, h.describes.isRandomizing]
  lookup rsp hrsp := by rw [h.gs, shadowStackByRsp_initDiff h.aligned hrsp]

/-- The regions of two threads do not overlap. -/
theorem Machine.OneRegion.disjoint {m : Machine} {t u : Tid} {r0 r1 ss ss' : Word}
    (ht : m.OneRegion t r0 ss) (hu : m.OneRegion u r1 ss') (hne : t ≠ u) (x : Word)
    (hx : InRange ss realShadowStackSize x) : ¬ InRange ss' realShadowStackSize x := by
  intro hx'
  have htx := (ht.mapped x).mpr hx
  rw [(hu.mapped x).mpr hx'] at htx
  exact hne (Owner.shadow.inj (Option.some.inj htx)).symm

namespace System

/-- **Coherence of the shadow stacks.** Whatever the threads do, in whatever order,
and whatever the system calls answer: no step fails; an epilogue loads the value of
the latest prologue store at its stack pointer; and each thread has one region,
which its GS base and its metadata describe and no other thread shares. -/
theorem shadow_stack_coherence {s₀ : System} (h₀ : s₀.Initial) {es : List Event}
    (hes : Along step Allowed es s₀) :
    ∃ s, runAll step es s₀ = .ok s ∧
      (∀ t rsp v, lastStored es t rsp = some v → epilogueLoad s.machine t rsp = .ok v) ∧
      (∀ t r0, s.start t = some r0 → ∃ ss, s.machine.OneRegion t r0 ss) ∧
      ∀ t u r0 r1 ss ss', t ≠ u → s.machine.OneRegion t r0 ss → s.machine.OneRegion u r1 ss' →
        ∀ x, InRange ss realShadowStackSize x → ¬ InRange ss' realShadowStackSize x := by
  obtain ⟨s, hrun, hinv⟩ := run_inv h₀ hes
  refine ⟨s, hrun, ?_, ?_, fun t u r0 r1 ss ss' hne ht hu => ht.disjoint hu hne⟩
  · intro t rsp v hv
    cases ht : s.start t with
    | none => simp [(hinv.notStarted t ht).2 rsp] at hv
    | some r0 =>
        obtain ⟨ss, md, hstack, -⟩ := hinv.started t r0 ht
        exact hstack.epilogueLoad_eq hv
  · intro t r0 ht
    obtain ⟨ss, hthread⟩ := hinv.started t r0 ht
    obtain ⟨md, content, hm⟩ := hthread.coherent
    exact ⟨ss, hm.oneRegion⟩

/-! ### A run of one thread -/

/-- Nothing is mapped and no thread is initialised, as before the first constructor. -/
def empty : System where
  machine :=
    { mem := fun _ => none
      threads := fun _ => ⟨0, false⟩
      counters := fun _ => 0
      threadInfo := [] }
  start := fun _ => none

theorem empty_initial : empty.Initial where
  start _ := rfl
  noShadow _ _ := by simp [empty, ownerOf]
  inited _ := rfl

/-- Every system call succeeds, and `mmap` returns `a`. The clock stands still, long after zero.
-/
def willing (a : Word) : Env where
  rdtsc := fun _ => 0x10000000000
  rdrand := fun _ _ => 0
  mmap := fun _ _ => some a
  getGs := true
  setGs := true
  mremap := true

/-- The two regions of the sample runs do not overlap. -/
theorem apart_sample (x : Word) (hx : InRange 0x20000000 realShadowStackSize x) :
    ¬ InRange 0x10000000 realShadowStackSize x := by
  have hsize : realShadowStackSize = 10485760 := by decide
  rw [hsize] at hx ⊢
  unfold InRange at *
  bv_omega

/-- Initialise, call a function, re-randomize inside it, and return from it. -/
def callAndReturn : List Event :=
  [.init 0 0x7FFFFFFFE000 0x7FFFFFFFD000 1 (willing 0x10000000),
    .act 0 (.prologue 0x7FFFFFFFC000 0x401234),
    .act 0 (.rerandomize 0x7FFFFFFFB000 0x7FFFFFFFA000 (willing 0x20000000)),
    .act 0 (.epilogue 0x7FFFFFFFC000)]

theorem start_of_act {t : Tid} {a : Action} {s s' : System} (h : step (.act t a) s = .ok s') :
    s'.start = s.start := by
  rw [step] at h
  cases ha : a.step t s.machine with
  | error e =>
      rw [ha] at h
      cases h
  | ok m =>
      rw [ha] at h
      cases h
      rfl

/-- A willing kernel places a region wherever memory is free and the address
suits the runtime. -/
theorem placement_willing {mem : Space Owner} {rsp a : Word} (call : Nat)
    (hfits : a.toNat + realShadowStackSize ≤ 2 ^ 64) (hfree : Free mem a realShadowStackSize)
    (hok : rejected (rsp - BitVec.ofNat 64 (2 * realShadowStackSize)) a = false) :
    placement (willing a) call rsp mem realShadowStackSize = some a :=
  placement_of_first ⟨rfl, hfits, hfree, hok⟩

theorem firstPlacement_empty :
    firstPlacement (willing 0x10000000) 0x7FFFFFFFD000 empty.machine.mem 1 0 =
      some 0x10000000 := by
  have hfits : (0x10000000 : Word).toNat + realShadowStackSize ≤ 2 ^ 64 := by decide
  have hfree : Free empty.machine.mem 0x10000000 realShadowStackSize := fun _ _ => rfl
  have hok : rejected (0x7FFFFFFFD000 - BitVec.ofNat 64 (2 * realShadowStackSize)) 0x10000000 =
      false := by decide
  rw [firstPlacement, List.range'_one, List.findSome?_singleton]
  exact placement_willing 0 hfits hfree hok

/-- The first move of the sample runs. -/
theorem moveTarget_sample {mem : Space Owner}
    (hfree : Free mem 0x20000000 realShadowStackSize) :
    moveTarget (willing 0x20000000) 0x7FFFFFFFA000 mem
      (initialMetadata 0x10000000 (initDiff 0x10000000 0x7FFFFFFFE000)) = some 0x20000000 := by
  have hfits : (0x20000000 : Word).toNat + realShadowStackSize ≤ 2 ^ 64 := by decide
  have hok : rejected (0x7FFFFFFFA000 - BitVec.ofNat 64 (2 * realShadowStackSize)) 0x20000000 =
      false := by decide
  exact moveTarget_of_first (by decide) ⟨rfl, hfits, hfree, hok⟩ (by decide)

/-- An initialisation that obtains a region completes. -/
theorem start_of_init {s s' : System} {t : Tid} {r0 rspAlloc ss : Word} {fuel : Nat} {env : Env}
    (hno : NoShadow s.machine t) (hin : (s.machine.threads t).inited = false)
    (hset : env.setGs = true)
    (hplace : firstPlacement env rspAlloc s.machine.mem fuel 0 = some ss)
    (h : step (.init t r0 rspAlloc fuel env) s = .ok s') : s'.start t = some r0 := by
  obtain ⟨s₁, hstep, -, -, -, -, hcase⟩ :=
    init_new hno hin hset
  rw [h] at hstep
  cases hstep
  rw [hplace] at hcase
  exact hcase.1

theorem callAndReturn_allowed : Along step Allowed callAndReturn empty := by
  have hslot : HasSlot 0x7FFFFFFFE000 0x7FFFFFFFC000 := ⟨by decide, by decide⟩
  refine ⟨⟨by decide, rfl⟩, fun s₁ h₁ => ?_⟩
  have hstart₁ := start_of_init (empty_initial.noShadow 0) (empty_initial.inited 0) rfl
    firstPlacement_empty h₁
  refine ⟨⟨⟨_, hstart₁, hslot⟩, trivial⟩, fun s₂ h₂ => ?_⟩
  have hstart₂ := (congrFun (start_of_act h₂) 0).trans hstart₁
  refine ⟨⟨⟨_, hstart₂, (by decide : BelowStart _ _)⟩, fun _ => rfl⟩, fun s₃ h₃ => ?_⟩
  have hstart₃ := (congrFun (start_of_act h₃) 0).trans hstart₂
  exact ⟨⟨⟨_, hstart₃, hslot⟩, trivial⟩, fun _ _ => trivial⟩

theorem callAndReturn_coherent :
    ∃ s, runAll step callAndReturn empty = .ok s ∧
      epilogueLoad s.machine 0 0x7FFFFFFFC000 = .ok 0x401234 := by
  obtain ⟨s, hrun, hload, -⟩ := shadow_stack_coherence empty_initial callAndReturn_allowed
  exact ⟨s, hrun, hload 0 0x7FFFFFFFC000 0x401234 (by decide)⟩

end System

end FlashStack.Runtime
