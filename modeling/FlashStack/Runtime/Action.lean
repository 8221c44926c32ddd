/-
What a protected thread does between two calls of the initialisation and exit code: prologue
stores, epilogue loads, stores of the program, re-randomizations.

The actions are the effects of the inserted sequences and of the runtime on memory, without
registers: which value a prologue stores is an argument. That the sequences have these
effects is shown with the instructions. A store of the program may go anywhere but to shadow
stacks, mapped or not.

* `StackAt … slots`: the assertion that carries a thread through its actions: its region and
  GS base agree, and the slot of every stack pointer holds what `slots` records. `ThreadAt`
  is the same between two calls of the runtime;
* `Action.step_thread`: the step lemma: an action of a thread does not fail, and takes the
  assertion to itself with the action recorded;
* `Kept`, `Undisturbed`: what the action leaves to every other thread, and `OwnStep`, what
  it promises;
* `Action.step_faults`: the one re-randomization that fails.

Re-randomizations run below the stack pointer of the initialisation (`Action.Allowed`) and
have their `arch_prctl` succeed (`Action.Completes`); what happens without this is said in
the modules on the GS base and on atomicity.
-/

import FlashStack.Runtime.Lifecycle

namespace FlashStack.Runtime

open Lib.Memory Lib.Program

/-! ### Actions -/

/-- The values last stored by the prologues of one thread, by stack pointer; `none` where none has
stored yet. -/
abbrev Slots := Word → Option Word

inductive Action where
  /-- The prologue stores the return address `v` in the slot of `rsp`. -/
  | prologue (rsp v : Word)
  /-- The epilogue loads the slot of `rsp`. -/
  | epilogue (rsp : Word)
  /-- A store of the program, of `n` bytes. -/
  | write (a : Word) (n v : Nat)
  | rerandomize (rsp rspAlloc : Word) (env : Env)

/-- The value an epilogue of thread `t` at `rsp` loads, through the GS base and so without looking
at the metadata. -/
def epilogueLoad (m : Machine) (t : Tid) (rsp : Word) : Except Fault Word :=
  m.load t (slotAddr (m.threads t).gs rsp)

def Action.step (t : Tid) (m : Machine) : Action → Except Fault Machine
  | .prologue rsp v => m.store t (slotAddr (m.threads t).gs rsp) v
  | .epilogue rsp =>
      match epilogueLoad m t rsp with
      | .error e => .error e
      | .ok _ => .ok m
  | .write a n v => .ok (m.withMem (storeN m.mem a n v))
  | .rerandomize rsp rspAlloc env =>
      match run (exec t env) (gsRspRuntimeRerandomize rsp rspAlloc) m with
      | .error e => .error e
      | .ok (_, m') => .ok m'

def Action.isWrite : Action → Bool
  | .write _ _ _ => true
  | _ => false

/-- A prologue overwrites what is recorded for its stack pointer. -/
def Action.record (slots : Slots) : Action → Slots
  | .prologue rsp v => Function.update slots rsp (some v)
  | _ => slots

/-- The stores of the program stay outside the shadow stacks, which it has no pointers to. They
may reach memory that is not mapped. -/
def OutsideShadow (m : Machine) (a : Word) (n : Nat) : Prop :=
  n ≤ 2 ^ 64 ∧ ∀ x, InRange a n x → ∀ u, ownerOf m.mem x ≠ some (.shadow u)

theorem outsideShadow_of_other {m : Machine} {a : Word} (h : OwnedBy m.mem .other a 8) :
    OutsideShadow m a 8 := by
  refine ⟨by decide, fun x hx u => ?_⟩
  rw [(ownedBy_iff (by decide)).mp h x hx]
  simp

/-- The actions of a thread that was started at `r0`: slots in range, stores outside, and
re-randomizations below `r0`. -/
def Action.Allowed (r0 : Word) (m : Machine) : Action → Prop
  | .prologue rsp _ => HasSlot r0 rsp
  | .epilogue rsp => HasSlot r0 rsp
  | .write a n _ => OutsideShadow m a n
  | .rerandomize rsp _ _ => BelowStart r0 rsp

/-- Where an action of thread `t` moves the region, when it gets that far. -/
def Action.target (t : Tid) (m : Machine) : Action → Option Word
  | .rerandomize rsp rspAlloc env =>
      moveTarget env rspAlloc m.mem (m.metadata (shadowStackByRsp rsp (m.threads t).gs))
  | _ => none

/-- `arch_prctl(ARCH_SET_GS)` succeeds where an action gets to it. Without this a re-randomization
faults. -/
def Action.Completes (t : Tid) (m : Machine) : Action → Prop
  | .rerandomize rsp rspAlloc env =>
      Action.target t m (.rerandomize rsp rspAlloc env) ≠ none → env.setGs = true
  | _ => True

/-! ### What other threads keep -/

/-- Everything mapped as the shadow stack of `u` is as it was, and nothing else has become part of
it. -/
def Kept (u : Tid) (m m' : Space Owner) : Prop :=
  ∀ x c, c.owner = .shadow u → (m x = some c ↔ m' x = some c)

theorem OthersKept.kept {t u : Tid} {m m' : Space Owner} (h : OthersKept t m m') (hu : u ≠ t) :
    Kept u m m' := by
  intro x c hc
  apply h x c
  rw [hc]
  intro heq
  exact hu (Owner.shadow.inj heq)

theorem Kept.refl (u : Tid) (m : Space Owner) : Kept u m m := fun _ _ _ => Iff.rfl

theorem Kept.ownerOf_iff {u : Tid} {m m' : Space Owner} (h : Kept u m m') (x : Word) :
    ownerOf m x = some (.shadow u) ↔ ownerOf m' x = some (.shadow u) := by
  simp only [ownerOf_eq_some]
  constructor
  · rintro ⟨c, hc, hown⟩
    exact ⟨c, (h x c hown).mp hc, hown⟩
  · rintro ⟨c, hc, hown⟩
    exact ⟨c, (h x c hown).mpr hc, hown⟩

theorem Kept.byteOf_eq {u : Tid} {m m' : Space Owner} (h : Kept u m m') {x : Word}
    (hx : ownerOf m x = some (.shadow u)) : byteOf m' x = byteOf m x := by
  obtain ⟨c, hc, hown⟩ := ownerOf_eq_some.mp hx
  rw [byteOf, byteOf, hc, (h x c hown).mp hc]

/-- A store outside the shadow stacks keeps all of them. -/
theorem kept_write {m : Machine} {a : Word} {n v : Nat} (h : OutsideShadow m a n) (u : Tid) :
    Kept u m.mem (storeN m.mem a n v) := by
  intro x c hc
  by_cases hx : InRange a n x
  · have hno := h.2 x hx u
    constructor
    · intro hm
      exact absurd (by simp [ownerOf, hm, hc]) hno
    · intro hm
      rw [← ownerOf_storeN m.mem a x n v] at hno
      exact absurd (by simp [ownerOf, hm, hc]) hno
  · rw [storeN_outside hx]

/-- So does mapping free memory for the program. -/
theorem kept_mapOther {m : Space Owner} {a : Word} {n : Nat}
    (hfree : ∀ x, InRange a n x → m x = none) (u : Tid) : Kept u m (mapZero m .other a n) := by
  intro x c hc
  by_cases hx : InRange a n x
  · rw [mapZero_inside hx, hfree x hx]
    constructor
    · intro h
      cases h
    · intro h
      cases h
      cases hc
  · rw [mapZero_outside hx]

theorem ShadowRegion.of_kept {m m' : Space Owner} {u : Tid} {ss : Word} {fresh : Option Word}
    {md : Field → Word} {content : Nat → Byte} (h : ShadowRegion m u ss fresh md content)
    (hkept : Kept u m m') : ShadowRegion m' u ss fresh md content :=
  h.transport (fun x => (hkept.ownerOf_iff x).symm.trans (h.owns x)) h.apart fun _ hk =>
    hkept.byteOf_eq ((h.owns _).mpr (Or.inl (inRange_add hk realShadowStackSize_le)))

theorem NoShadow.of_kept {m m' : Machine} {u : Tid} (h : NoShadow m u)
    (hkept : Kept u m.mem m'.mem) : NoShadow m' u :=
  fun x hx => h x ((hkept.ownerOf_iff x).mpr hx)

/-- The state of thread `u` is as it was: its shadow stack, its GS base, and whether it is
initialised. -/
structure Undisturbed (u : Tid) (m m' : Machine) : Prop where
  kept : Kept u m.mem m'.mem
  thread : m'.threads u = m.threads u

theorem Undisturbed.refl (u : Tid) (m : Machine) : Undisturbed u m m := ⟨Kept.refl u m.mem, rfl⟩

/-- Only the shadow stack and the registers of thread `t` may have changed. It is what a step of a
thread promises to the others. -/
structure OwnStep (t : Tid) (m m' : Machine) : Prop where
  others : OthersKept t m.mem m'.mem
  threads : ∀ u, u ≠ t → m'.threads u = m.threads u
  threadInfo : m'.threadInfo = m.threadInfo

theorem OwnStep.undisturbed {t : Tid} {m m' : Machine} (h : OwnStep t m m') (u : Tid)
    (hu : u ≠ t) : Undisturbed u m m' :=
  ⟨h.others.kept hu, h.threads u hu⟩

/-! ### Coherence -/

section Coherence

variable {m m' : Machine} {t : Tid} {r0 ss : Word} {md : Field → Word} {content : Nat → Byte}

/-- A prologue store changes the content of the region and nothing else. -/
theorem Coherent.prologue {rsp v : Word} (h : Coherent m t r0 ss md content)
    (hslot : IsSlotOffset (rsp - callStackBase r0).toNat)
    (hstep : (Action.prologue rsp v).step t m = .ok m') :
    ∃ content', Coherent m' t r0 ss md content' := by
  have hown : OwnedBy m.mem (.shadow t) (slotAddr (m.threads t).gs rsp) 8 := by
    rw [h.gs, slotAddr_offset]
    exact h.region.owned (le_trans hslot (by decide))
  obtain rfl := Except.ok.inj ((Machine.store_owned hown).symm.trans hstep)
  obtain ⟨content', hregion⟩ := h.region.store_slot hslot v
  rw [h.gs, slotAddr_offset]
  exact ⟨content', ⟨⟨hregion, h.aligned, h.gs, h.inited⟩, h.describes⟩⟩

/-- Nor does a thread that is left undisturbed lose its coherence. -/
theorem Coherent.of_undisturbed (h : Coherent m t r0 ss md content)
    (hm : Undisturbed t m m') : Coherent m' t r0 ss md content where
  region := h.region.of_kept hm.kept
  aligned := h.aligned
  gs := by rw [hm.thread]; exact h.gs
  inited := by rw [hm.thread]; exact h.inited
  describes := h.describes

end Coherence

/-! ### The assertion of a thread -/

structure StackAt (m : Machine) (t : Tid) (r0 ss : Word) (fresh : Option Word)
    (md : Field → Word) (slots : Slots) : Prop where
  anchored : ∃ content, Anchored m t r0 ss fresh md content
  aligned : r0.toNat % 8 = 0
  holds : ∀ rsp v, slots rsp = some v →
    HasSlot r0 rsp ∧ load64 m.mem (slotAddr (initDiff ss r0) rsp) = some v

/-- The assertion of a thread between runtime calls, with its region at `ss`: no second region is
mapped for it, and its metadata is in order. -/
def ThreadAt (m : Machine) (t : Tid) (r0 ss : Word) (slots : Slots) : Prop :=
  ∃ md, StackAt m t r0 ss none md slots ∧ Describes md r0 ss

theorem ThreadAt.coherent {m : Machine} {t : Tid} {r0 ss : Word} {slots : Slots}
    (h : ThreadAt m t r0 ss slots) : ∃ md content, Coherent m t r0 ss md content := by
  obtain ⟨md, hstack, hdesc⟩ := h
  obtain ⟨content, hm⟩ := hstack.anchored
  exact ⟨md, content, hm, hdesc⟩

/-- The word at a slot depends only on the content of the region. -/
theorem ShadowRegion.load_slot {m m' : Space Owner} {t : Tid} {ss ss' : Word}
    {fresh fresh' : Option Word} {md md' : Field → Word} {content : Nat → Byte}
    (h : ShadowRegion m t ss fresh md content) (h' : ShadowRegion m' t ss' fresh' md' content)
    {k : Nat} (hk : IsSlotOffset k) :
    load64 m' (ss' + BitVec.ofNat 64 k) = load64 m (ss + BitVec.ofNat 64 k) := by
  have hk' : k + 8 ≤ realShadowStackSize := le_trans hk (by decide)
  apply load64_congr
  intro i hi
  have hmeta : ¬ IsMetadataOffset (k + i) := by
    unfold IsSlotOffset at hk
    unfold IsMetadataOffset
    omega
  rw [BitVec.add_assoc, BitVec.add_assoc, ← BitVec.ofNat_add, h.bytes _ (by omega) hmeta,
    h'.bytes _ (by omega) hmeta]

namespace StackAt

variable {m m' : Machine} {t : Tid} {r0 ss ss' rsp a : Word} {n : Nat}
  {fresh fresh' : Option Word} {md md' : Field → Word} {content : Nat → Byte} {slots : Slots}

/-- The assertion goes wherever the content of the region goes. -/
theorem of_content (h : StackAt m t r0 ss fresh md slots)
    (hm : ShadowRegion m.mem t ss fresh md content)
    (hm' : Anchored m' t r0 ss' fresh' md' content) : StackAt m' t r0 ss' fresh' md' slots where
  anchored := ⟨content, hm'⟩
  aligned := h.aligned
  holds rsp v hv := by
    obtain ⟨hslot, hload⟩ := h.holds rsp v hv
    refine ⟨hslot, ?_⟩
    rw [slotAddr_offset] at hload ⊢
    rw [hm.load_slot hm'.region (hslot.isSlotOffset h.aligned)]
    exact hload

theorem of_undisturbed (h : StackAt m t r0 ss fresh md slots) (hu : Undisturbed t m m') :
    StackAt m' t r0 ss fresh md slots := by
  obtain ⟨content, hm⟩ := h.anchored
  refine h.of_content hm.region ⟨hm.region.of_kept hu.kept, hm.aligned, ?_, ?_⟩
  · rw [hu.thread]
    exact hm.gs
  · rw [hu.thread]
    exact hm.inited

/-- The slot of a stack pointer belongs to the thread. -/
theorem slot_owned (h : StackAt m t r0 ss fresh md slots) (hslot : HasSlot r0 rsp) :
    OwnedBy m.mem (.shadow t) (slotAddr (m.threads t).gs rsp) 8 := by
  obtain ⟨content, hm⟩ := h.anchored
  rw [hm.gs, slotAddr_offset]
  exact hm.region.owned (le_trans (hslot.isSlotOffset h.aligned) (by decide))

/-- An epilogue load returns what is recorded for its stack pointer, at any address the region has
moved to. -/
theorem epilogueLoad_eq (h : StackAt m t r0 ss fresh md slots) {v : Word}
    (hv : slots rsp = some v) : epilogueLoad m t rsp = .ok v := by
  obtain ⟨content, hm⟩ := h.anchored
  obtain ⟨hslot, hload⟩ := h.holds rsp v hv
  rw [← hm.gs] at hload
  exact Machine.load_owned (h.slot_owned hslot) hload

theorem epilogue (h : StackAt m t r0 ss fresh md slots) (hslot : HasSlot r0 rsp) :
    (Action.epilogue rsp).step t m = .ok m := by
  have hown := h.slot_owned hslot
  obtain ⟨v, hv⟩ := load64_isSome hown.mapped
  simp only [Action.step, epilogueLoad, Machine.load_owned hown hv]

/-- A prologue store changes its own slot. -/
theorem prologue (h : StackAt m t r0 ss fresh md slots) (hslot : HasSlot r0 rsp) (v : Word) :
    ∃ m', (Action.prologue rsp v).step t m = .ok m' ∧
      StackAt m' t r0 ss fresh md (Function.update slots rsp (some v)) ∧ OwnStep t m m' := by
  obtain ⟨content, hm⟩ := h.anchored
  have hown := h.slot_owned hslot
  have hoff := hslot.isSlotOffset h.aligned
  refine ⟨_, Machine.store_owned hown, ⟨?_, h.aligned, ?_⟩,
    othersKept_storeN (by decide) hown, fun _ _ => rfl, rfl⟩
  · obtain ⟨content', hregion⟩ := hm.region.store_slot hoff v
    rw [hm.gs, slotAddr_offset]
    exact ⟨content', hregion, hm.aligned, hm.gs, hm.inited⟩
  · intro rsp' v' hv'
    rw [hm.gs]
    rw [hm.gs] at hown
    by_cases heq : rsp' = rsp
    · subst heq
      rw [Function.update_self, Option.some.injEq] at hv'
      subst hv'
      exact ⟨hslot, load64_storeN_self hown.mapped⟩
    · rw [Function.update_of_ne heq] at hv'
      obtain ⟨hslot', hload⟩ := h.holds rsp' v' hv'
      refine ⟨hslot', ?_⟩
      have hapart : Apart (slotAddr (initDiff ss r0) rsp) (slotAddr (initDiff ss r0) rsp') :=
        slotAddr_apart hslot.aligned hslot'.aligned (Ne.symm heq)
      exact (load64_storeN_apart hapart).trans hload

/-- A store of the program leaves every thread undisturbed, since it goes to no shadow stack. -/
theorem write (hout : OutsideShadow m a n) (v : Nat) :
    ∃ m', (Action.write a n v).step t m = .ok m' ∧ (∀ u, Undisturbed u m m') ∧
      m'.threadInfo = m.threadInfo :=
  ⟨_, rfl, fun u => ⟨kept_write hout u, rfl⟩, rfl⟩

theorem target_eq {rspAlloc : Word} {env : Env} (h : StackAt m t r0 ss fresh md slots)
    (hrsp : BelowStart r0 rsp) :
    Action.target t m (.rerandomize rsp rspAlloc env) = moveTarget env rspAlloc m.mem md := by
  obtain ⟨content, hm⟩ := h.anchored
  rw [Action.target, hm.gs, shadowStackByRsp_initDiff hm.aligned hrsp, hm.metadata]

/-- A re-randomization takes the region to its target, or leaves it where it is. -/
theorem rerandomize {rspAlloc : Word} {env : Env} (h : StackAt m t r0 ss none md slots)
    (hdesc : Describes md r0 ss) (hrsp : BelowStart r0 rsp)
    (hset : moveTarget env rspAlloc m.mem md ≠ none → env.setGs = true) :
    ∃ m' md', (Action.rerandomize rsp rspAlloc env).step t m = .ok m' ∧
      StackAt m' t r0 ((moveTarget env rspAlloc m.mem md).getD ss) none md' slots ∧
      Describes md' r0 ((moveTarget env rspAlloc m.mem md).getD ss) ∧ OwnStep t m m' := by
  obtain ⟨content, hm⟩ := h.anchored
  have hcoherent : Coherent m t r0 ss md content := ⟨hm, hdesc⟩
  cases htarget : moveTarget env rspAlloc m.mem md with
  | none =>
      obtain ⟨m', md', hrun, hprog, hsame⟩ := run_stays hcoherent hrsp htarget
      have hthread : ∀ u, m'.threads u = m.threads u := fun u => by rw [hprog.threads]
      refine ⟨m', md', by rw [Action.step, hrun], ?_, hdesc.of_sameButCycles hsame,
        hprog.others, fun u _ => hthread u, hprog.threadInfo⟩
      refine h.of_content hm.region ⟨hprog.region, hm.aligned, ?_, ?_⟩
      · rw [hthread]
        exact hm.gs
      · rw [hthread]
        exact hm.inited
  | some new =>
      obtain ⟨m', md', hrun, hcoherent', hothers, hthreads, hinfo⟩ :=
        run_moves_done hcoherent hrsp htarget (hset (by simp [htarget]))
      exact ⟨m', md', by rw [Action.step, hrun],
        h.of_content hm.region hcoherent'.toAnchored, hcoherent'.describes,
        hothers, hthreads, hinfo⟩

end StackAt

theorem ThreadAt.of_undisturbed {m m' : Machine} {t : Tid} {r0 ss : Word} {slots : Slots}
    (h : ThreadAt m t r0 ss slots) (hund : Undisturbed t m m') : ThreadAt m' t r0 ss slots := by
  obtain ⟨md, hstack, hdesc⟩ := h
  exact ⟨md, hstack.of_undisturbed hund, hdesc⟩

/-- A store to a word of the program. -/
theorem ThreadAt.store_other {m : Machine} {t : Tid} {r0 ss a : Word} {slots : Slots}
    (h : ThreadAt m t r0 ss slots) (howned : OwnedBy m.mem .other a 8) (v : Nat) :
    ThreadAt (m.withMem (storeN m.mem a 8 v)) t r0 ss slots :=
  h.of_undisturbed ⟨kept_write (outsideShadow_of_other howned) t, rfl⟩

/-- **One action of one thread.** It does not fail, it is recorded, the region is
where the action takes it, and the other threads are left undisturbed. Unless it is a
store of the program, nothing outside the shadow stack changes. -/
theorem Action.step_thread {m : Machine} {t : Tid} {r0 ss : Word} {slots : Slots}
    (h : ThreadAt m t r0 ss slots) {a : Action} (ha : a.Allowed r0 m)
    (hdone : a.Completes t m) :
    ∃ m', a.step t m = .ok m' ∧
      ThreadAt m' t r0 ((a.target t m).getD ss) (a.record slots) ∧
      (∀ u, u ≠ t → Undisturbed u m m') ∧ m'.threadInfo = m.threadInfo ∧
      (a.isWrite = false → OthersKept t m.mem m'.mem) := by
  obtain ⟨md, hstack, hdesc⟩ := h
  cases a with
  | prologue rsp v =>
      obtain ⟨m', hstep, hstack', hown⟩ := hstack.prologue ha v
      exact ⟨m', hstep, ⟨md, hstack', hdesc⟩, hown.undisturbed, hown.threadInfo,
        fun _ => hown.others⟩
  | epilogue rsp =>
      exact ⟨m, hstack.epilogue ha, ⟨md, hstack, hdesc⟩, fun u _ => Undisturbed.refl u m, rfl,
        fun _ => OthersKept.refl t m.mem⟩
  | write addr n v =>
      obtain ⟨m', hstep, hall, hinfo⟩ := StackAt.write (t := t) ha v
      exact ⟨m', hstep, ⟨md, hstack.of_undisturbed (hall t), hdesc⟩, fun u _ => hall u, hinfo,
        fun hwrite => by cases hwrite⟩
  | rerandomize rsp rspAlloc env =>
      have htarget : Action.target t m (.rerandomize rsp rspAlloc env) =
          moveTarget env rspAlloc m.mem md := hstack.target_eq ha
      rw [Action.Completes, htarget] at hdone
      rw [htarget]
      obtain ⟨m', md', hstep, hstack', hdesc', hown⟩ := hstack.rerandomize hdesc ha hdone
      exact ⟨m', hstep, ⟨md', hstack', hdesc'⟩, hown.undisturbed, hown.threadInfo,
        fun _ => hown.others⟩

/-- Actions do not unmap the memory of the program: what they move or unmap are shadow stacks. -/
theorem Action.keeps_other {m m' : Machine} {t : Tid} {a : Action} {x : Word}
    (hstep : a.step t m = .ok m') (hkept : a.isWrite = false → OthersKept t m.mem m'.mem)
    (h : OwnedBy m.mem .other x 8) : OwnedBy m'.mem .other x 8 := by
  intro k hk
  cases hwrite : a.isWrite with
  | false => exact ((hkept hwrite).ownerOf_iff (by simp) _).mp (h k hk)
  | true =>
      cases a with
      | write addr n v =>
          obtain rfl : m.withMem (storeN m.mem addr n v) = m' := Except.ok.inj hstep
          rw [Machine.withMem_mem, ownerOf_storeN]
          exact h k hk
      | prologue _ _ => cases hwrite
      | epilogue _ => cases hwrite
      | rerandomize _ _ _ => cases hwrite

/-- An action that gets to `arch_prctl(ARCH_SET_GS)` without completing faults. -/
theorem Action.step_faults {m : Machine} {t : Tid} {r0 ss : Word} {slots : Slots}
    (h : ThreadAt m t r0 ss slots) {a : Action} (ha : a.Allowed r0 m)
    (hnot : ¬ a.Completes t m) : ∃ e, a.step t m = .error e := by
  obtain ⟨md, hstack, hdesc⟩ := h
  obtain ⟨content, hm⟩ := hstack.anchored
  cases a with
  | rerandomize rsp rspAlloc env =>
      rw [Action.Completes, hstack.target_eq ha, Classical.not_imp, Bool.not_eq_true] at hnot
      obtain ⟨new, htarget⟩ := Option.ne_none_iff_exists'.mp hnot.1
      have hrun := run_moves_faults ⟨hm, hdesc⟩ ha htarget hnot.2
      exact ⟨_, by rw [Action.step, hrun]⟩
  | prologue _ _ => exact absurd trivial hnot
  | epilogue _ => exact absurd trivial hnot
  | write _ _ _ => exact absurd trivial hnot

end FlashStack.Runtime
