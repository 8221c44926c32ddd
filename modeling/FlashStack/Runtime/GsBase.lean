/-
The GS base of a thread over whole runs.

`Reached` collects the states of a thread that was initialised at `r0`: it stores to its
slots, its region is re-randomized any number of times, and whatever happens besides leaves
the thread undisturbed. The stack pointers at which regions are placed are a parameter,
since how deep the stack is when `get_memory_at_random` runs is not known.

* `gs_base_in_range`: with all of them in `(20 MB, r0]`, every value computed for
  `arch_prctl(ARCH_SET_GS)` is in range, without overflow on the way, and every slot is in
  the region below its metadata;
* `metadata_lookup_iff`: the lookup from a frame of the thread finds its metadata if and
  only if the frame is below `r0`.

The arithmetic of the source is on `unsigned long` in some places and compared as signed in
one, so that a result in range has to be shown for both readings (`InitInRange`,
`MoveInRange`). A move is stated with the metadata found, and so it may also begin in a
frame from which the lookup would fail: the range of the values does not depend on that.
`region_unique` makes the region of a reached state a function of memory, for the
equivalence.
-/

import FlashStack.Runtime.Atomicity
import Mathlib.Algebra.Group.Int.Defs

namespace FlashStack.Runtime

open Lib.Memory Lib.Program

/-! ### Placements -/

/-- `get_memory_at_random`, called for a region at stack pointer `rsp`, can return `a`: for some
memory and some outcomes of `mmap` it does. -/
def Returnable (rsp a : Word) : Prop :=
  ∃ t env call init m m', run (exec t env) (getMemoryAtRandom call rsp realShadowStackSize init) m =
    .ok (some a, m')

theorem returnable_of_placement {env : Env} {call : Nat} {rsp a : Word} {m : Machine}
    (h : placement env call rsp m.mem realShadowStackSize = some a) : Returnable rsp a := by
  obtain ⟨addr, m', hrun, haddr, -⟩ :=
    getMemoryAtRandom_spec (t := 0) (m := m) realShadowStackSize_le
  rw [h] at haddr
  rw [haddr] at hrun
  exact ⟨0, env, call, true, m, m', hrun⟩

theorem Returnable.accepted {rsp a : Word} (h : Returnable rsp a) :
    rejected (rsp - BitVec.ofNat 64 (2 * realShadowStackSize)) a = false := by
  obtain ⟨t, env, call, init, m, m', hrun⟩ := h
  obtain ⟨addr, m'', hrun', haddr, -⟩ :=
    getMemoryAtRandom_spec (t := t) (m := m) realShadowStackSize_le
  rw [hrun] at hrun'
  obtain ⟨rfl, -⟩ := Prod.mk.inj (Except.ok.inj hrun')
  exact (placement_some haddr.symm).2

/-- The stack pointers in `(20 MB, r0]`. The first bound is that of the subtraction in
`get_memory_at_random`. -/
structure AtOrBelow (r0 rsp : Word) : Prop where
  above : 2 * realShadowStackSize < rsp.toNat
  below : rsp.toNat ≤ r0.toNat

/-- A region placed there ends at least 10 MB below the stack pointer. -/
theorem Returnable.below {rsp a : Word} (h : Returnable rsp a)
    (hrsp : 2 * realShadowStackSize < rsp.toNat) :
    a.toNat % 2 ^ 23 = 0 ∧ a.toNat + 2 * realShadowStackSize ≤ rsp.toNat := by
  obtain ⟨haligned, hle⟩ := accepted_iff.mp h.accepted
  refine ⟨haligned, ?_⟩
  have hsize : realShadowStackSize = 10485760 := by decide
  rw [hsize] at hle hrsp ⊢
  bv_omega

/-! ### Runs of one thread -/

/-- The shadow stack that a GS base belongs to: the inverse of `initDiff`. It is not how the
source finds it. -/
def ownShadowStack (r0 gs : Word) : Word :=
  gs - BitVec.ofNat 64 initShadowStackOffset - spaUserSpaceSize + r0

theorem ownShadowStack_initDiff (ss r0 : Word) : ownShadowStack r0 (initDiff ss r0) = ss := by
  unfold ownShadowStack initDiff
  grind

/-- The states of thread `t`, initialised at `r0`; `placedAt` says at which stack pointers
regions are placed. -/
inductive Reached (placedAt : Word → Prop) (t : Tid) (r0 : Word) : Machine → Prop where
  | init {m m' : Machine} {env : Env} {fuel : Nat} {rspAlloc : Word} (hnone : NoShadow m t)
      (hnew : (m.threads t).inited = false) (hset : env.setGs = true)
      (hplaced : placedAt rspAlloc)
      (hrun : run (exec t env) (initShadowStack fuel r0 rspAlloc) m = .ok (true, m')) :
      Reached placedAt t r0 m'
  /-- `gs_rsp_runtime_rerandomize`, which has found the metadata of the thread. -/
  | rerandomize {m m' : Machine} {env : Env} {rspAlloc : Word} (h : Reached placedAt t r0 m)
      (hget : env.getGs = true) (hplaced : placedAt rspAlloc)
      (hrun : run (exec t env) (rerandomizeFound
        (getGsRspMetadataByShadowStack (ownShadowStack r0 (m.threads t).gs)) rspAlloc
          (env.rdtsc .start)) m = .ok ((), m')) :
      Reached placedAt t r0 m'
  | prologue {m m' : Machine} {rsp v : Word} (h : Reached placedAt t r0 m)
      (hslot : IsSlotOffset (rsp - callStackBase r0).toNat)
      (hstep : (Action.prologue rsp v).step t m = .ok m') : Reached placedAt t r0 m'
  | others {m m' : Machine} (h : Reached placedAt t r0 m) (hm : Undisturbed t m m') :
      Reached placedAt t r0 m'

section Runs

variable {placedAt : Word → Prop} {t : Tid} {r0 ss : Word} {m m' : Machine} {env : Env}
  {md : Field → Word} {content : Nat → Byte}

theorem belowStart_callStackBase (r0 : Word) : BelowStart r0 (callStackBase r0) := by
  have hsize : defBuddyCallStackSize = 8388608 := by decide
  unfold BelowStart InRange
  rw [hsize]
  bv_omega

theorem Coherent.of_progress {md' : Field → Word} (h : Coherent m t r0 ss md content)
    (hprog : Progress m m' t ss none md' content) (hsame : SameButCycles md md') :
    Coherent m' t r0 ss md' content where
  region := hprog.region
  aligned := h.aligned
  gs := by rw [hprog.threads]; exact h.gs
  inited := by rw [hprog.threads]; exact h.inited
  describes := h.describes.of_sameButCycles hsame

/-- A re-randomization that returns leaves the thread coherent, with its region where it
was or where `get_memory_at_random` placed it. -/
theorem Coherent.rerandomizeFound {rspAlloc : Word} (h : Coherent m t r0 ss md content)
    (hget : env.getGs = true)
    (hrun : run (exec t env) (rerandomizeFound (getGsRspMetadataByShadowStack ss) rspAlloc
      (env.rdtsc .start)) m = .ok ((), m')) :
    ∃ ss' md', Coherent m' t r0 ss' md' content ∧ (ss' = ss ∨ Returnable rspAlloc ss') := by
  have hbase := belowStart_callStackBase r0
  rw [← run_found h.toAnchored hbase hget] at hrun
  cases htarget : moveTarget env rspAlloc m.mem md with
  | none =>
      obtain ⟨m₁, md', hrun₁, hprog, hsame⟩ := run_stays h hbase htarget
      obtain rfl := (Prod.mk.inj (Except.ok.inj (hrun₁.symm.trans hrun))).2
      exact ⟨ss, md', h.of_progress hprog hsame, Or.inl rfl⟩
  | some new =>
      cases hset : env.setGs with
      | true =>
          obtain ⟨m₁, md', hrun₁, h', -⟩ := run_moves_done h hbase htarget hset
          obtain rfl := (Prod.mk.inj (Except.ok.inj (hrun₁.symm.trans hrun))).2
          exact ⟨new, md', h', Or.inr (returnable_of_placement (moveTarget_some htarget).2.1)⟩
      | false =>
          have hfault := run_moves_faults h hbase htarget hset
          cases hfault.symm.trans hrun

/-- **In every state reached** GS base, metadata and memory agree on one region, which
`get_memory_at_random` has placed. -/
theorem Reached.coherent (h : Reached placedAt t r0 m) :
    ∃ ss md content, Coherent m t r0 ss md content ∧
      ∃ rsp, placedAt rsp ∧ Returnable rsp ss := by
  induction h with
  | @init m m' env fuel rspAlloc hnone hnew hset hplaced hrun =>
      obtain ⟨done, m₁, hrun₁, -, hdone, hcase⟩ :=
        initShadowStack_spec hnone hnew hset fuel
      obtain ⟨rfl, rfl⟩ := Prod.mk.inj (Except.ok.inj (hrun.symm.trans hrun₁))
      cases hplace : firstPlacement env rspAlloc m.mem fuel 0 with
      | none =>
          rw [hplace] at hdone
          cases hdone
      | some ss =>
          rw [hplace] at hcase
          obtain ⟨i, -, hi⟩ := List.exists_of_findSome?_eq_some hplace
          exact ⟨ss, _, _, hcase, rspAlloc, hplaced, returnable_of_placement hi⟩
  | @rerandomize m m' env rspAlloc h hget hplaced hrun ih =>
      obtain ⟨ss, md, content, hm, rsp, hrsp, hss⟩ := ih
      rw [hm.gs, ownShadowStack_initDiff] at hrun
      obtain ⟨ss', md', hm', rfl | hnew⟩ := hm.rerandomizeFound hget hrun
      · exact ⟨ss', md', content, hm', rsp, hrsp, hss⟩
      · exact ⟨ss', md', content, hm', rspAlloc, hplaced, hnew⟩
  | prologue h hslot hstep ih =>
      obtain ⟨ss, md, content, hm, hplaced⟩ := ih
      obtain ⟨content', hm'⟩ := hm.prologue hslot hstep
      exact ⟨ss, md, content', hm', hplaced⟩
  | others h hund ih =>
      obtain ⟨ss, md, content, hm, hplaced⟩ := ih
      exact ⟨ss, md, content, hm.of_undisturbed hund, hplaced⟩

/-- An initialisation that obtains a region. -/
theorem Reached.first (r0 : Word) {rspAlloc : Word} {fuel : Nat} (hnone : NoShadow m t)
    (hnew : (m.threads t).inited = false) (hset : env.setGs = true) (hplaced : placedAt rspAlloc)
    (hplace : firstPlacement env rspAlloc m.mem fuel 0 = some ss) :
    ∃ m', Reached placedAt t r0 m' ∧
      Coherent m' t r0 ss (initialMetadata ss (initDiff ss r0)) (fun _ => 0) ∧
      OthersKept t m.mem m'.mem := by
  obtain ⟨done, m', hrun, ⟨hothers, -⟩, hdone, hcoherent⟩ :=
    initShadowStack_spec hnone hnew hset fuel
  rw [hplace] at hdone hcoherent
  rw [hdone] at hrun
  exact ⟨m', .init hnone hnew hset hplaced hrun, hcoherent, hothers⟩

/-- A whole call from below `r0` is such a re-randomization. -/
theorem Reached.call {rsp rspAlloc : Word} (h : Reached placedAt t r0 m)
    (hrsp : BelowStart r0 rsp) (hget : env.getGs = true) (hplaced : placedAt rspAlloc)
    (hrun : run (exec t env) (gsRspRuntimeRerandomize rsp rspAlloc) m = .ok ((), m')) :
    Reached placedAt t r0 m' := by
  obtain ⟨ss, md, content, hm, -⟩ := h.coherent
  refine h.rerandomize hget hplaced ?_
  rw [hm.gs, ownShadowStack_initDiff, ← run_found hm.toAnchored hrsp hget]
  exact hrun

end Runs

/-! ### The arithmetic on the GS base -/

/-- A value above 0 and at most `MAX_GS_BASE_ADDR`, as a signed number, which is how the guard of
the source compares it. -/
def GsBaseInRange (v : Word) : Prop := 0 < v.toInt ∧ v.toInt ≤ maxGsBaseAddr.toInt

/-- The operations of `do_init_shadow_stack` on `diff`, in order, and their result. -/
structure InitInRange (ss r0 : Word) : Prop where
  addOffset : BitVec.saddOverflow ss (BitVec.ofNat 64 initShadowStackOffset) = false
  addSpace : BitVec.saddOverflow (ss + BitVec.ofNat 64 initShadowStackOffset)
    spaUserSpaceSize = false
  subRsp : BitVec.ssubOverflow
    (ss + BitVec.ofNat 64 initShadowStackOffset + spaUserSpaceSize) r0 = false
  inRange : GsBaseInRange (initDiff ss r0)

/-- The operations of `gs_rsp_runtime_rerandomize` on `delta` and `diff`, for a region
placed at `new`, and the answer of its guard. -/
structure MoveInRange (md : Field → Word) (new : Word) : Prop where
  delta : BitVec.ssubOverflow new (md .shadowStack) = false
  diff : BitVec.saddOverflow (md .diff) (new - md .shadowStack) = false
  rollBack : BitVec.ssubOverflow (md .diff + (new - md .shadowStack))
    (new - md .shadowStack) = false
  inRange : GsBaseInRange (md .diff + (new - md .shadowStack))
  guard : diffOutOfRange (md .diff + (new - md .shadowStack)) = false

theorem toInt_of_lt {x : Word} (h : x.toNat < 2 ^ 63) : x.toInt = x.toNat :=
  BitVec.toInt_eq_toNat_of_lt (by omega)

theorem saddOverflow_false {x y : Word} {a b : Int} (hx : x.toInt = a) (hy : y.toInt = b)
    (hlow : -2 ^ 63 ≤ a + b) (hhigh : a + b < 2 ^ 63) : BitVec.saddOverflow x y = false := by
  subst hx hy
  simp only [BitVec.saddOverflow, Bool.or_eq_false_iff, decide_eq_false_iff_not]
  exact ⟨Int.not_le.mpr hhigh, Int.not_lt.mpr hlow⟩

theorem ssubOverflow_false {x y : Word} {a b : Int} (hx : x.toInt = a) (hy : y.toInt = b)
    (hlow : -2 ^ 63 ≤ a - b) (hhigh : a - b < 2 ^ 63) : BitVec.ssubOverflow x y = false := by
  subst hx hy
  simp only [BitVec.ssubOverflow, Bool.or_eq_false_iff, decide_eq_false_iff_not]
  exact ⟨Int.not_le.mpr hhigh, Int.not_lt.mpr hlow⟩

section Range

variable {r0 ss new : Word} {md : Field → Word}

/-- The region at `ss` lies 20 MB below a user-space stack pointer `r0`. -/
structure Below20MB (r0 ss : Word) : Prop where
  start : r0.toNat < 2 ^ 47
  region : ss.toNat + 20971520 ≤ r0.toNat

theorem Below20MB.initDiff_toNat (h : Below20MB r0 ss) :
    (initDiff ss r0).toNat = ss.toNat + 8388608 + 2 ^ 47 - r0.toNat := by
  have hstart := h.start
  have hregion := h.region
  have hoffset : initShadowStackOffset = 8388608 := by decide
  unfold initDiff spaUserSpaceSize
  rw [hoffset]
  bv_omega

theorem Below20MB.initDiff_toInt (h : Below20MB r0 ss) :
    (initDiff ss r0).toInt = ss.toNat + 8388608 + 2 ^ 47 - r0.toNat := by
  have hstart := h.start
  have hregion := h.region
  rw [toInt_of_lt (by rw [h.initDiff_toNat]; omega), h.initDiff_toNat]
  omega

theorem Below20MB.gsBaseInRange (h : Below20MB r0 ss) : GsBaseInRange (initDiff ss r0) := by
  have hstart := h.start
  have hregion := h.region
  have hmax : maxGsBaseAddr.toInt = 140737488351231 := by decide
  rw [GsBaseInRange, hmax, h.initDiff_toInt]
  omega

/-- The arithmetic of `do_init_shadow_stack`. -/
theorem Below20MB.initInRange (h : Below20MB r0 ss) : InitInRange ss r0 := by
  have hstart := h.start
  have hregion := h.region
  have hoffset : (BitVec.ofNat 64 initShadowStackOffset : Word).toInt = 8388608 := by decide
  have hspace : spaUserSpaceSize.toInt = 2 ^ 47 := by decide
  have hss : ss.toInt = ss.toNat := toInt_of_lt (by omega)
  have hr0 : r0.toInt = r0.toNat := toInt_of_lt (by omega)
  have hslot := saddOverflow_false hss hoffset (by omega) (by omega)
  have hsum : (ss + BitVec.ofNat 64 initShadowStackOffset).toInt = ss.toNat + 8388608 := by
    rw [BitVec.toInt_add_of_not_saddOverflow (by rw [hslot]; decide), hss, hoffset]
  have hadd := saddOverflow_false hsum hspace (by omega) (by omega)
  have htotal : (ss + BitVec.ofNat 64 initShadowStackOffset + spaUserSpaceSize).toInt =
      ss.toNat + 8388608 + 2 ^ 47 := by
    rw [BitVec.toInt_add_of_not_saddOverflow (by rw [hadd]; decide), hsum, hspace]
  exact ⟨hslot, hadd, ssubOverflow_false htotal hr0 (by omega) (by omega), h.gsBaseInRange⟩

theorem not_diffOutOfRange {v : Word} (h : GsBaseInRange v) : diffOutOfRange v = false := by
  have hlow := h.1
  have hzero : (0 : Word).toInt = 0 := by decide
  simp only [diffOutOfRange, BitVec.slt, Bool.or_eq_false_iff, decide_eq_false_iff_not, hzero]
  exact ⟨by omega, Int.not_lt.mpr h.2⟩

/-- The arithmetic of `gs_rsp_runtime_rerandomize`, from one region to another. -/
theorem Below20MB.moveInRange (h : Below20MB r0 ss) (hnew : Below20MB r0 new)
    (hmd : Describes md r0 ss) : MoveInRange md new := by
  have hstart := h.start
  have hregion := h.region
  have hregion' := hnew.region
  have hdiff : md .diff + (new - md .shadowStack) = initDiff new r0 := by
    rw [hmd.diff, hmd.shadowStack, initDiff_add]
  have hss : ss.toInt = ss.toNat := toInt_of_lt (by omega)
  have hnewInt : new.toInt = new.toNat := toInt_of_lt (by omega)
  have hsub := ssubOverflow_false hnewInt hss (by omega) (by omega)
  have hdelta : (new - ss).toInt = new.toNat - ss.toNat := by
    rw [BitVec.toInt_sub_of_not_ssubOverflow (by rw [hsub]; decide), hnewInt, hss]
  have hadd := saddOverflow_false h.initDiff_toInt hdelta (by omega) (by omega)
  have hback := ssubOverflow_false hnew.initDiff_toInt hdelta (by omega) (by omega)
  refine ⟨?_, ?_, ?_, ?_, ?_⟩
  · rw [hmd.shadowStack]
    exact hsub
  · rw [hmd.diff, hmd.shadowStack]
    exact hadd
  · rw [hdiff, hmd.shadowStack]
    exact hback
  · rw [hdiff]
    exact hnew.gsBaseInRange
  · rw [hdiff]
    exact not_diffOutOfRange hnew.gsBaseInRange

end Range

/-- **The GS base stays in range.** A thread is initialised at `r0` in user space, and all
its regions are placed at stack pointers in `(20 MB, r0]`. Then neither the computation in
`do_init_shadow_stack` nor any later move overflows or leaves the range of `arch_prctl`,
the guard never rejects, and the slot of each stack pointer in `[r0 - 8 MB, r0 + 1.5 MB)`
lies in the current region below its metadata. -/
theorem gs_base_in_range (t : Tid) {r0 : Word} (hr0 : r0.toNat < 2 ^ 47) :
    (∀ rspAlloc ss, AtOrBelow r0 rspAlloc → Returnable rspAlloc ss → InitInRange ss r0) ∧
    ∀ m, Reached (AtOrBelow r0) t r0 m →
      ∃ ss, (∀ x, ownerOf m.mem x = some (.shadow t) ↔ InRange ss realShadowStackSize x) ∧
        ss.toNat + 2 * realShadowStackSize ≤ r0.toNat ∧ GsBaseInRange (m.threads t).gs ∧
        (∀ rsp, InRange (callStackBase r0) metadataOffsetOnShadowStack rsp →
          InRange ss metadataOffsetOnShadowStack (slotAddr (m.threads t).gs rsp)) ∧
        ∀ rspAlloc new, AtOrBelow r0 rspAlloc → Returnable rspAlloc new →
          MoveInRange (m.metadata ss) new := by
  have hsize : 2 * realShadowStackSize = 20971520 := by decide
  have hbelow : ∀ rspAlloc ss, AtOrBelow r0 rspAlloc → Returnable rspAlloc ss →
      Below20MB r0 ss := by
    intro rspAlloc ss hat hss
    have hle := (hss.below hat.above).2
    rw [hsize] at hle
    exact ⟨hr0, le_trans hle hat.below⟩
  refine ⟨fun rspAlloc ss hat hss => (hbelow rspAlloc ss hat hss).initInRange, ?_⟩
  intro m hm
  obtain ⟨ss, md, content, hcoherent, rsp₀, hat, hss⟩ := hm.coherent
  have hregion := hbelow rsp₀ ss hat hss
  refine ⟨ss, hcoherent.oneRegion.mapped, hsize ▸ hregion.region, ?_, ?_, ?_⟩
  · rw [hcoherent.gs]
    exact hregion.gsBaseInRange
  · intro rsp hrsp
    have hoff : ss + (rsp - callStackBase r0) - ss = rsp - callStackBase r0 := by grind
    rw [hcoherent.gs, slotAddr_initDiff, InRange, hoff]
    exact hrsp
  · intro rspAlloc new hat' hnew
    rw [hcoherent.metadata]
    exact hregion.moveInRange (hbelow rspAlloc new hat' hnew) hcoherent.describes

theorem region_unique {a b : Word} (h : ∀ x, InRange a realShadowStackSize x ↔
    InRange b realShadowStackSize x) : a = b := by
  have hsize : realShadowStackSize = 10485760 := by decide
  have hself : ∀ a : Word, InRange a realShadowStackSize a := by
    intro a
    unfold InRange
    rw [hsize]
    bv_omega
  have hab := (h a).mp (hself a)
  have hba := (h b).mpr (hself b)
  unfold InRange at hab hba
  rw [hsize] at hab hba
  bv_omega

/-- A first thread on an empty machine, whose region is moved once. -/
theorem reached_moved {placedAt : Word → Prop} (h : placedAt 0x7FFFFFFFD000)
    (h' : placedAt 0x7FFFFFFFA000) :
    ∃ m, Reached placedAt 0 0x7FFFFFFFE000 m ∧
      ∀ x, ownerOf m.mem x = some (.shadow 0) ↔ InRange 0x20000000 realShadowStackSize x := by
  obtain ⟨m₁, hreached, hcoherent, hothers⟩ := Reached.first 0x7FFFFFFFE000
    (System.empty_initial.noShadow 0) (System.empty_initial.inited 0) rfl h
    System.firstPlacement_empty
  have hfree : Free m₁.mem 0x20000000 realShadowStackSize :=
    (free_iff realShadowStackSize_le).mpr fun x hx =>
      hothers.free_outside (fun _ => rfl) hcoherent.oneRegion.mapped (System.apart_sample x hx)
  have hbelow : BelowStart 0x7FFFFFFFE000 0x7FFFFFFFB000 := by decide
  obtain ⟨m₂, md, hmove, hcoherent₂, -⟩ :=
    run_moves_done hcoherent hbelow (System.moveTarget_sample hfree) rfl
  exact ⟨m₂, hreached.call hbelow rfl h' hmove, hcoherent₂.oneRegion.mapped⟩

/-- A region that an otherwise empty machine lets a thread have. -/
theorem returnable_empty {rsp a : Word} (hfits : a.toNat + realShadowStackSize ≤ 2 ^ 64)
    (hok : rejected (rsp - BitVec.ofNat 64 (2 * realShadowStackSize)) a = false) :
    Returnable rsp a :=
  returnable_of_placement (m := System.empty.machine)
    (System.placement_willing 0 hfits (fun _ _ => rfl) hok)

/-- After its first move the thread has a GS base in range, and may move again. -/
theorem gs_base_in_range_moved :
    InitInRange 0x10000000 0x7FFFFFFFE000 ∧
    ∃ m, Reached (AtOrBelow 0x7FFFFFFFE000) 0 0x7FFFFFFFE000 m ∧
      (∀ x, ownerOf m.mem x = some (.shadow 0) ↔ InRange 0x20000000 realShadowStackSize x) ∧
      GsBaseInRange (m.threads 0).gs ∧ MoveInRange (m.metadata 0x20000000) 0x30000000 := by
  have hfirst : AtOrBelow 0x7FFFFFFFE000 0x7FFFFFFFD000 := ⟨by decide, by decide⟩
  have hsecond : AtOrBelow 0x7FFFFFFFE000 0x7FFFFFFFA000 := ⟨by decide, by decide⟩
  have hr0 : (0x7FFFFFFFE000 : Word).toNat < 2 ^ 47 := by decide
  obtain ⟨hinit, hruns⟩ := gs_base_in_range 0 hr0
  obtain ⟨m, hm, hmapped⟩ := reached_moved hfirst hsecond
  obtain ⟨ss, hmapped', -, hrange, -, hmove⟩ := hruns m hm
  obtain rfl := region_unique fun x => (hmapped' x).symm.trans (hmapped x)
  refine ⟨hinit _ _ hfirst (returnable_empty (by decide) (by decide)), m, hm, hmapped, hrange, ?_⟩
  exact hmove _ _ hsecond (returnable_empty (by decide) (by decide))

/-! ### The metadata lookup -/

/-- `get_gs_rsp_metadata_by_rsp` at `rsp` returns the metadata of the region of `t`, where that is
mapped now. -/
def FindsMetadata (t : Tid) (m : Machine) (env : Env) (rsp : Word) : Prop :=
  ∀ ss, (∀ x, ownerOf m.mem x = some (.shadow t) ↔ InRange ss realShadowStackSize x) →
    run (exec t env) (getGsRspMetadataByRsp rsp) m =
      .ok (some (getGsRspMetadataByShadowStack ss), m)

theorem run_getGsRspMetadataByRsp {t : Tid} {m : Machine} {env : Env} (rsp : Word) :
    run (exec t env) (getGsRspMetadataByRsp rsp) m =
      .ok (if env.getGs then
        some (getGsRspMetadataByShadowStack (shadowStackByRsp rsp (m.threads t).gs)) else none,
        m) := by
  simp only [getGsRspMetadataByRsp, perform, Prog.lift_bind]
  cases hget : env.getGs with
  | false =>
      have hgs : exec t env .getGs m = .ok (none, m) := by simp [exec, hget]
      rw [run_act_ok hgs]
      rfl
  | true =>
      have hgs : exec t env .getGs m = .ok (some (m.threads t).gs, m) := by simp [exec, hget]
      rw [run_act_ok hgs]
      rfl

/-- **The metadata lookup** finds the metadata of the thread exactly from the frames below
`r0`. -/
theorem metadata_lookup_iff {placedAt : Word → Prop} {t : Tid} {r0 : Word} {m : Machine}
    (h : Reached placedAt t r0 m) {rsp : Word}
    (hrsp : InRange (callStackBase r0) metadataOffsetOnShadowStack rsp) (env : Env) :
    FindsMetadata t m env rsp ↔ env.getGs = true ∧ BelowStart r0 rsp := by
  obtain ⟨ss, md, content, hm, -⟩ := h.coherent
  have hmapped := hm.oneRegion.mapped
  constructor
  · intro hfinds
    have hrun := (run_getGsRspMetadataByRsp (t := t) rsp).symm.trans
      (hfinds ss hmapped)
    have hlookup := (Prod.mk.inj (Except.ok.inj hrun)).1
    cases hget : env.getGs with
    | false =>
        rw [hget] at hlookup
        cases hlookup
    | true =>
        refine ⟨rfl, ?_⟩
        by_contra habove
        rw [hget, if_pos rfl, hm.gs, shadowStackByRsp_above hm.aligned hrsp habove] at hlookup
        have hsize : defBuddyCallStackSize = 8388608 := by decide
        have heq := Option.some.inj hlookup
        unfold getGsRspMetadataByShadowStack at heq
        rw [hsize] at heq
        bv_omega
  · rintro ⟨hget, hbelow⟩ ss' hss'
    obtain rfl : ss = ss' := region_unique fun x => (hmapped x).symm.trans (hss' x)
    rw [run_getGsRspMetadataByRsp, hget, if_pos rfl, hm.gs,
      shadowStackByRsp_initDiff hm.aligned hbelow]

/-- From a frame 4 kB below `r0` it does, also after a move. -/
theorem metadata_lookup_below :
    ∃ m, Reached (fun _ => True) 0 0x7FFFFFFFE000 m ∧
      run (exec 0 (System.willing 0)) (getGsRspMetadataByRsp 0x7FFFFFFFD000) m =
        .ok (some (getGsRspMetadataByShadowStack 0x20000000), m) := by
  obtain ⟨m, hm, hmapped⟩ := @reached_moved (fun _ => True) trivial trivial
  exact ⟨m, hm, (metadata_lookup_iff hm (by decide) _).mpr ⟨rfl, by decide⟩ _ hmapped⟩

/-- **From the frame at `r0`** it does not find the metadata, although this frame has a slot in
the region. -/
theorem metadata_lookup_misses :
    ¬ ∀ t r0 m, Reached (fun _ => True) t r0 m →
      ∀ rsp, InRange (callStackBase r0) metadataOffsetOnShadowStack rsp →
        ∀ env, env.getGs = true → FindsMetadata t m env rsp := by
  intro h
  obtain ⟨m, hm, -⟩ := @reached_moved (fun _ => True) trivial trivial
  have hrsp : InRange (callStackBase 0x7FFFFFFFE000) metadataOffsetOnShadowStack
      0x7FFFFFFFE000 := by decide
  have hfinds := h 0 0x7FFFFFFFE000 m hm _ hrsp (System.willing 0) rfl
  rw [metadata_lookup_iff hm hrsp] at hfinds
  exact absurd hfinds.2 (by decide)

end FlashStack.Runtime
