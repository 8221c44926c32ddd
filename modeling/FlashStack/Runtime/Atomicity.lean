/-
Failure atomicity of `gs_rsp_runtime_rerandomize`.

A call should either complete the move or leave everything where it was, on every outcome of
its system calls, and afterwards the thread should find its metadata again, with
`is_randomizing` clear. It does so, with two exceptions. When `mremap` has moved the region
and `arch_prctl(ARCH_SET_GS)` then fails, the roll-back writes through `pMetadata`, which
points into the region that is no longer mapped. And at a stack pointer that is not in the 8
MB below that of the initialisation the lookup does not lead to the metadata at all.

* `rerandomize_atomic_iff`: the exact condition, for every stack pointer;
* `rerandomize_above_faults`: what a call does in the frames above;
* `rerandomize_not_atomic`: a state and outcomes where the promise is broken.

An access of the runtime outside the region of its own thread counts as a fault, also where
the memory is mapped for somebody else. Statistics counters are part of no promise. The
proofs use the outcomes of `Runtime.Rerandomize` as they are: a call stays, moves, or
faults, and the promise is compared with each.
-/

import FlashStack.Runtime.System

namespace FlashStack.Runtime

open Lib.Memory Lib.Program

/-! ### What a call promises -/

/-- The region at `ss'` in `m'` has the content that the region at `ss` had in `m`. -/
def SameContent (m m' : Machine) (ss ss' : Word) : Prop :=
  ∀ k < realShadowStackSize, ¬ IsMetadataOffset k →
    byteOf m'.mem (ss' + BitVec.ofNat 64 k) = byteOf m.mem (ss + BitVec.ofNat 64 k)

/-- The move is complete: the region with its content is at a new address, GS base
and metadata describe it, and nothing is mapped at the old address. -/
structure Moved (m m' : Machine) (t : Tid) (r0 ss new : Word) : Prop where
  oneRegion : m'.OneRegion t r0 new
  content : SameContent m m' ss new
  wasFree : Free m.mem new realShadowStackSize
  oldFree : Free m'.mem ss realShadowStackSize

/-- Nothing moved: the region, its content, GS base and the metadata that describes
them are as before, and nothing is mapped that was not. -/
structure Unmoved (m m' : Machine) (t : Tid) (r0 ss : Word) : Prop where
  oneRegion : m'.OneRegion t r0 ss
  content : SameContent m m' ss ss
  gs : (m'.threads t).gs = (m.threads t).gs
  stillFree : ∀ x, m.mem x = none → m'.mem x = none

/-- A call of thread `t` with its region at `ss` touches only mapped memory of its own, and
either completes the move or leaves everything where it was. The region is then at `ss'`, with
`is_randomizing` clear in its metadata, and this is the metadata that the next lookup from the
same frame finds. -/
def FailureAtomic (m : Machine) (t : Tid) (r0 ss rsp rspAlloc : Word) (env : Env) : Prop :=
  ∃ m' ss', run (exec t env) (gsRspRuntimeRerandomize rsp rspAlloc) m = .ok ((), m') ∧
    (Moved m m' t r0 ss ss' ∨ ss' = ss ∧ Unmoved m m' t r0 ss) ∧
    shadowStackByRsp rsp (m'.threads t).gs = ss'

/-! ### When the promise is kept -/

section

variable {m m' : Machine} {t : Tid} {r0 ss new rsp rspAlloc : Word} {env : Env}
  {md md' : Field → Word} {content : Nat → Byte}

theorem SameContent.of_coherent (h : Coherent m t r0 ss md content)
    (h' : Coherent m' t r0 new md' content) : SameContent m m' ss new := by
  intro k hk hmeta
  rw [h.region.bytes k hk hmeta, h'.region.bytes k hk hmeta]

theorem Moved.of_coherent (h : Coherent m t r0 ss md content)
    (h' : Coherent m' t r0 new md' content) (hothers : OthersKept t m.mem m'.mem)
    (hfree : Free m.mem new realShadowStackSize) : Moved m m' t r0 ss new where
  oneRegion := h'.oneRegion
  content := .of_coherent h h'
  wasFree := hfree
  oldFree := h.region.old_free h'.region hothers hfree

theorem Unmoved.of_progress (h : Coherent m t r0 ss md content)
    (hprog : Progress m m' t ss none md' content) (hsame : SameButCycles md md') :
    Unmoved m m' t r0 ss := by
  have h' : Coherent m' t r0 ss md' content :=
    ⟨⟨hprog.region, h.aligned, by rw [hprog.threads, h.gs], by rw [hprog.threads, h.inited]⟩,
      h.describes.of_sameButCycles hsame⟩
  refine ⟨h'.oneRegion, .of_coherent h h', by rw [hprog.threads], fun x hx => ?_⟩
  have hnone := hprog.isNone_eq h.region x
  rw [hx, Option.isNone_none] at hnone
  exact Option.isNone_iff_eq_none.mp hnone.symm

/-- **Failure atomicity.** The promise is kept exactly when the stack pointer is in the 8 MB
below `r0`, and the call does not get as far as a successful `mremap` or its
`arch_prctl(ARCH_SET_GS)` succeeds. The states between runtime calls are coherent
(`System.run_inv`). -/
theorem rerandomize_atomic_iff (h : Coherent m t r0 ss md content) :
    FailureAtomic m t r0 ss rsp rspAlloc env ↔
      BelowStart r0 rsp ∧
        (moveTarget env rspAlloc m.mem md = none ∨ env.setGs = true) := by
  constructor
  · rintro ⟨m', ss', hrun, hcases, hlookup⟩
    have hgs : (m'.threads t).gs = initDiff ss' r0 := by
      rcases hcases with hmoved | ⟨rfl, hunmoved⟩
      · exact hmoved.oneRegion.gs
      · exact hunmoved.oneRegion.gs
    rw [hgs] at hlookup
    have hrsp := belowStart_of_shadowStackByRsp hlookup
    refine ⟨hrsp, ?_⟩
    cases htarget : moveTarget env rspAlloc m.mem md with
    | none => exact Or.inl rfl
    | some new =>
        right
        by_contra hset
        rw [Bool.not_eq_true] at hset
        rw [run_moves_faults h hrsp htarget hset] at hrun
        cases hrun
  · rintro ⟨hrsp, hok⟩
    cases htarget : moveTarget env rspAlloc m.mem md with
    | none =>
        obtain ⟨m', md', hrun, hprog, hsame⟩ := run_stays h hrsp htarget
        have hunmoved := Unmoved.of_progress h hprog hsame
        exact ⟨m', ss, hrun, Or.inr ⟨rfl, hunmoved⟩, hunmoved.oneRegion.lookup rsp hrsp⟩
    | some new =>
        have hset : env.setGs = true := by simpa [htarget] using hok
        obtain ⟨m', md', hrun, h', hothers, -⟩ := run_moves_done h hrsp htarget hset
        have hmoved := Moved.of_coherent h h' hothers (moveTarget_free htarget).1
        exact ⟨m', new, hrun, Or.inl hmoved, hmoved.oneRegion.lookup rsp hrsp⟩

/-- At or above `r0`, where the slots of the thread go on for 1.5 MB, the lookup leaves the
region, and a call that gets a GS base faults at its first access. -/
theorem rerandomize_above_faults (h : Coherent m t r0 ss md content) (hget : env.getGs = true)
    (hrsp : InRange (callStackBase r0) metadataOffsetOnShadowStack rsp)
    (habove : ¬ BelowStart r0 rsp) :
    ∃ e, run (exec t env) (gsRspRuntimeRerandomize rsp rspAlloc) m = .error e := by
  have hgs : exec t env .getGs m = .ok (some (initDiff ss r0), m) := by
    simp [exec, hget, h.gs]
  have hsize : realShadowStackSize = 10485760 := by decide
  have hoffset : metadataOffsetOnShadowStack = 9961472 := by decide
  have hstack : defBuddyCallStackSize = 8388608 := by decide
  -- The first access is 17.5 MB above the base of the region, which has 10 MB.
  have hout : ¬ OwnedBy m.mem (.shadow t) (Field.state.addr (getGsRspMetadataByShadowStack
      (ss + BitVec.ofNat 64 defBuddyCallStackSize))) 8 := by
    intro hown
    have hfirst := (h.region.owns _).mp (hown 0 (by decide))
    simp only [Option.mem_def, reduceCtorEq, false_and, exists_false, or_false] at hfirst
    unfold InRange Field.addr getGsRspMetadataByShadowStack Field.offset at hfirst
    rw [hsize, hoffset, hstack] at hfirst
    bv_omega
  obtain ⟨e, hfault⟩ := exists_exec_load_error hout env
  refine ⟨e, ?_⟩
  simp only [gsRspRuntimeRerandomize, getGsRspMetadataByRsp, rdtsc, perform, Prog.lift_bind]
  rw [run_act_ok rfl, run_act_ok rfl, h.inited]
  simp only [Bool.not_true, Bool.false_eq_true, if_false, Prog.act_bind]
  rw [run_act_ok hgs]
  simp only [Prog.pure_eq, Prog.ret_bind, shadowStackByRsp_above h.aligned hrsp habove,
    rerandomizeFound, load, perform, Prog.lift_bind]
  exact run_act_error hfault

end

/-! ### A call that breaks the promise -/

/-- A machine on which only thread `t` has been initialised, at `r0`, with its region
at `ss`. -/
def Machine.started (t : Tid) (r0 ss : Word) : Machine where
  mem :=
    let pMetadata := getGsRspMetadataByShadowStack ss
    let region := mapZero (fun _ => none) (.shadow t) ss realShadowStackSize
    let region := storeN region (Field.shadowStack.addr pMetadata) 8 ss.toNat
    let region := storeN region (Field.diff.addr pMetadata) 8 (initDiff ss r0).toNat
    storeN region (Field.state.addr pMetadata) 8 flashStackInited.toNat
  threads := Function.update (fun _ => ⟨0, false⟩) t ⟨initDiff ss r0, true⟩
  counters := fun _ => 0
  threadInfo := []

theorem started_coherent (t : Tid) (r0 : Word) {ss : Word} (hss : ss.toNat % 2 ^ 23 = 0) :
    Coherent (Machine.started t r0 ss) t r0 ss
      (initialMetadata ss (initDiff ss r0)) fun _ => 0 := by
  have hempty : ∀ x, ownerOf (fun _ : Word => (none : Option (Cell Owner))) x ≠
      some (.shadow t) := by
    simp [ownerOf]
  have hfresh : ShadowRegion (mapZero (fun _ => none) (.shadow t) ss realShadowStackSize) t ss none
      (fun _ => 0) (fun _ => 0) := ShadowRegion.of_mapZero hempty
  have hregion := ((hfresh.store_field .shadowStack ss).store_field .diff
      (initDiff ss r0)).store_field .state flashStackInited
  have hmd : initialMetadata ss (initDiff ss r0) = Function.update (Function.update (Function.update
      (fun _ => 0) .shadowStack ss) .diff (initDiff ss r0)) .state flashStackInited := by
    funext f
    cases f <;> simp [initialMetadata, Function.update]
  refine ⟨⟨hmd ▸ hregion, hss, ?_, ?_⟩, ⟨rfl, rfl, rfl, rfl⟩⟩
  · simp [Machine.started]
  · simp [Machine.started]

theorem started_free {t : Tid} {r0 ss a : Word} {n : Nat} (hn : n ≤ 2 ^ 64)
    (hapart : ∀ x, InRange a n x → ¬ InRange ss realShadowStackSize x) :
    Free (Machine.started t r0 ss).mem a n := by
  rw [free_iff hn]
  intro x hx
  rw [← Option.isNone_iff_eq_none, ← Option.not_isSome]
  simp only [Machine.started, storeN_isSome, mapZero_outside (hapart x hx)]
  simp

/-- A kernel that refuses `arch_prctl(ARCH_SET_GS)` only, and grants whatever else is asked. -/
def refusing (a : Word) : Env := { System.willing a with setGs := false }

theorem started_target :
    moveTarget (System.willing 0x20000000) 0x7FFFFFFFA000
      (Machine.started 0 0x7FFFFFFFE000 0x10000000).mem
      (initialMetadata 0x10000000 (initDiff 0x10000000 0x7FFFFFFFE000)) = some 0x20000000 :=
  System.moveTarget_sample (started_free realShadowStackSize_le System.apart_sample)

/-- **The roll-back after a failed `ARCH_SET_GS`** faults: the caller is coherent,
its stack pointer is in range, and the call does not return. -/
theorem rerandomize_not_atomic :
    Coherent (Machine.started 0 0x7FFFFFFFE000 0x10000000) 0 0x7FFFFFFFE000 0x10000000
        (initialMetadata 0x10000000 (initDiff 0x10000000 0x7FFFFFFFE000)) (fun _ => 0) ∧
      BelowStart 0x7FFFFFFFE000 0x7FFFFFFFB000 ∧
      ¬ FailureAtomic (Machine.started 0 0x7FFFFFFFE000 0x10000000) 0 0x7FFFFFFFE000 0x10000000
        0x7FFFFFFFB000 0x7FFFFFFFA000 (refusing 0x20000000) := by
  have haligned : (0x10000000 : Word).toNat % 2 ^ 23 = 0 := by decide
  have h := started_coherent 0 0x7FFFFFFFE000 haligned
  refine ⟨h, by decide, ?_⟩
  have htarget : moveTarget (refusing 0x20000000) 0x7FFFFFFFA000
      (Machine.started 0 0x7FFFFFFFE000 0x10000000).mem
      (initialMetadata 0x10000000 (initDiff 0x10000000 0x7FFFFFFFE000)) = some 0x20000000 :=
    (moveTarget_setGs _ false _ _ _).trans started_target
  rintro ⟨m', ss', hrun, -⟩
  rw [run_moves_faults h (by decide) htarget rfl] at hrun
  cases hrun

/-- The same call with a kernel that does not refuse. -/
theorem rerandomize_atomic_willing :
    FailureAtomic (Machine.started 0 0x7FFFFFFFE000 0x10000000) 0 0x7FFFFFFFE000 0x10000000
      0x7FFFFFFFB000 0x7FFFFFFFA000 (System.willing 0x20000000) :=
  (rerandomize_atomic_iff (started_coherent _ _ (by decide))).mpr ⟨by decide, Or.inr rfl⟩

end FlashStack.Runtime
