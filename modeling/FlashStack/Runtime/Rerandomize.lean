/-
`gs_rsp_runtime_rerandomize`, outcome by outcome.

`Coherent` is the state of a thread between two calls: GS base, metadata and memory agree
about its region, and `is_randomizing` is clear. `moveTarget` says from the outcomes of the
system calls where a call moves the shadow stack, if it does. The two run lemmas cover every
call from a coherent state, at a stack pointer from which the lookup finds the metadata:

* `run_stays`: without a target the call returns, and at most `cpu_cycles` of the metadata
  has changed. It is too early, no memory was found, the guard on the GS base refused, or
  `mremap` failed;
* `run_moves`: with a target the call reaches `arch_prctl(ARCH_SET_GS)` with the region at
  its new address, and continues as `afterMremap` says.

If that last system call succeeds, the thread is coherent at the target (`run_moves_done`).
If it fails, the roll-back goes through a pointer into the old region, which is no longer
mapped, and the call faults (`run_moves_faults`). Each part of the call has its own lemma
(`run_randExit`, `run_rollBack`, `run_moveShadowStack`), an equation between runs, and the
whole is put together from them. The counters that a call increments are not tracked.
-/

import FlashStack.Runtime.Layout

namespace FlashStack.Runtime

open Lib.Memory Lib.Program

/-! ### The state of a thread -/

/-- Thread `t`, started at `r0`, has its shadow stack at `ss`, and its GS base
points there. Nothing is said about the values of the metadata. -/
structure Anchored (m : Machine) (t : Tid) (r0 ss : Word) (fresh : Option Word)
    (md : Field → Word) (content : Nat → Byte) : Prop where
  region : ShadowRegion m.mem t ss fresh md content
  aligned : ss.toNat % 2 ^ 23 = 0
  gs : (m.threads t).gs = initDiff ss r0
  inited : (m.threads t).inited = true

/-- The metadata of a thread outside any runtime call describes its region. The clock may show
anything. -/
structure Describes (md : Field → Word) (r0 ss : Word) : Prop where
  shadowStack : md .shadowStack = ss
  diff : md .diff = initDiff ss r0
  isRandomizing : md .isRandomizing = 0
  state : md .state = flashStackInited

/-- GS base, metadata and memory agree on the shadow stack of `t`. This is the state in which
calls begin, and in which they should end. -/
structure Coherent (m : Machine) (t : Tid) (r0 ss : Word) (md : Field → Word)
    (content : Nat → Byte) : Prop extends Anchored m t r0 ss none md content where
  describes : Describes md r0 ss

/-- Only `cpu_cycles` may differ, which the call sets once it goes ahead. -/
def SameButCycles (md md' : Field → Word) : Prop := ∀ f, f ≠ .cpuCycles → md' f = md f

theorem Describes.of_sameButCycles {md md' : Field → Word} {r0 ss : Word}
    (h : Describes md r0 ss) (hsame : SameButCycles md md') : Describes md' r0 ss where
  shadowStack := (hsame .shadowStack (by decide)).trans h.shadowStack
  diff := (hsame .diff (by decide)).trans h.diff
  isRandomizing := (hsame .isRandomizing (by decide)).trans h.isRandomizing
  state := (hsame .state (by decide)).trans h.state

/-- The metadata as it stands in memory. For a coherent thread it is what the assertion says it
is. -/
def Machine.metadata (m : Machine) (ss : Word) : Field → Word := fun f =>
  (load64 m.mem (f.addr (getGsRspMetadataByShadowStack ss))).getD 0

theorem Anchored.metadata {m : Machine} {t : Tid} {r0 ss : Word} {fresh : Option Word}
    {md : Field → Word} {content : Nat → Byte} (h : Anchored m t r0 ss fresh md content) :
    m.metadata ss = md := by
  funext f
  rw [Machine.metadata, h.region.fields f]
  rfl

/-! ### Where a call moves the shadow stack -/

/-- At least `CPU_CYCLES_PER_RANDOMIZATION` have passed since the last move. The difference is
unsigned. -/
def elapsed (env : Env) (md : Field → Word) : Bool :=
  !(decide (env.rdtsc .current - md .cpuCycles < cpuCyclesPerRandomization))

/-- The tests before the placement: the GS base is known, the metadata is that of an
initialised thread that is not being moved already, and it is time. -/
def due (env : Env) (md : Field → Word) : Bool :=
  env.getGs && (md .state == flashStackInited && md .isRandomizing == 0) && elapsed env md

/-- The new address of the shadow stack, when the call gets as far as a
successful `mremap`. -/
def moveTarget (env : Env) (rspAlloc : Word) (mem : Space Owner) (md : Field → Word) :
    Option Word :=
  if due env md then
    (placement env 0 rspAlloc mem realShadowStackSize).filter fun new =>
      env.mremap && !diffOutOfRange (md .diff + (new - md .shadowStack))
  else none

theorem moveTarget_some {env : Env} {rspAlloc new : Word} {mem : Space Owner}
    {md : Field → Word} (h : moveTarget env rspAlloc mem md = some new) :
    due env md = true ∧ placement env 0 rspAlloc mem realShadowStackSize = some new ∧
      env.mremap = true ∧ diffOutOfRange (md .diff + (new - md .shadowStack)) = false := by
  unfold moveTarget at h
  by_cases hdue : due env md = true
  · rw [if_pos hdue, Option.filter_eq_some_iff] at h
    exact ⟨hdue, h.1, by simpa using h.2⟩
  · rw [if_neg hdue] at h
    cases h

theorem Describes.due_eq {md : Field → Word} {r0 ss : Word} (h : Describes md r0 ss) (env : Env) :
    due env md = (env.getGs && elapsed env md) := by
  simp [due, h.state, h.isRandomizing]

/-- What `arch_prctl(ARCH_SET_GS)` will answer has no influence on the target. -/
theorem moveTarget_setGs (env : Env) (b : Bool) (rspAlloc : Word) (mem : Space Owner)
    (md : Field → Word) :
    moveTarget { env with setGs := b } rspAlloc mem md = moveTarget env rspAlloc mem md := rfl

/-- A call that is due and whose first attempt is usable moves there, provided that `mremap`
succeeds and the new GS base is in range. -/
theorem moveTarget_of_first {env : Env} {rspAlloc new : Word} {mem : Space Owner}
    {md : Field → Word} (hdue : due env md = true)
    (hplace : env.mmap 0 0 = some new ∧ new.toNat + realShadowStackSize ≤ 2 ^ 64 ∧
      Free mem new realShadowStackSize ∧
      rejected (rspAlloc - BitVec.ofNat 64 (2 * realShadowStackSize)) new = false)
    (hmove : (env.mremap && !diffOutOfRange (md .diff + (new - md .shadowStack))) = true) :
    moveTarget env rspAlloc mem md = some new := by
  rw [moveTarget, if_pos hdue, placement_of_first hplace, Option.filter_some, if_pos hmove]

/-- A target is free memory, 8MB-aligned. -/
theorem moveTarget_free {env : Env} {rspAlloc new : Word} {mem : Space Owner}
    {md : Field → Word} (h : moveTarget env rspAlloc mem md = some new) :
    Free mem new realShadowStackSize ∧ new.toNat % 2 ^ 23 = 0 := by
  obtain ⟨hfree, hrej⟩ := placement_some (moveTarget_some h).2.1
  exact ⟨hfree.2, (accepted_iff.mp hrej).1⟩

/-! ### The parts of a call -/

namespace Progress

variable {m m' : Machine} {t : Tid} {env : Env} {ss new start : Word} {fresh : Option Word}
  {md : Field → Word} {content : Nat → Byte}

theorem run_randExit (h : Progress m m' t ss fresh md content) :
    ∃ m'', run (exec t env) (randExit (getGsRspMetadataByShadowStack ss) start) m' =
        .ok ((), m'') ∧
      Progress m m'' t ss fresh (Function.update md .isRandomizing 0) content := by
  simp only [randExit, store, syncFetchAndAdd, rdtsc, perform, Prog.lift_bind]
  obtain ⟨m₁, hrun₁, h₁⟩ := h.run_store .isRandomizing 0 _
  obtain ⟨m₂, hrun₂, h₂⟩ := h₁.run_count .totalRand 1 _
  refine ⟨m₂.bump .cpuCycles (env.rdtsc .finish - start), ?_, ?_⟩
  · rw [hrun₁, hrun₂, run_act_ok rfl]
    rfl
  · exact ⟨h₂.region, h₂.others, h₂.threads, h₂.threadInfo⟩

/-- The roll-back puts the metadata back and drops the fresh region. -/
theorem run_rollBack (h : Progress m m' t ss (some new) md content) (old delta : Word)
    (k : Unit → Program Unit) :
    ∃ m'', run (exec t env)
        (rollBack (getGsRspMetadataByShadowStack ss) old new delta >>= k) m' =
        run (exec t env) (k ()) m'' ∧
      Progress m m'' t ss none
        (Function.update (Function.update md .shadowStack old) .diff (md .diff - delta))
        content := by
  simp only [rollBack, syncFetchAndAdd, store, load, munmap, perform, Prog.lift_bind,
    Prog.act_bind]
  obtain ⟨m₁, hrun₁, h₁⟩ := h.run_count .failRand 1 _
  obtain ⟨m₂, hrun₂, h₂⟩ := h₁.run_store .shadowStack old _
  obtain ⟨m₃, hrun₃, h₃⟩ := h₂.run_store .diff (md .diff - delta) _
  obtain ⟨m₄, hrun₄, h₄⟩ := h₃.run_munmap_fresh _
  refine ⟨m₄, ?_, h₄⟩
  rw [hrun₁, hrun₂, h₂.run_load .diff, Function.update_of_ne (by decide), hrun₃, hrun₄]

/-- The new base address would put the GS base out of range: nothing is moved. -/
theorem run_moveShadowStack_out (h : Progress m m' t ss (some new) md content)
    (hss : md .shadowStack = ss) (hout : diffOutOfRange (md .diff + (new - ss)) = true) :
    ∃ m'', run (exec t env) (moveShadowStack (getGsRspMetadataByShadowStack ss) new start) m' =
        .ok ((), m'') ∧
      Progress m m'' t ss none (Function.update md .isRandomizing 0) content := by
  simp only [moveShadowStack, load, munmap, perform, Prog.lift_bind]
  rw [h.run_load .shadowStack, h.run_load .diff, hss, if_pos hout]
  obtain ⟨m₁, hrun₁, h₁⟩ := h.run_munmap_fresh _
  obtain ⟨m₂, hrun₂, h₂⟩ := h₁.run_randExit
  exact ⟨m₂, by rw [hrun₁, hrun₂], h₂⟩

/-- The metadata is updated before the move, in both of the remaining cases. -/
theorem run_moveShadowStack (h : Progress m m' t ss (some new) md content)
    (hss : md .shadowStack = ss) (hok : diffOutOfRange (md .diff + (new - ss)) = false) :
    ∃ m'', Progress m m'' t ss (some new)
        (Function.update (Function.update md .shadowStack new) .diff (md .diff + (new - ss)))
        content ∧
      run (exec t env) (moveShadowStack (getGsRspMetadataByShadowStack ss) new start) m' =
        run (exec t env) (.act (.mremap ss realShadowStackSize new) fun moved =>
          afterMremap (getGsRspMetadataByShadowStack ss) ss new (new - ss)
            (md .diff + (new - ss)) start moved) m'' := by
  simp only [moveShadowStack, load, store, perform, Prog.lift_bind]
  rw [h.run_load .shadowStack, h.run_load .diff, hss, if_neg (by simp [hok]),
    h.run_load .shadowStack, hss]
  obtain ⟨m₁, hrun₁, h₁⟩ := h.run_store .shadowStack new _
  obtain ⟨m₂, hrun₂, h₂⟩ := h₁.run_store .diff (md .diff + (new - ss)) _
  exact ⟨m₂, h₂, by rw [hrun₁, hrun₂]⟩

end Progress

/-! ### Whole calls -/

section Calls

variable {m : Machine} {t : Tid} {env : Env} {r0 ss rsp rspAlloc : Word} {md : Field → Word}
  {content : Nat → Byte}

/-- Without a GS base the call does nothing: the lookup has no address to look at. -/
theorem run_noGs (hin : (m.threads t).inited = true) (hget : env.getGs = false) :
    run (exec t env) (gsRspRuntimeRerandomize rsp rspAlloc) m = .ok ((), m) := by
  simp only [gsRspRuntimeRerandomize, getGsRspMetadataByRsp, rdtsc, perform, Prog.lift_bind]
  rw [run_act_ok rfl, run_act_ok rfl, hin]
  simp only [Bool.not_true, Bool.false_eq_true, if_false, Prog.act_bind]
  have hgs : exec t env .getGs m = .ok (none, m) := by simp [exec, hget]
  rw [run_act_ok hgs]
  rfl

/-- The lookup from below `r0` finds the metadata of the region. -/
theorem run_found {fresh : Option Word} (h : Anchored m t r0 ss fresh md content)
    (hrsp : BelowStart r0 rsp) (hget : env.getGs = true) :
    run (exec t env) (gsRspRuntimeRerandomize rsp rspAlloc) m =
      run (exec t env)
        (rerandomizeFound (getGsRspMetadataByShadowStack ss) rspAlloc (env.rdtsc .start)) m := by
  simp only [gsRspRuntimeRerandomize, getGsRspMetadataByRsp, rdtsc, perform, Prog.lift_bind]
  rw [run_act_ok rfl, run_act_ok rfl, h.inited]
  simp only [Bool.not_true, Bool.false_eq_true, if_false, Prog.act_bind]
  have hgs : exec t env .getGs m = .ok (some (initDiff ss r0), m) := by
    simp [exec, hget, h.gs]
  rw [run_act_ok hgs]
  simp only [Prog.pure_eq, Prog.ret_bind, shadowStackByRsp_initDiff h.aligned hrsp]

/-- Claiming the metadata: a call that finds the GS base sets `is_randomizing` and
goes on. -/
theorem run_claim (h : Coherent m t r0 ss md content) (hrsp : BelowStart r0 rsp)
    (hget : env.getGs = true) :
    ∃ m', Progress m m' t ss none (Function.update md .isRandomizing 1) content ∧
      run (exec t env) (gsRspRuntimeRerandomize rsp rspAlloc) m =
        run (exec t env)
          (rerandomizeClaimed (getGsRspMetadataByShadowStack ss) rspAlloc (env.rdtsc .start))
          m' := by
  have hstart := Progress.start h.region
  obtain ⟨m', hrun, hm'⟩ := hstart.run_store .isRandomizing 1 fun _ =>
    rerandomizeClaimed (getGsRspMetadataByShadowStack ss) rspAlloc (env.rdtsc .start)
  refine ⟨m', hm', ?_⟩
  rw [run_found h.toAnchored hrsp hget]
  simp only [rerandomizeFound, load, store, perform, Prog.lift_bind]
  rw [hstart.run_load .state, if_neg (by simp [h.describes.state]),
    hstart.run_load .isRandomizing, if_neg (by simp [h.describes.isRandomizing]), hrun]

/-- A call that finds the metadata claimed does nothing. This is what a nested call comes to while
the outer one is at work. -/
theorem run_busy {fresh : Option Word} (h : Anchored m t r0 ss fresh md content)
    (hrsp : BelowStart r0 rsp) (hstate : md .state = flashStackInited)
    (hbusy : md .isRandomizing ≠ 0) :
    run (exec t env) (gsRspRuntimeRerandomize rsp rspAlloc) m = .ok ((), m) := by
  cases hget : env.getGs with
  | false => exact run_noGs h.inited hget
  | true =>
      have hstart := Progress.start h.region
      rw [run_found h hrsp hget]
      simp only [rerandomizeFound, load, perform, Prog.lift_bind]
      rw [hstart.run_load .state, if_neg (by simp [hstate]), hstart.run_load .isRandomizing,
        if_pos hbusy]
      rfl

/-- While the region stays where it is, nothing is mapped or unmapped. -/
theorem Progress.isNone_eq {m' : Machine} {md' : Field → Word}
    (hregion : ShadowRegion m.mem t ss none md content)
    (h : Progress m m' t ss none md' content) (x : Word) :
    (m.mem x).isNone = (m'.mem x).isNone := by
  have hown : ownerOf m.mem x = some (.shadow t) ↔ ownerOf m'.mem x = some (.shadow t) :=
    (hregion.owns x).trans (h.region.owns x).symm
  cases hm : m.mem x with
  | none =>
      cases hm' : m'.mem x with
      | none => rfl
      | some c =>
          by_cases hc : c.owner = .shadow t
          · simp [ownerOf, hm, hm', hc] at hown
          · rw [(h.others x c hc).mpr hm'] at hm
            cases hm
  | some c =>
      by_cases hc : c.owner = .shadow t
      · obtain ⟨c', hc', -⟩ := ownerOf_eq_some.mp (hown.mp (by simp [ownerOf, hm, hc]))
        rw [hc']
        rfl
      · rw [(h.others x c hc).mp hm]

/-- The claimed call up to the answer of `get_memory_at_random`. -/
theorem run_claimed (h : Coherent m t r0 ss md content) (hrsp : BelowStart r0 rsp)
    (hget : env.getGs = true) (helapsed : elapsed env md = true) :
    ∃ m' c, Progress m m' t ss (placement env 0 rspAlloc m.mem realShadowStackSize)
        (Function.update (Function.update md .isRandomizing 1) .cpuCycles c) content ∧
      run (exec t env) (gsRspRuntimeRerandomize rsp rspAlloc) m =
        run (exec t env)
          (afterPlacement (getGsRspMetadataByShadowStack ss) (env.rdtsc .start)
            (placement env 0 rspAlloc m.mem realShadowStackSize)) m' := by
  obtain ⟨m₁, h₁, hrun⟩ := run_claim h hrsp hget
  have hcycles : ¬ env.rdtsc .current - md .cpuCycles < cpuCyclesPerRandomization := by
    simpa [elapsed] using helapsed
  obtain ⟨m₂, hrun₂, h₂⟩ := h₁.run_store .cpuCycles (env.rdtsc .current) _
  obtain ⟨m₃, hrun₃, h₃⟩ :=
    h₂.run_getMemoryAtRandom (h₂.isNone_eq h.region) rspAlloc _
  refine ⟨m₃, env.rdtsc .current, h₃, ?_⟩
  rw [hrun]
  simp only [rerandomizeClaimed, load, store, rdtsc, perform, Prog.lift_bind]
  rw [h₁.run_load .cpuCycles, Function.update_of_ne (by decide), run_act_ok rfl,
    if_neg hcycles, hrun₂, hrun₃]

/-- **A call without a target** returns with the region where it was. The four ways to get there
have the end of the function in common. -/
theorem run_stays (h : Coherent m t r0 ss md content) (hrsp : BelowStart r0 rsp)
    (hstay : moveTarget env rspAlloc m.mem md = none) :
    ∃ m' md', run (exec t env) (gsRspRuntimeRerandomize rsp rspAlloc) m = .ok ((), m') ∧
      Progress m m' t ss none md' content ∧ SameButCycles md md' := by
  have hidle := h.describes.isRandomizing
  have hss := h.describes.shadowStack
  cases hget : env.getGs with
  | false => exact ⟨m, md, run_noGs h.inited hget, Progress.start h.region, fun _ _ => rfl⟩
  | true =>
  cases helapsed : elapsed env md with
  | false =>
      -- too early: the claim is given up again
      obtain ⟨m₁, h₁, hrun⟩ := run_claim h hrsp hget
      have hcycles : env.rdtsc .current - md .cpuCycles < cpuCyclesPerRandomization := by
        simpa [elapsed] using helapsed
      obtain ⟨m₂, hrun₂, h₂⟩ := h₁.run_store .isRandomizing 0 Prog.ret
      refine ⟨m₂, _, ?_, h₂, fun f hf => by cases f <;> simp_all [Function.update]⟩
      rw [hrun]
      simp only [rerandomizeClaimed, load, store, rdtsc, perform, Prog.lift_bind]
      rw [h₁.run_load .cpuCycles, Function.update_of_ne (by decide), run_act_ok rfl,
        if_pos hcycles]
      exact hrun₂
  | true =>
  obtain ⟨m₁, c, h₁, hrun⟩ := run_claimed h hrsp hget helapsed
  rw [hrun]
  cases hplace : placement env 0 rspAlloc m.mem realShadowStackSize with
  | none =>
      rw [hplace] at h₁
      simp only [afterPlacement, syncFetchAndAdd, perform, Prog.lift_bind]
      obtain ⟨m₂, hrun₂, h₂⟩ := h₁.run_count .failRand 1 _
      obtain ⟨m₃, hrun₃, h₃⟩ := h₂.run_randExit
      refine ⟨m₃, _, by rw [hrun₂, hrun₃], h₃, fun f hf => ?_⟩
      cases f <;> simp_all [Function.update]
  | some new =>
      rw [hplace] at h₁
      simp only [afterPlacement]
      cases hout : diffOutOfRange (md .diff + (new - ss)) with
      | true =>
          obtain ⟨m₂, hrun₂, h₂⟩ := h₁.run_moveShadowStack_out
            (by simp [Function.update, hss])
            (by simpa [Function.update] using hout)
          exact ⟨m₂, _, hrun₂, h₂, fun f hf => by cases f <;> simp_all [Function.update]⟩
      | false =>
          have hfail : env.mremap = false := by
            simpa [moveTarget, h.describes.due_eq, hget, helapsed, hplace, hss, hout] using hstay
          obtain ⟨m₂, h₂, hrun₂⟩ := h₁.run_moveShadowStack
            (by simp [Function.update, hss])
            (by simpa [Function.update] using hout)
          obtain ⟨m₃, hrun₃, h₃⟩ := h₂.run_rollBack ss (new - ss) fun _ =>
            randExit (getGsRspMetadataByShadowStack ss) (env.rdtsc .start)
          obtain ⟨m₄, hrun₄, h₄⟩ := h₃.run_randExit
          have hback : md .diff + (new - ss) - (new - ss) = md .diff := BitVec.add_sub_cancel _ _
          refine ⟨m₄, _, ?_, h₄, fun f hf => ?_⟩
          · rw [hrun₂, Progress.run_mremap_failed hfail]
            exact hrun₃.trans hrun₄
          · cases f <;> simp_all [Function.update]

/-- **A call with a target** moves the region there, and goes on with
`arch_prctl(ARCH_SET_GS)`. -/
theorem run_moves {new : Word} (h : Coherent m t r0 ss md content) (hrsp : BelowStart r0 rsp)
    (htarget : moveTarget env rspAlloc m.mem md = some new) :
    ∃ m' md', Progress m m' t new none md' content ∧
      (md' .shadowStack = new ∧ md' .diff = initDiff new r0 ∧ md' .state = flashStackInited) ∧
      run (exec t env) (gsRspRuntimeRerandomize rsp rspAlloc) m =
        run (exec t env) (afterMremap (getGsRspMetadataByShadowStack ss) ss new (new - ss)
          (initDiff new r0) (env.rdtsc .start) (some new)) m' := by
  obtain ⟨hdue, hplace, hmremap, hout⟩ := moveTarget_some htarget
  rw [h.describes.due_eq, Bool.and_eq_true] at hdue
  obtain ⟨hget, helapsed⟩ := hdue
  have hss := h.describes.shadowStack
  have hdiff : md .diff + (new - ss) = initDiff new r0 := by
    rw [h.describes.diff, initDiff_add]
  obtain ⟨m₁, c, h₁, hrun⟩ := run_claimed h hrsp hget helapsed
  rw [hplace] at h₁ hrun
  rw [hss] at hout
  obtain ⟨m₂, h₂, hrun₂⟩ := h₁.run_moveShadowStack
    (by simp [Function.update, hss])
    (by simpa [Function.update] using hout)
  obtain ⟨m₃, hrun₃, h₃⟩ := Progress.run_mremap hmremap h₂ fun moved =>
    afterMremap (getGsRspMetadataByShadowStack ss) ss new (new - ss)
      (md .diff + (new - ss)) (env.rdtsc .start) moved
  refine ⟨m₃, _, h₃, ⟨?_, ?_, ?_⟩, ?_⟩
  · simp [Function.update]
  · simp [Function.update, hdiff]
  · simp [Function.update, h.describes.state]
  · rw [hrun, ← hdiff]
    simp only [afterPlacement]
    exact hrun₂.trans hrun₃

/-- A call whose target is reached and whose `ARCH_SET_GS` succeeds completes the
move. -/
theorem run_moves_done {new : Word} (h : Coherent m t r0 ss md content)
    (hrsp : BelowStart r0 rsp) (htarget : moveTarget env rspAlloc m.mem md = some new)
    (hset : env.setGs = true) :
    ∃ m' md', run (exec t env) (gsRspRuntimeRerandomize rsp rspAlloc) m = .ok ((), m') ∧
      Coherent m' t r0 new md' content ∧ OthersKept t m.mem m'.mem ∧
      (∀ u, u ≠ t → m'.threads u = m.threads u) ∧ m'.threadInfo = m.threadInfo := by
  obtain ⟨m₁, md₁, h₁, ⟨hss, hdiff, hstate⟩, hrun⟩ :=
    run_moves h hrsp htarget
  have hgs : exec t env (.setGs (initDiff new r0)) m₁ =
      .ok (true, m₁.setThread t { m₁.threads t with gs := initDiff new r0 }) := by
    simp [exec, hset]
  obtain ⟨m₂, hrun₂, h₂⟩ := (Progress.start (m := m₁.setThread t
    { m₁.threads t with gs := initDiff new r0 }) h₁.region).run_randExit
  have hthreads := h₂.threads
  refine ⟨m₂, _, ?_, ⟨⟨h₂.region, (moveTarget_free htarget).2, ?_, ?_⟩, ⟨?_, ?_, ?_, ?_⟩⟩,
    h₁.others.trans h₂.others, ?_, h₂.threadInfo.trans h₁.threadInfo⟩
  · rw [hrun, afterMremap]
    simp only [perform, Prog.lift_bind]
    rw [run_act_ok hgs]
    exact hrun₂
  · rw [hthreads, Machine.setThread_self]
  · rw [hthreads, Machine.setThread_self, h₁.threads]
    exact h.inited
  · simp [Function.update, hss]
  · simp [Function.update, hdiff]
  · simp [Function.update]
  · simp [Function.update, hstate]
  · intro u hu
    rw [hthreads, Machine.setThread_ne _ _ hu, h₁.threads]

/-- The metadata of a region that is not mapped is out of reach. -/
theorem not_mapped_field {mem : Space Owner} (hfree : Free mem ss realShadowStackSize)
    (f : Field) : ¬ Mapped mem (f.addr (getGsRspMetadataByShadowStack ss)) 8 := by
  intro hmapped
  have hnone := hfree f.regionOffset (by have := f.regionOffset_le; omega)
  have hsome := hmapped 0 (by decide)
  rw [Field.addr_eq, BitVec.add_zero] at hsome
  simp [Option.isNone_iff_eq_none.mp hnone] at hsome

/-- A call whose target is reached and whose `ARCH_SET_GS` fails rolls back through
a pointer into the region that has moved away. -/
theorem run_moves_faults {new : Word} (h : Coherent m t r0 ss md content)
    (hrsp : BelowStart r0 rsp) (htarget : moveTarget env rspAlloc m.mem md = some new)
    (hset : env.setGs = false) :
    run (exec t env) (gsRspRuntimeRerandomize rsp rspAlloc) m =
      .error (.unmapped (Field.shadowStack.addr (getGsRspMetadataByShadowStack ss))) := by
  obtain ⟨m₁, md₁, h₁, -, hrun⟩ := run_moves h hrsp htarget
  have hgs : exec t env (.setGs (initDiff new r0)) m₁ = .ok (false, m₁) := by
    simp [exec, hset]
  have hfree := h.region.old_free h₁.region h₁.others (moveTarget_free htarget).1
  rw [hrun, afterMremap]
  simp only [perform, Prog.lift_bind]
  rw [run_act_ok hgs]
  simp only [Bool.false_eq_true, if_false, rollBack, syncFetchAndAdd, store, perform,
    Prog.lift_bind, Prog.act_bind]
  rw [run_act_ok rfl]
  exact run_act_error (exec_store_unmapped (not_mapped_field hfree .shadowStack))

end Calls

end FlashStack.Runtime
