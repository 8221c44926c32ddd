/-
The first and the last runtime call of a thread.

* `initShadowStack_spec`: a thread without a shadow stack gets one, and its GS base, its
  metadata and the region agree; a thread that is still looking for memory has none;
* `initShadowStack_again`: a second call returns at once;
* `releaseShadowStack_spec`: a thread that exits queues the address of its region for the
  cleaner and changes nothing else.

The initialisation asks for memory until it gets some. The model cuts that loop off, and the
answer says whether it got there; `firstPlacement` is the region of the first call of
`get_memory_at_random` that finds one. A thread is marked as initialised before it has a
region, so that a run cut off in between leaves it marked and without one, as it is in the
source while the loop goes on.

What a thread is given is said in the words of the other modules (`Coherent`, `NoShadow`),
so that runs of several threads can start from here. `arch_prctl` is taken to succeed in the
initialisation, where the source does not look at its result. The queued entry holds the
address that the metadata names at this moment, and nothing is unmapped yet.
-/

import FlashStack.Runtime.Rerandomize

namespace FlashStack.Runtime

open Lib.Memory Lib.Program

/-! ### Initialisation -/

/-- Nothing is mapped as the shadow stack of `t`: it has not been initialised, or is still looking
for memory. -/
def NoShadow (m : Machine) (t : Tid) : Prop := ∀ x, ownerOf m.mem x ≠ some (.shadow t)

section Init

variable {m m' : Machine} {t : Tid} {env : Env} {ss rsp rspAlloc : Word} {md : Field → Word}
  {content : Nat → Byte}

theorem Machine.placed_counters (m : Machine) (t : Tid) (size : Nat) (c : Counter → Word)
    (a : Option Word) :
    ({ m with counters := c } : Machine).placed t size a =
      { m.placed t size a with counters := c } := by
  cases a <;> rfl

/-- The first region that one of the `fuel` calls of `get_memory_at_random` from
number `call` on obtains. -/
def firstPlacement (env : Env) (rspAlloc : Word) (mem : Space Owner) (fuel call : Nat) :
    Option Word :=
  (List.range' call fuel).findSome? fun call =>
    placement env call rspAlloc mem realShadowStackSize

/-- A region obtained at the start is free memory, 8MB-aligned. -/
theorem firstPlacement_free {mem : Space Owner} {fuel call : Nat}
    (h : firstPlacement env rspAlloc mem fuel call = some ss) :
    Free mem ss realShadowStackSize ∧ ss.toNat % 2 ^ 23 = 0 := by
  obtain ⟨i, -, hi⟩ := List.exists_of_findSome?_eq_some h
  obtain ⟨hfree, hrej⟩ := placement_some hi
  exact ⟨hfree.2, (accepted_iff.mp hrej).1⟩

/-- The attempts leave nothing behind but the region they end with. -/
theorem allocateShadowStack_spec (fuel call : Nat) :
    Ensures (exec t env) (allocateShadowStack rspAlloc fuel call) m fun addr m' =>
      addr = firstPlacement env rspAlloc m.mem fuel call ∧
        ∃ c, m' = { m.placed t realShadowStackSize addr with counters := c } := by
  induction fuel generalizing call m with
  | zero => exact ensures_ret.mpr ⟨rfl, m.counters, rfl⟩
  | succ fuel ih =>
      rw [allocateShadowStack, ensures_bind]
      refine (getMemoryAtRandom_spec realShadowStackSize_le).mono ?_
      rintro addr m₁ ⟨haddr, c, rfl⟩
      simp only [firstPlacement, List.range'_succ, List.findSome?_cons, ← haddr]
      cases addr with
      | none =>
          refine ih (call + 1) |>.mono ?_
          rintro addr m₂ ⟨haddr₂, c', rfl⟩
          exact ⟨haddr₂, c', by rw [Machine.placed_counters]; rfl⟩
      | some ss => exact ensures_ret.mpr ⟨rfl, c, rfl⟩

/-- The metadata of a thread that was just initialised. Nothing of the memory at the region is
kept: `mmap` has filled it with zeros. -/
def initialMetadata (ss diff : Word) : Field → Word
  | .shadowStack => ss
  | .diff => diff
  | .state => flashStackInited
  | _ => 0

theorem Progress.run_initMetadataOnShadowStack (h : Progress m m' t ss none md content)
    (diff : Word) {α : Type} (k : Unit → Program α) :
    ∃ m'' md', run (exec t env) (initMetadataOnShadowStack ss diff >>= k) m' =
        run (exec t env) (k ()) m'' ∧
      Progress m m'' t ss none md' content ∧
      Function.update md' .state flashStackInited = initialMetadata ss diff := by
  simp only [initMetadataOnShadowStack, store, perform, Prog.lift_bind, Prog.act_bind]
  obtain ⟨m₁, hrun₁, h₁⟩ := h.run_memset _
  obtain ⟨m₂, hrun₂, h₂⟩ := h₁.run_store .shadowStack ss _
  obtain ⟨m₃, hrun₃, h₃⟩ := h₂.run_store .isRandomizing 0 _
  obtain ⟨m₄, hrun₄, h₄⟩ := h₃.run_store .cpuCycles 0 _
  obtain ⟨m₅, hrun₅, h₅⟩ := h₄.run_store .relaxing 0 _
  obtain ⟨m₆, hrun₆, h₆⟩ := h₅.run_store .diff diff _
  refine ⟨m₆, _, ?_, h₆, ?_⟩
  · rw [hrun₁, hrun₂, hrun₃, hrun₄, hrun₅]
    exact hrun₆
  · funext f
    cases f <;> simp [Function.update, initialMetadata]

/-- A thread is initialised once. -/
theorem initShadowStack_again (h : (m.threads t).inited = true) (fuel : Nat) :
    run (exec t env) (initShadowStack fuel rsp rspAlloc) m = .ok (true, m) := by
  simp only [initShadowStack, perform, Prog.lift_bind]
  rw [run_act_ok rfl, h]
  rfl

/-- The machine once the region of a new thread is mapped. -/
def finishPlacing (m : Machine) (t : Tid) (ss : Word) (c : Counter → Word) : Machine :=
  { (m.setThread t { m.threads t with inited := true }).placed t realShadowStackSize (some ss)
    with counters := c }

theorem finishPlacing_threads (m : Machine) (t : Tid) (ss : Word) (c : Counter → Word) :
    (finishPlacing m t ss c).threads =
      (m.setThread t { m.threads t with inited := true }).threads := by
  simp only [finishPlacing, Machine.placed, Machine.withMem_threads]

/-- **Initialisation.** The thread gets the first region obtained, or has none yet
where the allocation loop was cut off before. -/
theorem initShadowStack_spec (hnone : NoShadow m t) (hnew : (m.threads t).inited = false)
    (hset : env.setGs = true) (fuel : Nat) :
    Ensures (exec t env) (initShadowStack fuel rsp rspAlloc) m fun done m' =>
      (OthersKept t m.mem m'.mem ∧ (∀ u, u ≠ t → m'.threads u = m.threads u) ∧
        m'.threadInfo = m.threadInfo ∧ (m'.threads t).inited = true) ∧
      done = (firstPlacement env rspAlloc m.mem fuel 0).isSome ∧
      match firstPlacement env rspAlloc m.mem fuel 0 with
      | some ss => Coherent m' t rsp ss (initialMetadata ss (initDiff ss rsp)) fun _ => 0
      | none => NoShadow m' t := by
  simp only [initShadowStack, perform, Prog.lift_bind]
  rw [ensures_act rfl, hnew]
  simp only [Bool.false_eq_true, if_false]
  rw [ensures_act rfl, doInitShadowStack, ensures_bind]
  refine (allocateShadowStack_spec fuel 0).mono ?_
  rintro addr m₁ ⟨hplaced, c, rfl⟩
  rw [Machine.setThread_mem] at hplaced
  rw [← hplaced]
  cases addr with
  | none =>
      refine ensures_ret.mpr ⟨⟨OthersKept.refl t _, ?_, rfl, ?_⟩, rfl, hnone⟩
      · exact fun u hu => Machine.setThread_ne m _ hu
      · exact congrArg Thread.inited (Machine.setThread_self m t _)
  | some ss =>
      obtain ⟨hfree, haligned⟩ := firstPlacement_free hplaced.symm
      have hregion : ShadowRegion (mapZero m.mem (.shadow t) ss realShadowStackSize) t ss none
          (fun _ => 0) fun _ => 0 := ShadowRegion.of_mapZero hnone
      have hmap := othersKept_mapZero (t := t) realShadowStackSize_le hfree
      obtain ⟨m₂, md₂, hrun₂, h₂, hmd⟩ :=
        (Progress.start (m := finishPlacing m t ss c) hregion).run_initMetadataOnShadowStack
          (initDiff ss rsp) fun _ => .act (.setGs (initDiff ss rsp)) fun _ =>
            .act (.store (Field.addr (getGsRspMetadataByShadowStack ss) .state) flashStackInited)
              fun _ => .ret true
      have hgs : exec t env (.setGs (initDiff ss rsp)) m₂ =
          .ok (true, m₂.setThread t { m₂.threads t with gs := initDiff ss rsp }) := by
        simp [exec, hset]
      obtain ⟨m₃, hrun₃, h₃⟩ := (Progress.start (m := m₂.setThread t
        { m₂.threads t with gs := initDiff ss rsp }) h₂.region).run_store .state
          flashStackInited fun _ => .ret true
      rw [hmd] at h₃
      refine ⟨true, m₃, ?_, ⟨?_, ?_, ?_, ?_⟩, rfl, ⟨h₃.region, haligned, ?_, ?_⟩,
        ⟨rfl, rfl, rfl, rfl⟩⟩
      · refine hrun₂.trans ((run_act_ok hgs).trans hrun₃)
      · exact hmap.trans (h₂.others.trans h₃.others)
      · intro u hu
        rw [h₃.threads, Machine.setThread_ne _ _ hu, h₂.threads, finishPlacing_threads]
        exact Machine.setThread_ne m _ hu
      · exact h₃.threadInfo.trans h₂.threadInfo
      · rw [h₃.threads, Machine.setThread_self, h₂.threads, finishPlacing_threads,
          Machine.setThread_self]
      · rw [h₃.threads, Machine.setThread_self]
      · rw [h₃.threads, Machine.setThread_self, h₂.threads, finishPlacing_threads,
          Machine.setThread_self]

end Init

/-! ### Exit -/

section Exit

variable {m : Machine} {t : Tid} {env : Env} {r0 ss rsp : Word} {md : Field → Word}
  {content : Nat → Byte}

/-- The entry a thread queues for its region. It becomes valid when it is stored in the table. -/
def exitEntry (t : Tid) (ss expiredTime : Word) : ThreadRegionInfo :=
  { valid := false, shadowStack := ss, shadowStackSize := realShadowStackSize, expiredTime,
    tid := t }

/-- **Exit.** The region is queued for the cleaner, under the address that the metadata names;
memory is as before. -/
theorem run_releaseShadowStack (h : Coherent m t r0 ss md content) (hrsp : BelowStart r0 rsp) :
    run (exec t env) (releaseShadowStack t rsp) m =
      .ok ((), if env.getGs then
        { m with threadInfo := addMemoryRegion m.threadInfo (exitEntry t ss (env.rdtsc .current)) }
      else m) := by
  simp only [releaseShadowStack, getGsRspMetadataByRsp, load, rdtsc, perform, Prog.lift_bind,
    Prog.act_bind]
  cases hget : env.getGs with
  | false =>
      have hgs : exec t env .getGs m = .ok (none, m) := by simp [exec, hget]
      rw [run_act_ok hgs]
      rfl
  | true =>
      have hgs : exec t env .getGs m = .ok (some (initDiff ss r0), m) := by
        simp [exec, hget, h.gs]
      rw [run_act_ok hgs]
      simp only [Prog.pure_eq, Prog.ret_bind, shadowStackByRsp_initDiff h.aligned hrsp]
      rw [(Progress.start h.region).run_load .shadowStack, run_act_ok rfl,
        h.describes.shadowStack]
      rfl

end Exit

end FlashStack.Runtime
