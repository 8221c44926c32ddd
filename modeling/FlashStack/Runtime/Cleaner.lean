/-
Thread exit and the cleaner.

A thread that exits queues the address of its region in `thread_info`; the cleaner unmaps
what has been queued long enough. In between the region is still in use: the thread runs its
remaining destructors, and these may re-randomize. The destructor of the key sets its own
value again until the last of the iterations that the thread library makes, and queues the
region in that one.

* `sweep_safe`: in a run in which no queued thread moves its region, and only entries of
  terminated threads count as expired, the cleaner unmaps exactly regions of terminated
  threads, each once;
* `sweep_unsafe`: a run in which it unmaps memory of somebody else.

A process is the system of threads with what its exit code looks at: the values under the
key, and which threads have terminated. The endless loop of the cleaner is a step that may
be taken at any time, one pass over the table under its mutex; the reading of the clock is
taken anew at each entry. Other memory comes and goes by `mmap` (`Event.mmap`), which is how
a range that a thread has left may belong to somebody else when it is unmapped.

`Takes` is what threads do anyhow, `Respects` is the condition of the result. The invariant
`Inv` says of each valid entry that it is accurate, and each kind of step keeps it.
-/

import FlashStack.Runtime.System

namespace FlashStack.Runtime

open Lib.Memory Lib.Program Lib.Events

/-- A process: its threads, the value each has under `thread_cleanup_key` (0 is
`NULL`), and which of them have terminated. -/
structure Process where
  system : System
  cleanupKey : Tid → Nat
  ended : Tid → Bool

namespace Process

abbrev machine (p : Process) : Machine := p.system.machine

abbrev threadInfo (p : Process) : List ThreadRegionInfo := p.machine.threadInfo

/-! ### The cleaner -/

/-- The test of `release_memory_region` on one entry, on unsigned numbers. A reading before the
time of the entry counts as very late. -/
def expired (clock : Word) (e : ThreadRegionInfo) : Bool :=
  e.valid && decide (cpuCyclesAfterThreadExiting < clock - e.expiredTime)

/-- One pass of `release_memory_region` over the entries from number `i` on. It
returns the table, the memory, and every `munmap` with the memory it was applied
to. `clock i` is the reading of the time-stamp counter at entry `i`. -/
def releaseMemoryRegion (clock : Nat → Word) :
    Nat → List ThreadRegionInfo → Space Owner →
      List ThreadRegionInfo × Space Owner × List (Space Owner × ThreadRegionInfo)
  | _, [], mem => ([], mem, [])
  | i, e :: es, mem =>
      if expired (clock i) e then
        let out := releaseMemoryRegion clock (i + 1) es
          (unmap mem e.shadowStack e.shadowStackSize)
        ({ e with valid := false } :: out.1, out.2.1, (mem, e) :: out.2.2)
      else
        let out := releaseMemoryRegion clock (i + 1) es mem
        (e :: out.1, out.2.1, out.2.2)

/-! ### Steps -/

inductive Event where
  /-- The constructor of the library, on the main thread. -/
  | initMain (t : Tid) (r0 rspAlloc : Word) (fuel : Nat) (env : Env)
  /-- `do_start_routine`, up to the call of the thread's own routine. -/
  | startRoutine (t : Tid) (r0 rspAlloc : Word) (fuel : Nat) (env : Env)
  | act (t : Tid) (a : Action)
  /-- The thread library calls the destructor of `thread_cleanup_key`. -/
  | destructor (t : Tid) (rsp : Word) (env : Env)
  | terminate (t : Tid)
  /-- An `mmap` of anybody else. -/
  | mmap (a : Word) (n : Nat)
  | sweep (clock : Nat → Word)

/-- `thread_cleanup_handler`: called again until the last iteration, in which it queues the
region. Other destructors may still come behind it. -/
def threadCleanupHandler (t : Tid) (rsp : Word) (env : Env) (iter : Nat) (p : Process) :
    Except Fault Process :=
  if iter < pthreadDestructorIterations then
    .ok { p with cleanupKey := Function.update p.cleanupKey t (iter + 1) }
  else
    match run (exec t env) (releaseShadowStack t rsp) p.machine with
    | .error e => .error e
    | .ok (_, m) => .ok { p with system := { p.system with machine := m } }

def step : Event → Process → Except Fault Process
  | .initMain t r0 rspAlloc fuel env, p =>
      match System.step (.init t r0 rspAlloc fuel env) p.system with
      | .error e => .error e
      | .ok s => .ok { p with system := s }
  | .startRoutine t r0 rspAlloc fuel env, p =>
      match System.step (.init t r0 rspAlloc fuel env) p.system with
      | .error e => .error e
      | .ok s =>
          .ok
            { p with
              system := s
              cleanupKey := if (s.start t).isSome then Function.update p.cleanupKey t 1
                else p.cleanupKey }
  | .act t a, p =>
      match System.step (.act t a) p.system with
      | .error e => .error e
      | .ok s => .ok { p with system := s }
  | .destructor t rsp env, p =>
      -- the thread library clears the value before it calls the destructor
      if p.cleanupKey t = 0 then .ok p
      else threadCleanupHandler t rsp env (p.cleanupKey t)
        { p with cleanupKey := Function.update p.cleanupKey t 0 }
  | .terminate t, p => .ok { p with ended := Function.update p.ended t true }
  | .mmap a n, p =>
      if n ≤ 2 ^ 64 ∧ Free p.machine.mem a n then
        .ok { p with system := { p.system with
          machine := p.machine.withMem (mapZero p.machine.mem .other a n) } }
      else .ok p
  | .sweep clock, p =>
      let out := releaseMemoryRegion clock 0 p.threadInfo p.machine.mem
      .ok { p with system := { p.system with
        machine := { p.machine with threadInfo := out.1, mem := out.2.1 } } }

/-- The steps a program takes: a thread is started once, acts after that and until it
terminates, and exits below the stack pointer it was started at. -/
def Takes : Event → Process → Prop
  | .initMain t r0 _ _ env, p => p.ended t = false ∧ r0.toNat % 8 = 0 ∧ env.setGs = true
  | .startRoutine t r0 _ _ env, p =>
      (p.machine.threads t).inited = false ∧
        p.ended t = false ∧ r0.toNat % 8 = 0 ∧ env.setGs = true
  | .act t a, p =>
      p.ended t = false ∧ ∃ r0, p.system.start t = some r0 ∧ a.Allowed r0 p.machine
  | .destructor t rsp _, p =>
      p.ended t = false ∧ ∀ r0, p.system.start t = some r0 → BelowStart r0 rsp
  | _, _ => True

/-- The threads with a valid entry: they have run their last destructor of this key, and their
region is not unmapped yet. -/
def queued (table : List ThreadRegionInfo) : List Tid := (table.filter (·.valid)).map (·.tid)

/-- What the table relies on: a queued thread does not move its region any more, and
an entry counts as expired only once its thread has terminated. -/
def Respects : Event → Process → Prop
  | .act t a, p => t ∈ queued p.threadInfo → a.target t p.machine = none
  | .sweep clock, p => ∀ i e, p.threadInfo[i]? = some e → expired (clock i) e = true →
      p.ended e.tid = true
  | _, _ => True

/-- Every `munmap` of a sweep is applied to a range that is exactly the shadow region
of the terminated thread that queued it. -/
def Safe : Event → Process → Prop
  | .sweep clock, p =>
      ∀ u ∈ (releaseMemoryRegion clock 0 p.threadInfo p.machine.mem).2.2,
        p.ended u.2.tid = true ∧
          ∀ x, ownerOf u.1 x = some (.shadow u.2.tid) ↔
            InRange u.2.shadowStack u.2.shadowStackSize x
  | _, _ => True

/-! ### The invariant -/

/-- The region of `t` is exactly the 10 MB at `ss`, and no other byte is mapped for `t`. -/
def RegionAt (mem : Space Owner) (t : Tid) (ss : Word) : Prop :=
  ∀ x, ownerOf mem x = some (.shadow t) ↔ InRange ss realShadowStackSize x

theorem RegionAt.of_kept {mem mem' : Space Owner} {t : Tid} {ss : Word}
    (h : RegionAt mem t ss) (hkept : Kept t mem mem') : RegionAt mem' t ss :=
  fun x => (hkept.ownerOf_iff x).symm.trans (h x)

theorem regionAt_of_coherent {m : Machine} {t : Tid} {r0 ss : Word} {md : Field → Word}
    {content : Nat → Byte} (h : Coherent m t r0 ss md content) : RegionAt m.mem t ss := by
  intro x
  simpa using h.region.owns x

theorem regionAt_of_threadAt {m : Machine} {t : Tid} {r0 ss : Word} {slots : Slots}
    (h : ThreadAt m t r0 ss slots) : RegionAt m.mem t ss := by
  obtain ⟨md, content, hm⟩ := h.coherent
  exact regionAt_of_coherent hm

/-- Once the region of `t` is unmapped, nothing of the others has changed. -/
theorem RegionAt.kept_unmap {mem : Space Owner} {t u : Tid} {ss : Word}
    (h : RegionAt mem t ss) (hu : u ≠ t) : Kept u mem (unmap mem ss realShadowStackSize) :=
  (othersKept_unmap realShadowStackSize_le
    ((ownedBy_iff realShadowStackSize_le).mpr fun x hx => (h x).mpr hx)).kept hu

/-- What a valid entry says is so: its thread has been initialised, and the region that it names
is the whole region of this thread. -/
structure Accurate (p : Process) (e : ThreadRegionInfo) : Prop where
  started : ∃ r0, p.system.start e.tid = some r0
  size : e.shadowStackSize = realShadowStackSize
  region : RegionAt p.machine.mem e.tid e.shadowStack

structure Inv (p : Process) : Prop where
  running : ∀ t r0, p.system.start t = some r0 → p.ended t = false →
    ∃ ss slots, ThreadAt p.machine t r0 ss slots
  inited : ∀ t r0, p.system.start t = some r0 → (p.machine.threads t).inited = true
  notStarted : ∀ t, p.system.start t = none → NoShadow p.machine t
  entries : ∀ e ∈ p.threadInfo, e.valid = true → Accurate p e
  distinct : (queued p.threadInfo).Nodup
  keyed : ∀ t, p.cleanupKey t ≠ 0 →
    (∃ r0, p.system.start t = some r0) ∧ t ∉ queued p.threadInfo

/-- Before the first runtime call: the table is empty, no thread has a value under the
key. -/
structure Initial (p : Process) : Prop where
  system : p.system.Initial
  threadInfo : p.threadInfo = List.replicate maxThreadBufCnt ⟨false, 0, 0, 0, 0⟩
  cleanupKey : ∀ t, p.cleanupKey t = 0

theorem mem_queued {table : List ThreadRegionInfo} {t : Tid} :
    t ∈ queued table ↔ ∃ e ∈ table, e.valid = true ∧ e.tid = t := by
  simp [queued, and_assoc]

theorem Initial.inv {p : Process} (h : p.Initial) : Inv p := by
  have hinvalid : ∀ e ∈ p.threadInfo, e.valid = false := by
    intro e he
    rw [h.threadInfo] at he
    rw [List.eq_of_mem_replicate he]
  have hnone : ∀ t r0, p.system.start t ≠ some r0 := fun t r0 ht => by
    rw [h.system.start t] at ht
    cases ht
  refine ⟨fun t r0 ht => absurd ht (hnone t r0), fun t r0 ht => absurd ht (hnone t r0),
    fun t _ => h.system.noShadow t, ?_, ?_, fun t ht => absurd (h.cleanupKey t) ht⟩
  · intro e he hvalid
    rw [hinvalid e he] at hvalid
    cases hvalid
  · have hempty : queued p.threadInfo = [] := by
      rw [List.eq_nil_iff_forall_not_mem]
      intro t ht
      obtain ⟨e, he, hvalid, -⟩ := mem_queued.mp ht
      rw [hinvalid e he] at hvalid
      cases hvalid
    rw [hempty]
    exact List.nodup_nil

/-- A step of thread `t` that leaves the others and the table as they were keeps the
invariant if it does so for `t`. -/
theorem Inv.of_undisturbed {p p' : Process} (h : Inv p) (t : Tid)
    (hothers : ∀ u, u ≠ t → Undisturbed u p.machine p'.machine ∧
      p'.system.start u = p.system.start u ∧ p'.cleanupKey u = p.cleanupKey u)
    (hended : p'.ended = p.ended) (htable : p'.threadInfo = p.threadInfo)
    (hrunning : ∀ r0, p'.system.start t = some r0 → p.ended t = false →
      ∃ ss slots, ThreadAt p'.machine t r0 ss slots)
    (hinited : ∀ r0, p'.system.start t = some r0 → (p'.machine.threads t).inited = true)
    (hnot : p'.system.start t = none → NoShadow p'.machine t)
    (hentry : t ∈ queued p.threadInfo → (∃ r0, p'.system.start t = some r0) ∧
      ∀ ss, RegionAt p.machine.mem t ss → RegionAt p'.machine.mem t ss)
    (hkey : p'.cleanupKey t ≠ 0 →
      (∃ r0, p'.system.start t = some r0) ∧ t ∉ queued p.threadInfo) : Inv p' where
  running u r0 hu hend := by
    rw [hended] at hend
    by_cases heq : u = t
    · subst heq
      exact hrunning r0 hu hend
    · obtain ⟨hund, hstart, -⟩ := hothers u heq
      rw [hstart] at hu
      obtain ⟨ss, slots, hthread⟩ := h.running u r0 hu hend
      exact ⟨ss, slots, hthread.of_undisturbed hund⟩
  inited u r0 hu := by
    by_cases heq : u = t
    · subst heq
      exact hinited r0 hu
    · obtain ⟨hund, hstart, -⟩ := hothers u heq
      rw [hstart] at hu
      rw [hund.thread]
      exact h.inited u r0 hu
  notStarted u hu := by
    by_cases heq : u = t
    · subst heq
      exact hnot hu
    · obtain ⟨hund, hstart, -⟩ := hothers u heq
      rw [hstart] at hu
      exact (h.notStarted u hu).of_kept hund.kept
  entries e he hvalid := by
    rw [htable] at he
    obtain ⟨hstarted, hsize, hregion⟩ := h.entries e he hvalid
    by_cases heq : e.tid = t
    · obtain ⟨hstart, hkeep⟩ := hentry (mem_queued.mpr ⟨e, he, hvalid, heq⟩)
      subst heq
      exact ⟨hstart, hsize, hkeep _ hregion⟩
    · obtain ⟨hund, hstart, -⟩ := hothers e.tid heq
      exact ⟨by rw [hstart]; exact hstarted, hsize, hregion.of_kept hund.kept⟩
  distinct := by rw [htable]; exact h.distinct
  keyed u hu := by
    rw [htable]
    by_cases heq : u = t
    · subst heq
      exact hkey hu
    · obtain ⟨-, hstart, hkeyu⟩ := hothers u heq
      rw [hkeyu] at hu
      rw [hstart]
      exact h.keyed u hu

/-! ### One sweep -/

/-- What a sweep relies on for the entries it has not looked at yet. -/
structure Sweepable (ended : Tid → Bool) (clock : Nat → Word) (i : Nat)
    (es : List ThreadRegionInfo) (mem : Space Owner) : Prop where
  size : ∀ e ∈ es, e.valid = true → e.shadowStackSize = realShadowStackSize
  region : ∀ e ∈ es, e.valid = true → RegionAt mem e.tid e.shadowStack
  distinct : (queued es).Nodup
  ended : ∀ j e, es[j]? = some e → expired (clock (i + j)) e = true → ended e.tid = true

theorem queued_cons_valid {e : ThreadRegionInfo} {es : List ThreadRegionInfo}
    (h : e.valid = true) : queued (e :: es) = e.tid :: queued es := by
  simp [queued, h]

theorem queued_cons_invalid {e : ThreadRegionInfo} {es : List ThreadRegionInfo}
    (h : e.valid = false) : queued (e :: es) = queued es := by
  simp [queued, h]

theorem queued_subset_cons {e : ThreadRegionInfo} {es : List ThreadRegionInfo} {t : Tid}
    (h : t ∈ queued es) : t ∈ queued (e :: es) := by
  obtain ⟨e', he', hvalid, htid⟩ := mem_queued.mp h
  exact mem_queued.mpr ⟨e', List.mem_cons_of_mem e he', hvalid, htid⟩

/-- A valid entry is the only one of its thread. -/
theorem Sweepable.tid_ne {ended : Tid → Bool} {clock : Nat → Word} {i : Nat}
    {e : ThreadRegionInfo} {es : List ThreadRegionInfo} {mem : Space Owner}
    (h : Sweepable ended clock i (e :: es) mem) (hvalid : e.valid = true) {t : Tid}
    (ht : t ∈ queued es) : t ≠ e.tid := by
  have hdistinct := h.distinct
  rw [queued_cons_valid hvalid, List.nodup_cons] at hdistinct
  rintro rfl
  exact hdistinct.1 ht

/-- Passing over an entry, whatever is in it. The rest of the table is as sweepable as before. -/
theorem Sweepable.keep {ended : Tid → Bool} {clock : Nat → Word} {i : Nat}
    {e : ThreadRegionInfo} {es : List ThreadRegionInfo} {mem : Space Owner}
    (h : Sweepable ended clock i (e :: es) mem) : Sweepable ended clock (i + 1) es mem where
  size e' he' := h.size e' (List.mem_cons_of_mem e he')
  region e' he' := h.region e' (List.mem_cons_of_mem e he')
  distinct := by
    have hdistinct := h.distinct
    cases hvalid : e.valid with
    | true =>
        rw [queued_cons_valid hvalid] at hdistinct
        exact hdistinct.of_cons
    | false => rwa [queued_cons_invalid hvalid] at hdistinct
  ended j e' he' := by
    have hidx : i + (j + 1) = i + 1 + j := by omega
    rw [← hidx]
    exact h.ended (j + 1) e' he'

/-- Unmapping the region of an expired entry. The other entries speak of other regions. -/
theorem Sweepable.drop {ended : Tid → Bool} {clock : Nat → Word} {i : Nat}
    {e : ThreadRegionInfo} {es : List ThreadRegionInfo} {mem : Space Owner}
    (h : Sweepable ended clock i (e :: es) mem) (hvalid : e.valid = true) :
    Sweepable ended clock (i + 1) es (unmap mem e.shadowStack e.shadowStackSize) where
  size := h.keep.size
  region e' he' hvalid' := by
    have hne := h.tid_ne hvalid (mem_queued.mpr ⟨e', he', hvalid', rfl⟩)
    rw [h.size e List.mem_cons_self hvalid]
    exact (h.keep.region e' he' hvalid').of_kept
      ((h.region e List.mem_cons_self hvalid).kept_unmap hne)
  distinct := h.keep.distinct
  ended := h.keep.ended

/-- **One sweep** unmaps only regions of terminated threads, exactly as they were
queued; the entries it leaves are of other threads, and those keep everything. -/
theorem releaseMemoryRegion_spec {ended : Tid → Bool} {clock : Nat → Word} {i : Nat}
    {es : List ThreadRegionInfo} {mem : Space Owner} (h : Sweepable ended clock i es mem) :
    (∀ u ∈ (releaseMemoryRegion clock i es mem).2.2,
      ended u.2.tid = true ∧ u.2.tid ∈ queued es ∧
        u.2.shadowStackSize = realShadowStackSize ∧ RegionAt u.1 u.2.tid u.2.shadowStack) ∧
    (∀ t, (∀ u ∈ (releaseMemoryRegion clock i es mem).2.2, u.2.tid ≠ t) →
      Kept t mem (releaseMemoryRegion clock i es mem).2.1) ∧
    (∀ e ∈ (releaseMemoryRegion clock i es mem).1, e.valid = true → e ∈ es ∧
      ∀ u ∈ (releaseMemoryRegion clock i es mem).2.2, u.2.tid ≠ e.tid) ∧
    (queued (releaseMemoryRegion clock i es mem).1).Sublist (queued es) := by
  induction es generalizing i mem with
  | nil => simp [releaseMemoryRegion, Kept.refl]
  | cons e es ih =>
      rw [releaseMemoryRegion]
      by_cases hexp : expired (clock i) e = true
      · have hvalid : e.valid = true := by simp_all [expired]
        have hsize := h.size e List.mem_cons_self hvalid
        have hregion := h.region e List.mem_cons_self hvalid
        obtain ⟨hlog, hkept, hleft, hsub⟩ := ih (h.drop hvalid)
        rw [if_pos hexp]
        simp only [List.mem_cons, forall_eq_or_imp]
        refine ⟨⟨⟨h.ended 0 e rfl hexp, ?_, hsize, hregion⟩, ?_⟩, ?_, ⟨by simp, ?_⟩, ?_⟩
        · rw [queued_cons_valid hvalid]
          exact List.mem_cons_self
        · intro u hu
          obtain ⟨hend, hqueued, hrest⟩ := hlog u hu
          exact ⟨hend, queued_subset_cons hqueued, hrest⟩
        · rintro t ⟨hne, hothers⟩
          have hfirst := hregion.kept_unmap (u := t) hne.symm
          rw [← hsize] at hfirst
          exact fun x c hc => (hfirst x c hc).trans (hkept t hothers x c hc)
        · intro e' he' hvalid'
          obtain ⟨hmem, hne⟩ := hleft e' he' hvalid'
          have htid := h.tid_ne hvalid (mem_queued.mpr ⟨e', hmem, hvalid', rfl⟩)
          exact ⟨Or.inr hmem, htid.symm, hne⟩
        · rw [queued_cons_invalid rfl, queued_cons_valid hvalid]
          exact hsub.cons _
      · obtain ⟨hlog, hkept, hleft, hsub⟩ := ih h.keep
        rw [if_neg hexp]
        refine ⟨?_, hkept, ?_, ?_⟩
        · intro u hu
          obtain ⟨hend, hqueued, hrest⟩ := hlog u hu
          exact ⟨hend, queued_subset_cons hqueued, hrest⟩
        · intro e' he' hvalid'
          rcases List.mem_cons.mp he' with rfl | he'
          · exact ⟨List.mem_cons_self, fun u hu => h.tid_ne hvalid' (hlog u hu).2.1⟩
          · obtain ⟨hmem, hne⟩ := hleft e' he' hvalid'
            exact ⟨List.mem_cons_of_mem e hmem, hne⟩
        · cases hvalid : e.valid with
          | true =>
              rw [queued_cons_valid hvalid, queued_cons_valid hvalid]
              exact hsub.cons_cons _
          | false => rwa [queued_cons_invalid hvalid, queued_cons_invalid hvalid]

/-! ### Each step keeps the invariant -/

theorem Inv.sweepable {p : Process} (h : Inv p) {clock : Nat → Word}
    (hresp : Respects (.sweep clock) p) :
    Sweepable p.ended clock 0 p.threadInfo p.machine.mem where
  size e he hvalid := (h.entries e he hvalid).size
  region e he hvalid := (h.entries e he hvalid).region
  distinct := h.distinct
  ended j e he hexp := hresp j e he (by simpa using hexp)

/-- A new thread is not queued and has no value under the key. -/
theorem Inv.not_started {p : Process} (h : Inv p) {t : Tid}
    (hin : (p.machine.threads t).inited = false) :
    p.system.start t = none ∧ t ∉ queued p.threadInfo ∧ p.cleanupKey t = 0 := by
  have hstart : ∀ r0, p.system.start t ≠ some r0 := by
    intro r0 ht
    rw [h.inited t r0 ht] at hin
    cases hin
  refine ⟨Option.eq_none_iff_forall_ne_some.mpr hstart, ?_, ?_⟩
  · intro hqueued
    obtain ⟨e, he, hvalid, rfl⟩ := mem_queued.mp hqueued
    obtain ⟨r0, hr0⟩ := (h.entries e he hvalid).started
    exact hstart r0 hr0
  · by_contra hkey
    obtain ⟨⟨r0, hr0⟩, -⟩ := h.keyed t hkey
    exact hstart r0 hr0

theorem Inv.init {p : Process} (h : Inv p) {t : Tid} {r0 rspAlloc : Word} {fuel : Nat}
    {env : Env} {s : System} (hin : (p.machine.threads t).inited = false)
    (hr0 : r0.toNat % 8 = 0) (hset : env.setGs = true)
    (hstep : System.step (.init t r0 rspAlloc fuel env) p.system = .ok s) {key : Tid → Nat}
    (hothers : ∀ u, u ≠ t → key u = p.cleanupKey u)
    (hkey : key t ≠ 0 → (s.start t).isSome = true) :
    Inv { p with system := s, cleanupKey := key } := by
  obtain ⟨hstart, hqueued, -⟩ := h.not_started hin
  obtain ⟨s', hstep', -, hund, hinfo, hin', hcase⟩ :=
    System.init_new (h.notStarted t hstart)
      hin hset
  rw [hstep'] at hstep
  cases hstep
  refine h.of_undisturbed t (fun u hu => ⟨(hund u hu).1, (hund u hu).2, hothers u hu⟩) rfl hinfo
    ?_ (fun _ _ => hin') ?_ (fun hq => absurd hq hqueued)
    (fun hne => ⟨Option.isSome_iff_exists.mp (hkey hne), hqueued⟩)
  · intro r hr hend
    split at hcase
    · obtain rfl : r = r0 := Option.some.inj (hr.symm.trans hcase.1)
      exact ⟨_, _, System.threadAt_of_coherent hcase.2 hr0⟩
    · rw [hcase.1, hstart] at hr
      cases hr
  · intro hnone
    split at hcase
    · rw [hcase.1] at hnone
      cases hnone
    · exact hcase.2

theorem Inv.act {p : Process} (h : Inv p) {t : Tid} {a : Action} {s : System}
    (htakes : Takes (.act t a) p) (hresp : Respects (.act t a) p)
    (hstep : System.step (.act t a) p.system = .ok s) : Inv { p with system := s } := by
  obtain ⟨hend, r0, ht, ha⟩ := htakes
  obtain ⟨ss, slots, hthread⟩ := h.running t r0 ht hend
  by_cases hdone : a.Completes t p.machine
  · obtain ⟨m', hact, hthread', hund, hinfo, -⟩ := Action.step_thread hthread ha hdone
    rw [System.step, hact] at hstep
    cases hstep
    refine h.of_undisturbed t (fun u hu => ⟨hund u hu, rfl, rfl⟩) rfl hinfo ?_ ?_ ?_ ?_ ?_
    · intro r hr _
      obtain rfl : r = r0 := Option.some.inj (hr.symm.trans ht)
      exact ⟨_, _, hthread'⟩
    · intro r _
      obtain ⟨md, content, hm⟩ := hthread'.coherent
      exact hm.inited
    · intro hnone
      rw [ht] at hnone
      cases hnone
    · -- a queued thread keeps its region where it is
      intro hqueued
      rw [hresp hqueued] at hthread'
      refine ⟨⟨r0, ht⟩, fun ss' hregion x => ?_⟩
      rw [← hregion x]
      exact (regionAt_of_threadAt hthread' x).trans (regionAt_of_threadAt hthread x).symm
    · exact h.keyed t
  · obtain ⟨e, hfault⟩ := Action.step_faults hthread ha hdone
    rw [System.step, hfault] at hstep
    cases hstep

/-- A step that only changes the value of `t` under the key. -/
theorem Inv.setKey {p : Process} (h : Inv p) (t : Tid) (v : Nat)
    (hkey : v ≠ 0 → p.cleanupKey t ≠ 0) :
    Inv { p with cleanupKey := Function.update p.cleanupKey t v } where
  running := h.running
  inited := h.inited
  notStarted := h.notStarted
  entries e he hvalid := ⟨(h.entries e he hvalid).started, (h.entries e he hvalid).size,
    (h.entries e he hvalid).region⟩
  distinct := h.distinct
  keyed u hu := by
    by_cases heq : u = t
    · subst heq
      simp only [Function.update_self] at hu
      exact h.keyed u (hkey hu)
    · simp only [Function.update_of_ne heq] at hu
      exact h.keyed u hu

theorem mem_addMemoryRegion {es : List ThreadRegionInfo} {info e : ThreadRegionInfo}
    (h : e ∈ addMemoryRegion es info) : e ∈ es ∨ e = { info with valid := true } := by
  induction es with
  | nil => cases h
  | cons e' es ih =>
      rw [addMemoryRegion] at h
      split at h
      · rcases List.mem_cons.mp h with rfl | h
        · exact Or.inl List.mem_cons_self
        · exact (ih h).imp (List.mem_cons_of_mem e') id
      · rcases List.mem_cons.mp h with rfl | h
        · exact Or.inr rfl
        · exact Or.inl (List.mem_cons_of_mem e' h)

/-- A thread that was not queued is queued once. -/
theorem queued_addMemoryRegion {es : List ThreadRegionInfo} {info : ThreadRegionInfo}
    (h : (queued es).Nodup) (hnew : info.tid ∉ queued es) :
    (queued (addMemoryRegion es info)).Nodup := by
  induction es with
  | nil => exact h
  | cons e es ih =>
      rw [addMemoryRegion]
      cases hvalid : e.valid with
      | true =>
          rw [queued_cons_valid hvalid] at h hnew
          rw [List.nodup_cons] at h
          rw [List.mem_cons, not_or] at hnew
          rw [if_pos rfl, queued_cons_valid hvalid, List.nodup_cons]
          refine ⟨fun hmem => ?_, ih h.2 hnew.2⟩
          obtain ⟨e', he', hvalid', htid⟩ := mem_queued.mp hmem
          rcases mem_addMemoryRegion he' with he' | rfl
          · exact h.1 (mem_queued.mpr ⟨e', he', hvalid', htid⟩)
          · exact hnew.1 htid
      | false =>
          rw [queued_cons_invalid hvalid] at h hnew
          rw [if_neg (by decide), queued_cons_valid rfl]
          exact List.nodup_cons.mpr ⟨hnew, h⟩

/-- Queueing the region of a thread that was not queued and has no value under the key
any more. -/
theorem Inv.release {p : Process} (h : Inv p) {t : Tid} {r0 ss : Word} {slots : Slots}
    (ht : p.system.start t = some r0) (hthread : ThreadAt p.machine t r0 ss slots)
    (hqueued : t ∉ queued p.threadInfo) (hkey : p.cleanupKey t = 0) (time : Word) :
    Inv { p with system := { p.system with machine := { p.machine with
      threadInfo := addMemoryRegion p.threadInfo (exitEntry t ss time) } } } where
  running u r hu hend := by
    obtain ⟨ss', slots', hthread'⟩ := h.running u r hu hend
    exact ⟨ss', slots', hthread'.of_undisturbed ⟨Kept.refl u _, rfl⟩⟩
  inited := h.inited
  notStarted := h.notStarted
  entries e he hvalid := by
    rcases mem_addMemoryRegion he with he | rfl
    · exact ⟨(h.entries e he hvalid).started, (h.entries e he hvalid).size,
        (h.entries e he hvalid).region⟩
    · have hregion : RegionAt p.machine.mem t ss := regionAt_of_threadAt hthread
      exact ⟨⟨r0, ht⟩, rfl, hregion⟩
  distinct := queued_addMemoryRegion h.distinct hqueued
  keyed u hu := by
    obtain ⟨hstart, hnot⟩ := h.keyed u hu
    refine ⟨hstart, fun hmem => ?_⟩
    obtain ⟨e, he, hvalid, rfl⟩ := mem_queued.mp hmem
    rcases mem_addMemoryRegion he with he | rfl
    · exact hnot (mem_queued.mpr ⟨e, he, hvalid, rfl⟩)
    · exact hu hkey

theorem Inv.destructor {p p' : Process} (h : Inv p) {t : Tid} {rsp : Word} {env : Env}
    (htakes : Takes (.destructor t rsp env) p)
    (hstep : step (.destructor t rsp env) p = .ok p') : Inv p' := by
  rw [step] at hstep
  by_cases hkey : p.cleanupKey t = 0
  · rw [if_pos hkey] at hstep
    cases hstep
    exact h
  · rw [if_neg hkey, threadCleanupHandler] at hstep
    by_cases hiter : p.cleanupKey t < pthreadDestructorIterations
    · rw [if_pos hiter] at hstep
      cases hstep
      simp only [Function.update_idem]
      exact h.setKey t _ fun _ => hkey
    · rw [if_neg hiter] at hstep
      obtain ⟨⟨r0, ht⟩, hqueued⟩ := h.keyed t hkey
      obtain ⟨ss, slots, hthread⟩ := h.running t r0 ht htakes.1
      obtain ⟨md, content, hm⟩ := hthread.coherent
      have hcleared := h.setKey t 0 fun hne => absurd rfl hne
      rw [run_releaseShadowStack hm (htakes.2 r0 ht)] at hstep
      cases hstep
      cases env.getGs with
      | false => exact hcleared
      | true => exact hcleared.release ht hthread hqueued (Function.update_self _ _ _) _

theorem Inv.terminate {p : Process} (h : Inv p) (t : Tid) :
    Inv { p with ended := Function.update p.ended t true } where
  running u r0 hu hend := by
    by_cases heq : u = t
    · subst heq
      simp at hend
    · simp only [Function.update_of_ne heq] at hend
      exact h.running u r0 hu hend
  inited := h.inited
  notStarted := h.notStarted
  entries e he hvalid := ⟨(h.entries e he hvalid).started, (h.entries e he hvalid).size,
    (h.entries e he hvalid).region⟩
  distinct := h.distinct
  keyed := h.keyed

theorem Inv.mmap {p : Process} (h : Inv p) {a : Word} {n : Nat} (hn : n ≤ 2 ^ 64)
    (hfree : Free p.machine.mem a n) :
    Inv { p with system := { p.system with
      machine := p.machine.withMem (mapZero p.machine.mem .other a n) } } := by
  have hund : ∀ u, Undisturbed u p.machine
      (p.machine.withMem (mapZero p.machine.mem .other a n)) :=
    fun u => ⟨kept_mapOther ((free_iff hn).mp hfree) u, rfl⟩
  refine h.of_undisturbed 0 (fun u _ => ⟨hund u, rfl, rfl⟩) rfl rfl ?_ (h.inited 0) ?_ ?_
    (h.keyed 0)
  · intro r0 ht hend
    obtain ⟨ss, slots, hthread⟩ := h.running 0 r0 ht hend
    exact ⟨ss, slots, hthread.of_undisturbed (hund 0)⟩
  · exact fun hnone => (h.notStarted 0 hnone).of_kept (hund 0).kept
  · intro hqueued
    obtain ⟨e, he, hvalid, htid⟩ := mem_queued.mp hqueued
    exact ⟨htid ▸ (h.entries e he hvalid).started, fun ss hregion => hregion.of_kept (hund 0).kept⟩

theorem Inv.sweep {p : Process} (h : Inv p) {clock : Nat → Word}
    (hresp : Respects (.sweep clock) p) :
    Inv { p with system := { p.system with machine := { p.machine with
      threadInfo := (releaseMemoryRegion clock 0 p.threadInfo p.machine.mem).1
      mem := (releaseMemoryRegion clock 0 p.threadInfo p.machine.mem).2.1 } } } := by
  obtain ⟨hlog, hkept, hleft, hsub⟩ := releaseMemoryRegion_spec (h.sweepable hresp)
  refine ⟨?_, h.inited, ?_, ?_, h.distinct.sublist hsub, ?_⟩
  · intro t r0 ht hend
    obtain ⟨ss, slots, hthread⟩ := h.running t r0 ht hend
    refine ⟨ss, slots, hthread.of_undisturbed ⟨hkept t fun u hu htid => ?_, rfl⟩⟩
    -- only terminated threads lose their region
    have hended := (hlog u hu).1
    rw [htid, hend] at hended
    cases hended
  · intro t ht x
    have hno := h.notStarted t ht
    refine hno.of_kept ?_ x
    refine hkept t fun u hu htid => ?_
    obtain ⟨e, he, hvalid, heq⟩ := mem_queued.mp (hlog u hu).2.1
    obtain ⟨r0, hr0⟩ := (h.entries e he hvalid).started
    rw [heq, htid, ht] at hr0
    cases hr0
  · intro e he hvalid
    obtain ⟨hmem, hne⟩ := hleft e he hvalid
    obtain ⟨hstart, hsize, hregion⟩ := h.entries e hmem hvalid
    exact ⟨hstart, hsize, hregion.of_kept (hkept e.tid hne)⟩
  · intro t ht
    obtain ⟨hstart, hnot⟩ := h.keyed t ht
    exact ⟨hstart, fun hmem => hnot (hsub.subset hmem)⟩

/-- **Every step keeps the invariant.** The cases are the steps of a process; the threads that do
not move are `Undisturbed`. -/
theorem step_inv (e : Event) (p p' : Process) (h : Inv p)
    (he : Takes e p ∧ Respects e p) (hstep : step e p = .ok p') : Inv p' := by
  obtain ⟨htakes, hresp⟩ := he
  cases e with
  | initMain t r0 rspAlloc fuel env =>
      rw [step] at hstep
      cases hs : System.step (.init t r0 rspAlloc fuel env) p.system with
      | error e =>
          rw [hs] at hstep
          cases hstep
      | ok s =>
          rw [hs] at hstep
          cases hstep
          cases hin : (p.machine.threads t).inited with
          | true =>
              rw [System.init_again hin] at hs
              cases hs
              exact h
          | false =>
              refine h.init hin htakes.2.1 htakes.2.2 hs (fun _ _ => rfl) fun hne => ?_
              exact absurd (h.not_started hin).2.2 hne
  | startRoutine t r0 rspAlloc fuel env =>
      rw [step] at hstep
      cases hs : System.step (.init t r0 rspAlloc fuel env) p.system with
      | error e =>
          rw [hs] at hstep
          cases hstep
      | ok s =>
          rw [hs] at hstep
          cases hstep
          refine h.init htakes.1 htakes.2.2.1 htakes.2.2.2 hs (fun u hu => ?_) fun hne => ?_
          · split
            · exact Function.update_of_ne hu _ _
            · rfl
          · by_contra hnot
            rw [if_neg hnot] at hne
            exact hne (h.not_started htakes.1).2.2
  | act t a =>
      rw [step] at hstep
      cases hs : System.step (.act t a) p.system with
      | error e =>
          rw [hs] at hstep
          cases hstep
      | ok s =>
          rw [hs] at hstep
          cases hstep
          exact h.act htakes hresp hs
  | destructor t rsp env => exact h.destructor htakes hstep
  | terminate t =>
      cases hstep
      exact h.terminate t
  | mmap a n =>
      rw [step] at hstep
      split at hstep
      · rename_i hok
        cases hstep
        exact h.mmap hok.1 hok.2
      · cases hstep
        exact h
  | sweep clock =>
      cases hstep
      exact h.sweep hresp

/-- **The cleaner is safe** in every run that keeps to what the table relies on: each
`munmap` it issues is applied to the region, as it still is, of the terminated thread
that queued it. -/
theorem sweep_safe {p₀ : Process} (h₀ : p₀.Initial) {es : List Event}
    (hes : Along step (fun e p => Takes e p ∧ Respects e p) es p₀) :
    Along step Safe es p₀ := by
  refine (along_keeps step_inv h₀.inv hes).mono ?_
  rintro e p ⟨h, -, hresp⟩
  cases e with
  | sweep clock =>
      intro u hu
      obtain ⟨hlog, -⟩ := releaseMemoryRegion_spec (h.sweepable hresp)
      obtain ⟨hended, -, hsize, hregion⟩ := hlog u hu
      rw [hsize]
      exact ⟨hended, hregion⟩
  | _ => trivial

/-! ### A thread that moves its region after queueing it -/

/-- Nothing is mapped, no thread is initialised, the table is empty. -/
def empty : Process where
  system := { System.empty with machine := { System.empty.machine with
    threadInfo := List.replicate maxThreadBufCnt ⟨false, 0, 0, 0, 0⟩ } }
  cleanupKey := fun _ => 0
  ended := fun _ => false

theorem empty_initial : empty.Initial where
  system := ⟨System.empty_initial.start, System.empty_initial.noShadow,
    System.empty_initial.inited⟩
  threadInfo := rfl
  cleanupKey _ := rfl

/-- The only thread is `t`, its region is at `ss`, and it is about to run the
destructors of iteration `iter`. -/
structure Exiting (p : Process) (t : Tid) (r0 ss : Word) (table : List ThreadRegionInfo)
    (iter : Nat) : Prop where
  start : p.system.start t = some r0
  ended : p.ended t = false
  cleanupKey : p.cleanupKey t = iter
  threadInfo : p.threadInfo = table
  coherent : Coherent p.machine t r0 ss (initialMetadata ss (initDiff ss r0)) fun _ => 0
  free : ∀ x, ¬ InRange ss realShadowStackSize x → p.machine.mem x = none

section LateMove

variable {p : Process} {t : Tid} {r0 rsp ss new : Word} {table : List ThreadRegionInfo}
  {iter : Nat} {env : Env}

theorem exiting_of_startRoutine {rspAlloc : Word} {fuel : Nat} (hset : env.setGs = true)
    (hplace : firstPlacement env rspAlloc empty.machine.mem fuel 0 = some ss) :
    ∃ p, step (.startRoutine t r0 rspAlloc fuel env) empty = .ok p ∧
      Exiting p t r0 ss empty.threadInfo 1 := by
  obtain ⟨s, hstep, hothers, -, hinfo, -, hcase⟩ :=
    System.init_new (empty_initial.system.noShadow t) (empty_initial.system.inited t) hset
  rw [hplace] at hcase
  obtain ⟨hstart, hcoherent⟩ := hcase
  refine ⟨_, by rw [step, hstep], hstart, rfl, by simp [hstart], hinfo, hcoherent, fun x hx => ?_⟩
  exact hothers.free_outside (fun _ => rfl) (regionAt_of_coherent hcoherent) hx

/-- An iteration before the last one only counts. The key is set again, so that the destructor is
called once more. -/
theorem Exiting.iterate (h : Exiting p t r0 ss table iter) (hpos : iter ≠ 0)
    (hiter : iter < pthreadDestructorIterations) :
    ∃ p', step (.destructor t rsp env) p = .ok p' ∧ Exiting p' t r0 ss table (iter + 1) := by
  have hstep : step (.destructor t rsp env) p = .ok { p with
      cleanupKey := Function.update (Function.update p.cleanupKey t 0) t (iter + 1) } := by
    rw [step, h.cleanupKey, if_neg hpos, threadCleanupHandler, if_pos hiter]
  exact ⟨_, hstep, h.start, h.ended, Function.update_self _ _ _, h.threadInfo, h.coherent,
    h.free⟩

/-- The last iteration queues the region. -/
theorem Exiting.release (h : Exiting p t r0 ss table pthreadDestructorIterations)
    (hrsp : BelowStart r0 rsp) (hget : env.getGs = true) :
    ∃ p', step (.destructor t rsp env) p = .ok p' ∧
      Exiting p' t r0 ss (addMemoryRegion table (exitEntry t ss (env.rdtsc .current))) 0 := by
  have hstep : step (.destructor t rsp env) p = .ok
      { p with
        system := { p.system with machine := { p.machine with
          threadInfo := addMemoryRegion p.threadInfo (exitEntry t ss (env.rdtsc .current)) } }
        cleanupKey := Function.update p.cleanupKey t 0 } := by
    rw [step, h.cleanupKey, if_neg (by decide), threadCleanupHandler, if_neg (by decide),
      run_releaseShadowStack h.coherent hrsp, if_pos hget]
  refine ⟨_, hstep, h.start, h.ended, Function.update_self _ _ _, ?_, ?_, h.free⟩
  · simp only [h.threadInfo]
  · obtain ⟨⟨hregion, haligned, hgs, hinited⟩, hdesc⟩ := h.coherent
    exact ⟨⟨hregion, haligned, hgs, hinited⟩, hdesc⟩

/-- The thread moves its region all the same. The entry that it has queued keeps the old address.
-/
theorem Exiting.move {rspAlloc : Word} (h : Exiting p t r0 ss table iter)
    (hrsp : BelowStart r0 rsp) (hset : env.setGs = true)
    (htarget : moveTarget env rspAlloc p.machine.mem (initialMetadata ss (initDiff ss r0)) =
      some new) :
    ∃ p', step (.act t (.rerandomize rsp rspAlloc env)) p = .ok p' ∧
      p'.threadInfo = table ∧ Free p'.machine.mem ss realShadowStackSize := by
  obtain ⟨m', md', hrun, h', hothers, -, hinfo⟩ := run_moves_done h.coherent hrsp htarget hset
  refine ⟨_, by rw [step, System.step, Action.step, hrun], hinfo.trans h.threadInfo, ?_⟩
  exact h.coherent.region.old_free h'.region hothers (moveTarget_free htarget).1

theorem step_mmap {a : Word} {n : Nat} (hn : n ≤ 2 ^ 64) (hfree : Free p.machine.mem a n) :
    ∃ p', step (.mmap a n) p = .ok p' ∧ p'.threadInfo = p.threadInfo ∧
      p'.machine.mem = mapZero p.machine.mem .other a n := by
  rw [step, if_pos ⟨hn, hfree⟩]
  exact ⟨_, rfl, rfl, rfl⟩

/-- An expired entry whose range has passed into other hands makes the sweep unsafe. -/
theorem not_safe_of_foreign {clock : Nat → Word} {e : ThreadRegionInfo}
    {es : List ThreadRegionInfo} (htable : p.threadInfo = e :: es)
    (hexp : expired (clock 0) e = true) (hpos : 0 < e.shadowStackSize)
    (howner : ownerOf p.machine.mem e.shadowStack = some .other) :
    ¬ Safe (.sweep clock) p := by
  intro hsafe
  have hmem : (p.machine.mem, e) ∈
      (releaseMemoryRegion clock 0 p.threadInfo p.machine.mem).2.2 := by
    rw [htable, releaseMemoryRegion, if_pos hexp]
    exact List.mem_cons_self
  have hin : InRange e.shadowStack e.shadowStackSize e.shadowStack := by
    simpa [InRange] using hpos
  have hown := ((hsafe _ hmem).2 e.shadowStack).mpr hin
  rw [howner] at hown
  cases hown

end LateMove

/-- A thread starts and runs its destructors to the last iteration. -/
def exit : List Event :=
  .startRoutine 1 0x7FFFFFFFE000 0x7FFFFFFFD000 1 (System.willing 0x10000000) ::
    List.replicate 4 (.destructor 1 0x7FFFFFFFB000 (System.willing 0x10000000))

/-- The table once the thread has queued its region. The first entry is in use, and all others are
free. -/
def exitTable : List ThreadRegionInfo :=
  { exitEntry 1 0x10000000 0x10000000000 with valid := true } ::
    List.replicate 1023 ⟨false, 0, 0, 0, 0⟩

theorem exit_run :
    ∃ p, runAll step exit empty = .ok p ∧
      Along step (fun e p => Takes e p ∧ Respects e p) exit empty ∧
      Exiting p 1 0x7FFFFFFFE000 0x10000000 exitTable 0 := by
  have hbelow : BelowStart 0x7FFFFFFFE000 0x7FFFFFFFB000 := by decide
  have htakes : ∀ {p table iter}, Exiting p 1 0x7FFFFFFFE000 0x10000000 table iter →
      Takes (.destructor 1 0x7FFFFFFFB000 (System.willing 0x10000000)) p := by
    intro p table iter h
    refine ⟨h.ended, fun r0 hr0 => ?_⟩
    rw [h.start] at hr0
    cases hr0
    exact hbelow
  obtain ⟨p₁, s₁, h₁⟩ := exiting_of_startRoutine (t := 1) rfl System.firstPlacement_empty
  obtain ⟨p₂, s₂, h₂⟩ := h₁.iterate (by decide) (by decide)
  obtain ⟨p₃, s₃, h₃⟩ := h₂.iterate (by decide) (by decide)
  obtain ⟨p₄, s₄, h₄⟩ := h₃.iterate (by decide) (by decide)
  have hget : (System.willing 0x10000000).getGs = true := rfl
  obtain ⟨p₅, s₅, h₅⟩ := h₄.release hbelow hget
  refine ⟨p₅, ?_, ?_, h₅⟩
  · exact (runAll_cons s₁).trans ((runAll_cons s₂).trans ((runAll_cons s₃).trans
      ((runAll_cons s₄).trans (runAll_cons s₅))))
  · exact .cons ⟨⟨rfl, rfl, by decide, rfl⟩, trivial⟩ s₁ (.cons ⟨htakes h₁, trivial⟩ s₂
      (.cons ⟨htakes h₂, trivial⟩ s₃ (.cons ⟨htakes h₃, trivial⟩ s₄
        (.cons ⟨htakes h₄, trivial⟩ s₅ trivial))))

/-- The thread exits and terminates, and the cleaner runs. The clock has gone far enough for it.
-/
def orderlyExit : List Event := exit ++ [.terminate 1, .sweep fun _ => 0x20000000000]

theorem orderlyExit_safe : Along step Safe orderlyExit empty := by
  obtain ⟨p, hrun, halong, h⟩ := exit_run
  refine sweep_safe empty_initial (halong.append hrun
    (.cons ⟨trivial, trivial⟩ rfl (.cons ⟨trivial, ?_⟩ rfl trivial)))
  -- the only valid entry is that of the terminated thread
  intro i e he hexp
  rw [show Process.threadInfo _ = exitTable from h.threadInfo] at he
  cases i with
  | zero =>
      cases he
      show Function.update p.ended 1 true 1 = true
      rw [Function.update_self]
  | succ i =>
      rw [exitTable, List.getElem?_cons_succ] at he
      rw [List.eq_of_mem_replicate (List.mem_of_getElem? he)] at hexp
      cases hexp

/-- The thread exits but re-randomizes in a later destructor; its old range is mapped
by somebody else; it terminates, and the cleaner runs. -/
def lateMove : List Event :=
  exit ++
    [.act 1 (.rerandomize 0x7FFFFFFFB000 0x7FFFFFFFA000 (System.willing 0x20000000)),
      .mmap 0x10000000 realShadowStackSize,
      .terminate 1,
      .sweep fun _ => 0x20000000000]

/-- **The cleaner unmaps foreign memory** in a run that takes only the steps a program
takes. -/
theorem sweep_unsafe : Along step Takes lateMove empty ∧ ¬ Along step Safe lateMove empty := by
  have hbelow : BelowStart 0x7FFFFFFFE000 0x7FFFFFFFB000 := by decide
  obtain ⟨p₅, hrun, halong, h₅⟩ := exit_run
  have htarget : moveTarget (System.willing 0x20000000) 0x7FFFFFFFA000 p₅.machine.mem
      (initialMetadata 0x10000000 (initDiff 0x10000000 0x7FFFFFFFE000)) =
        some 0x20000000 := by
    refine System.moveTarget_sample ((free_iff realShadowStackSize_le).mpr fun x hx => ?_)
    exact h₅.free x (System.apart_sample x hx)
  obtain ⟨p₆, s₆, htable, hfree⟩ := h₅.move hbelow rfl htarget
  obtain ⟨p₇, s₇, htable₇, hmem⟩ := step_mmap realShadowStackSize_le hfree
  constructor
  · exact (halong.mono fun _ _ h => h.1).append hrun
      (.cons ⟨h₅.ended, _, h₅.start, hbelow⟩ s₆
        (.cons trivial s₇ (.cons trivial rfl (.cons trivial rfl trivial))))
  · intro h
    have hrest := (along_append h hrun).2
    have hsafe := (hrest.tail s₆ |>.tail s₇ |>.tail rfl).1
    revert hsafe
    refine not_safe_of_foreign (htable₇.trans htable) (by decide) (by decide) ?_
    have howner := mapZero_inside (m := p₆.machine.mem) (o := Owner.other) (a := 0x10000000)
      (n := realShadowStackSize) (x := 0x10000000) (by decide)
    rw [← hmem] at howner
    exact congrArg (Option.map Cell.owner) howner

end Process

end FlashStack.Runtime
