/-
The contract of the table of exited threads.

`ExitTable` is the table with its history: the regions handed to `add_memory_region`, and
those that a sweep has unmapped, each with the reading of the time-stamp counter at its
entry. `Contract` says that nothing handed in is lost or held twice and that nothing is
unmapped early.

* `contract_step_iff`: one step keeps the contract if and only if an `add` finds an entry
  that is not valid, and a sweep finds no entry expired at a reading before its
  `expired_time`;
* `exit_table_contract_iff`: the same for whole runs.

The table has a fixed number of entries, and `add_memory_region` drops what finds no free
one without a word. The test for expiry subtracts unsigned numbers, so that a reading before
the time of the entry, which another core may give, counts as a very late one. Both are
conditions on the arguments and on the table before the step.

Here it does not matter whose regions these are and whether anybody uses them, which is the
subject of the module on the cleaner; the functions are the same. The history is not in the
source. The mutex is left out, since each of the two functions holds it for the whole of its
pass.
-/

import FlashStack.Runtime.Cleaner

namespace FlashStack.Runtime

open Lib.Memory Lib.Events Process

structure ExitTable where
  entries : List ThreadRegionInfo
  mem : Space Owner
  /-- The regions handed to `add_memory_region`. -/
  handed : List ThreadRegionInfo
  /-- The regions unmapped, each with the reading at its entry. -/
  unmapped : List (Word × ThreadRegionInfo)

inductive TableEvent where
  | add (info : ThreadRegionInfo)
  | sweep (clock : Nat → Word)

/-- The valid entries. -/
def validEntries (es : List ThreadRegionInfo) : List ThreadRegionInfo := es.filter (·.valid)

/-- The entries that a sweep releases, with their readings, in the order of the table. -/
def released (clock : Nat → Word) : Nat → List ThreadRegionInfo → List (Word × ThreadRegionInfo)
  | _, [] => []
  | i, e :: es =>
      if expired (clock i) e then (clock i, e) :: released clock (i + 1) es
      else released clock (i + 1) es

/-- These are the entries a sweep calls `munmap` for. -/
theorem releaseMemoryRegion_log (clock : Nat → Word) (i : Nat) (es : List ThreadRegionInfo)
    (mem : Space Owner) :
    (releaseMemoryRegion clock i es mem).2.2.map Prod.snd =
      (released clock i es).map Prod.snd := by
  induction es generalizing i mem with
  | nil => rfl
  | cons e es ih =>
      rw [releaseMemoryRegion, released]
      by_cases hexp : expired (clock i) e = true
      · rw [if_pos hexp, if_pos hexp, List.map_cons, List.map_cons, ih]
      · rw [if_neg hexp, if_neg hexp]
        exact ih (i + 1) mem

namespace ExitTable

def step : TableEvent → ExitTable → Except Empty ExitTable
  | .add info, s =>
      .ok
        { s with
          entries := addMemoryRegion s.entries info
          handed := { info with valid := true } :: s.handed }
  | .sweep clock, s =>
      .ok
        { s with
          entries := (releaseMemoryRegion clock 0 s.entries s.mem).1
          mem := (releaseMemoryRegion clock 0 s.entries s.mem).2.1
          unmapped := released clock 0 s.entries ++ s.unmapped }

/-- Every region handed in is in a valid entry or has been unmapped, and none more often
than it was handed in; none was unmapped before its time. -/
structure Contract (s : ExitTable) : Prop where
  conserved : s.handed.Perm (validEntries s.entries ++ s.unmapped.map Prod.snd)
  notEarly : ∀ u ∈ s.unmapped,
    u.2.expiredTime.toNat + cpuCyclesAfterThreadExiting.toNat ≤ u.1.toNat

/-- Regions handed in once are at every moment in exactly one valid entry, or have been
unmapped exactly once. -/
theorem Contract.once {s : ExitTable} (h : s.Contract) (hdistinct : s.handed.Nodup)
    {r : ThreadRegionInfo} (hr : r ∈ s.handed) :
    ((validEntries s.entries).count r = 1 ∧ r ∉ s.unmapped.map Prod.snd) ∨
      (r ∉ validEntries s.entries ∧ (s.unmapped.map Prod.snd).count r = 1) := by
  have hcount := h.conserved.count_eq r
  rw [List.count_append, hdistinct.count, if_pos hr] at hcount
  by_cases hvalid : (validEntries s.entries).count r = 0
  · exact Or.inr ⟨List.count_eq_zero.mp hvalid, by omega⟩
  · exact Or.inl ⟨by omega, List.count_eq_zero.mp (by omega)⟩

/-- Before the first exit: no entry is in use, and nothing has been handed over or unmapped. -/
def initial (mem : Space Owner) : ExitTable where
  entries := List.replicate maxThreadBufCnt ⟨false, 0, 0, 0, 0⟩
  mem := mem
  handed := []
  unmapped := []

theorem validEntries_replicate (n : Nat) :
    validEntries (List.replicate n ⟨false, 0, 0, 0, 0⟩) = [] := by
  rw [validEntries, List.filter_eq_nil_iff]
  intro e he
  rw [List.eq_of_mem_replicate he]
  simp

theorem initial_contract (mem : Space Owner) : (initial mem).Contract where
  conserved := by
    rw [initial, validEntries_replicate]
    exact List.Perm.refl _
  notEarly _ hu := absurd hu List.not_mem_nil

/-- What a step needs: an `add` a free entry, a sweep that no entry counts as expired at a
reading before its `expired_time`. -/
def Meets : TableEvent → ExitTable → Prop
  | .add _, s => ∃ e ∈ s.entries, e.valid = false
  | .sweep clock, s => ∀ (i : Nat) (e : ThreadRegionInfo), s.entries[i]? = some e →
      expired (clock i) e = true → e.expiredTime.toNat ≤ (clock i).toNat

/-! ### One step -/

theorem validEntries_addMemoryRegion {es : List ThreadRegionInfo} {info : ThreadRegionInfo}
    (h : ∃ e ∈ es, e.valid = false) :
    (validEntries (addMemoryRegion es info)).Perm
      ({ info with valid := true } :: validEntries es) := by
  induction es with
  | nil => simp at h
  | cons e es ih =>
      rw [addMemoryRegion]
      cases hvalid : e.valid with
      | false =>
          simp only [Bool.false_eq_true, if_false, validEntries, List.filter_cons, hvalid, if_true]
          exact List.Perm.refl _
      | true =>
          obtain ⟨e', he', hfalse⟩ := h
          have hrest : ∃ e ∈ es, e.valid = false := by
            obtain rfl | he' := List.mem_cons.mp he'
            · rw [hvalid] at hfalse
              cases hfalse
            · exact ⟨e', he', hfalse⟩
          simp only [if_true, validEntries, List.filter_cons, hvalid]
          exact ((ih hrest).cons e).trans (List.Perm.swap _ _ _)

/-- A full table drops the region, which then stays mapped for good. -/
theorem addMemoryRegion_full {es : List ThreadRegionInfo} {info : ThreadRegionInfo}
    (h : ¬ ∃ e ∈ es, e.valid = false) : addMemoryRegion es info = es := by
  induction es with
  | nil => rfl
  | cons e es ih =>
      have hvalid : e.valid = true := by
        by_contra hfalse
        exact h ⟨e, List.mem_cons_self, Bool.not_eq_true _ ▸ hfalse⟩
      have hrest : ¬ ∃ e ∈ es, e.valid = false := by
        rintro ⟨e', he', hfalse⟩
        exact h ⟨e', List.mem_cons_of_mem e he', hfalse⟩
      rw [addMemoryRegion, if_pos hvalid, ih hrest]

/-- A sweep moves entries from the table to the history. -/
theorem validEntries_releaseMemoryRegion (clock : Nat → Word) (i : Nat)
    (es : List ThreadRegionInfo) (mem : Space Owner) :
    (validEntries es).Perm (validEntries (releaseMemoryRegion clock i es mem).1 ++
      (released clock i es).map Prod.snd) := by
  induction es generalizing i mem with
  | nil => exact List.Perm.refl _
  | cons e es ih =>
      rw [releaseMemoryRegion, released]
      by_cases hexp : expired (clock i) e = true
      · have hvalid : e.valid = true := by
          rw [expired, Bool.and_eq_true] at hexp
          exact hexp.1
        rw [if_pos hexp, if_pos hexp]
        simp only [validEntries, List.filter_cons, hvalid, if_true, Bool.false_eq_true, if_false,
          List.map_cons]
        exact ((ih (i + 1) _).cons e).trans List.perm_middle.symm
      · rw [if_neg hexp, if_neg hexp]
        cases hvalid : e.valid with
        | true =>
            simp only [validEntries, List.filter_cons, hvalid, if_true, List.cons_append]
            exact (ih (i + 1) mem).cons e
        | false =>
            simp only [validEntries, List.filter_cons, hvalid, Bool.false_eq_true, if_false]
            exact ih (i + 1) mem

theorem mem_released {clock : Nat → Word} {i : Nat} {es : List ThreadRegionInfo}
    {u : Word × ThreadRegionInfo} :
    u ∈ released clock i es ↔
      ∃ j, es[j]? = some u.2 ∧ expired (clock (i + j)) u.2 = true ∧ u.1 = clock (i + j) := by
  induction es generalizing i with
  | nil => simp [released]
  | cons e es ih =>
      have hrest : u ∈ released clock (i + 1) es ↔
          ∃ j, (e :: es)[j + 1]? = some u.2 ∧ expired (clock (i + (j + 1))) u.2 = true ∧
            u.1 = clock (i + (j + 1)) := by
        rw [ih]
        refine exists_congr fun j => ?_
        rw [List.getElem?_cons_succ, Nat.add_right_comm, Nat.add_assoc]
      rw [released]
      constructor
      · intro hu
        by_cases hexp : expired (clock i) e = true
        · rw [if_pos hexp] at hu
          obtain rfl | hu := List.mem_cons.mp hu
          · exact ⟨0, rfl, hexp, rfl⟩
          · obtain ⟨j, hj⟩ := hrest.mp hu
            exact ⟨j + 1, hj⟩
        · rw [if_neg hexp] at hu
          obtain ⟨j, hj⟩ := hrest.mp hu
          exact ⟨j + 1, hj⟩
      · rintro ⟨j, hj, hexp, hreading⟩
        cases j with
        | zero =>
            obtain rfl : e = u.2 := Option.some.inj hj
            rw [Nat.add_zero] at hexp hreading
            rw [if_pos hexp]
            exact List.mem_cons.mpr (Or.inl (Prod.ext hreading rfl))
        | succ j =>
            have hu := hrest.mpr ⟨j, hj, hexp, hreading⟩
            by_cases hfirst : expired (clock i) e = true
            · rw [if_pos hfirst]
              exact List.mem_cons_of_mem _ hu
            · rw [if_neg hfirst]
              exact hu

/-- An entry that counts as expired is so, if the reading is not before its
`expired_time`. -/
theorem expired_iff_late {clock : Word} {e : ThreadRegionInfo} (hexp : expired clock e = true) :
    e.expiredTime.toNat + cpuCyclesAfterThreadExiting.toNat ≤ clock.toNat ↔
      e.expiredTime.toNat ≤ clock.toNat := by
  have hcycles : cpuCyclesAfterThreadExiting.toNat = 32000000000 := by decide
  rw [expired, Bool.and_eq_true, decide_eq_true_iff, BitVec.lt_def, hcycles] at hexp
  have hlate := hexp.2
  rw [hcycles]
  constructor
  · omega
  · intro hle
    bv_omega

/-- **One step** keeps the contract if and only if it finds what it needs. -/
theorem contract_step_iff {e : TableEvent} {s s' : ExitTable} (h : s.Contract)
    (hstep : step e s = .ok s') : s'.Contract ↔ Meets e s := by
  cases e with
  | add info =>
      obtain rfl := Except.ok.inj hstep
      constructor
      · intro h'
        by_contra hfull
        have hlength := h'.conserved.length_eq
        simp only [addMemoryRegion_full hfull, List.length_cons, h.conserved.length_eq] at hlength
        omega
      · intro hfree
        refine ⟨?_, h.notEarly⟩
        exact (h.conserved.cons _).trans
          ((validEntries_addMemoryRegion hfree).symm.append_right _)
  | sweep clock =>
      obtain rfl := Except.ok.inj hstep
      constructor
      · intro h' i e he hexp
        have hu : (clock i, e) ∈ released clock 0 s.entries :=
          mem_released.mpr ⟨i, he, by rw [Nat.zero_add]; exact hexp, by rw [Nat.zero_add]⟩
        exact (expired_iff_late hexp).mp
          (h'.notEarly (clock i, e) (List.mem_append.mpr (Or.inl hu)))
      · intro hlate
        constructor
        · have hmoved := (validEntries_releaseMemoryRegion clock 0 s.entries s.mem).append_right
            (s.unmapped.map Prod.snd)
          rw [List.map_append, ← List.append_assoc]
          exact h.conserved.trans hmoved
        · intro u hu
          obtain hu | hu := List.mem_append.mp hu
          · obtain ⟨j, hj, hexp, hreading⟩ := mem_released.mp hu
            rw [Nat.zero_add] at hexp hreading
            rw [hreading]
            exact (expired_iff_late hexp).mpr (hlate j u.2 hj hexp)
          · exact h.notEarly u hu

/-! ### Runs -/

theorem step_ok (e : TableEvent) (s : ExitTable) : ∃ s', step e s = .ok s' := by
  cases e with
  | add info => exact ⟨_, rfl⟩
  | sweep clock => exact ⟨_, rfl⟩

/-- **The contract of the table** holds in every state of a run if and only if every step
of the run finds what it needs: no `add` meets a table of 1024 valid entries, and no sweep
meets an entry that counts as expired although the reading is before its
`expired_time`. -/
theorem exit_table_contract_iff (mem : Space Owner) (es : List TableEvent) :
    (∀ es₁ es₂ s, es = es₁ ++ es₂ → runAll step es₁ (initial mem) = .ok s → s.Contract) ↔
      Along step Meets es (initial mem) :=
  holds_throughout_iff step_ok (fun _ _ _ h hstep => contract_step_iff h hstep)
    (initial_contract mem)

/-- **A sweep on another core**, whose counter is one cycle behind the exit, unmaps the
region at once. -/
theorem exit_table_early :
    ¬ ∀ mem es es₁ es₂ s, es = es₁ ++ es₂ → runAll step es₁ (initial mem) = .ok s →
      s.Contract := by
  intro h
  let info : ThreadRegionInfo := ⟨false, 0x10000000, realShadowStackSize, 1000, 7⟩
  have hmeets := (exit_table_contract_iff (fun _ => none) [.add info, .sweep fun _ => 999]).mp
    (h (fun _ => none) _)
  have hsweep := (hmeets.tail rfl).1 0 { info with valid := true } rfl (by decide)
  exact absurd hsweep (by decide)

end ExitTable

end FlashStack.Runtime
