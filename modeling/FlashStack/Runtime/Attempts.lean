/-
The attempts of `get_memory_at_random`.

`getMemoryAtRandom_spec` says what the function returns. Here it is what it does on the way:
how often it calls `mmap` and with which hints, and which statistics counter it increments.

* `mmapHint_aligned`, `mmapHint_lt`: a hint is aligned to 8 MB and below the adjusted stack
  pointer;
* `Attempts`: a log of actions with at most a number of `mmap` calls, all of them with such
  hints;
* `performed_getMemoryAtRandom`: the log of the function is one, whatever the outcomes are,
  by induction on the iterations that are left;
* `get_memory_at_random_contract` puts the two together: the bound, the hints, the result,
  the cleanup, and the counter, for every environment.

The stack pointer must be above 20 MB: below, the difference is zero or wraps, and the test
for it in the source no longer keeps the hint below the stack. The log is that of a run on
its own (`Lib.Program.performed`). The model's bound on the iterations is one that the loop
does not reach (`getMemoryAtRandomLoop_fuel`), so that it cuts nothing off.
-/

import FlashStack.Runtime.GsBase

namespace FlashStack.Runtime

open Lib.Memory Lib.Program

/-! ### Hints -/

theorem toNat_and_le (x y : Word) : (x &&& y).toNat ≤ x.toNat := by
  rw [BitVec.toNat_and]
  exact Nat.and_le_left

/-- A hint is 8MB-aligned. -/
theorem mmapHint_aligned (adjustedRsp x : Word) : (mmapHint adjustedRsp x).toNat % 2 ^ 23 = 0 := by
  have hmask : spaShadowStack8MBRandAddrMask =
      spaShadowStack8MBRandAddrMask &&& defBuddyCallStackSizeMask := by decide
  rw [mmapHint, hmask, ← BitVec.and_assoc, toNat_and_callStackSizeMask]
  exact Nat.mul_mod_left _ _

/-- A hint is below `SPA_MAX_SHADOW_STACK_ADDR` and below `adjusted_rsp`. -/
theorem mmapHint_lt {adjustedRsp : Word} (h : 0 < adjustedRsp.toNat) (x : Word) :
    (mmapHint adjustedRsp x).toNat < spaMaxShadowStackAddr.toNat ∧
      (mmapHint adjustedRsp x).toNat < adjustedRsp.toNat := by
  have hpos : (0 : Word) < adjustedRsp := BitVec.lt_def.mpr h
  have hmax : 0 < spaMaxShadowStackAddr.toNat := by decide
  have hle := toNat_and_le (x % spaMaxShadowStackAddr % adjustedRsp) spaShadowStack8MBRandAddrMask
  rw [mmapHint, if_pos hpos]
  rw [BitVec.toNat_umod] at hle
  have hrsp := Nat.mod_lt (x % spaMaxShadowStackAddr).toNat h
  have hfirst := Nat.mod_le (x % spaMaxShadowStackAddr).toNat adjustedRsp.toNat
  have hsecond : (x % spaMaxShadowStackAddr).toNat < spaMaxShadowStackAddr.toNat := by
    rw [BitVec.toNat_umod]
    exact Nat.mod_lt _ hmax
  exact ⟨by omega, by omega⟩

/-! ### The loop -/

/-- The hints a sequence of actions passes to `mmap`, in order; as many as there are calls. -/
def mmapHints (ops : List Op) : List Word :=
  ops.filterMap fun op =>
    match op with
    | .mmap _ _ hint _ => some hint
    | _ => none

/-- The indices of `gsrsp_total_attempts` that it increments, in their order. -/
def attemptsCounted (ops : List Op) : List Nat :=
  ops.filterMap fun op =>
    match op with
    | .count (.attempts i) _ => some i
    | _ => none

/-- The actions of up to `n` attempts: at most `n` calls of `mmap`, with hints made from
random values. -/
structure Attempts (adjustedRsp : Word) (n : Nat) (ops : List Op) : Prop where
  calls : (mmapHints ops).length ≤ n
  hints : ∀ hint ∈ mmapHints ops, ∃ x, hint = mmapHint adjustedRsp x
  counts : attemptsCounted ops = []

namespace Attempts

variable {adjustedRsp : Word} {n call i size : Nat} {ops : List Op}

theorem nil (adjustedRsp : Word) (n : Nat) : Attempts adjustedRsp n [] :=
  ⟨Nat.zero_le _, fun _ h => absurd h List.not_mem_nil, rfl⟩

theorem rdrand (h : Attempts adjustedRsp n ops) (call i : Nat) :
    Attempts adjustedRsp n (.rdrand call i :: ops) := ⟨h.calls, h.hints, h.counts⟩

theorem munmap (h : Attempts adjustedRsp n ops) (a : Word) (size : Nat) :
    Attempts adjustedRsp n (.munmap a size :: ops) := ⟨h.calls, h.hints, h.counts⟩

theorem mmap (h : Attempts adjustedRsp n ops) (call i size : Nat) (x : Word) :
    Attempts adjustedRsp (n + 1) (.mmap call i (mmapHint adjustedRsp x) size :: ops) := by
  refine ⟨Nat.succ_le_succ h.calls, fun hint hmem => ?_, h.counts⟩
  obtain rfl | hmem := List.mem_cons.mp hmem
  · exact ⟨x, rfl⟩
  · exact h.hints hint hmem

end Attempts

section Loop

variable {t : Tid} {env : Env} {m : Machine} {call size : Nat} {adjustedRsp rsp : Word}

/-- The loop ends by itself: more fuel than its iterations changes nothing. -/
theorem getMemoryAtRandomLoop_fuel {fuel fuel' i : Nat} (hi : i ≤ spaMaxMmapAttempts + 1)
    (h : spaMaxMmapAttempts + 2 ≤ fuel + i) (h' : spaMaxMmapAttempts + 2 ≤ fuel' + i) :
    getMemoryAtRandomLoop call adjustedRsp size fuel i =
      getMemoryAtRandomLoop call adjustedRsp size fuel' i := by
  induction fuel generalizing fuel' i with
  | zero => omega
  | succ fuel ih =>
      cases fuel' with
      | zero => omega
      | succ fuel' =>
          simp only [getMemoryAtRandomLoop]
          by_cases hlast : spaMaxMmapAttempts < i
          · simp only [if_pos hlast]
          · have hrest : getMemoryAtRandomLoop call adjustedRsp size fuel (i + 1) =
                getMemoryAtRandomLoop call adjustedRsp size fuel' (i + 1) :=
              ih (by omega) (by omega) (by omega)
            simp only [if_neg hlast, hrest]

/-- What the loop does from iteration `i` on. -/
theorem performed_getMemoryAtRandomLoop (fuel i : Nat) :
    Attempts adjustedRsp (spaMaxMmapAttempts + 1 - i)
      (performed (exec t env) (getMemoryAtRandomLoop call adjustedRsp size fuel i) m) := by
  induction fuel generalizing i m with
  | zero => exact Attempts.nil _ _
  | succ fuel ih =>
      simp only [getMemoryAtRandomLoop, Prog.lift_bind]
      rw [performed_act rfl]
      refine Attempts.rdrand ?_ call i
      by_cases hlast : spaMaxMmapAttempts < i
      · rw [if_pos hlast]
        exact Attempts.nil _ _
      · have hn : spaMaxMmapAttempts + 1 - i = spaMaxMmapAttempts + 1 - (i + 1) + 1 := by omega
        have hmmap : exec t env (.mmap call i (mmapHint adjustedRsp (env.rdrand call i)) size) m =
            .ok ((m.mmap t size (env.mmap call i)).1, (m.mmap t size (env.mmap call i)).2) := rfl
        rw [if_neg hlast, performed_act hmmap, hn]
        refine Attempts.mmap ?_ call i size _
        cases (m.mmap t size (env.mmap call i)).1 with
        | none => exact ih (i + 1)
        | some addr =>
            by_cases hrej : rejected adjustedRsp addr = true
            · simp only [hrej, if_true, Runtime.munmap, perform, Prog.lift_bind]
              rw [performed_act rfl]
              exact (ih (i + 1)).munmap addr size
            · simp only [hrej, Bool.false_eq_true, if_false, Prog.pure_eq]
              exact Attempts.nil _ _

/-- The statistics are counted after the loop, and their index is one of the array. -/
theorem performed_getMemoryAtRandom (init : Bool) :
    ∃ ops counts, performed (exec t env) (getMemoryAtRandom call rsp size init) m = ops ++ counts ∧
      Attempts (rsp - BitVec.ofNat 64 (2 * realShadowStackSize)) (spaMaxMmapAttempts + 1) ops ∧
      mmapHints counts = [] ∧ ∀ i ∈ attemptsCounted counts, i ≤ spaMaxMmapAttempts := by
  rw [getMemoryAtRandom, performed_bind]
  refine ⟨_, _, rfl, performed_getMemoryAtRandomLoop _ 0, ?_⟩
  cases run (exec t env) (getMemoryAtRandomLoop call
      (rsp - BitVec.ofNat 64 (2 * realShadowStackSize)) size (spaMaxMmapAttempts + 2) 0) m with
  | error e => exact ⟨rfl, fun i hi => absurd hi List.not_mem_nil⟩
  | ok out =>
      obtain ⟨⟨addr, i⟩, m'⟩ := out
      by_cases hi : i < spaMaxMmapAttempts
      · cases init with
        | true =>
            simp only [hi, if_true, Bool.not_true, Bool.false_eq_true, if_false, Prog.pure_eq]
            exact ⟨rfl, fun j hj => absurd hj List.not_mem_nil⟩
        | false =>
            simp only [hi, if_true, Bool.not_false, syncFetchAndAdd, perform, Prog.lift_bind,
              Prog.pure_eq]
            refine ⟨rfl, fun j hj => ?_⟩
            obtain rfl := List.mem_singleton.mp hj
            exact Nat.le_of_lt hi
      · simp only [hi, if_false, syncFetchAndAdd, perform, Prog.lift_bind, Prog.pure_eq]
        refine ⟨rfl, fun j hj => ?_⟩
        obtain rfl := List.mem_singleton.mp hj
        exact le_rfl

end Loop

/-! ### The contract -/

/-- **`get_memory_at_random`**, for a 10 MB region and a stack pointer above 20 MB. It
returns after at most 21 calls of `mmap`; every hint is 8MB-aligned and below both bounds;
what it returns is 8MB-aligned and ends at least 10 MB below the stack pointer; the
returned region is all that is left mapped; and the statistics index is in range. -/
theorem get_memory_at_random_contract (t : Tid) (env : Env) (call : Nat) (init : Bool)
    (m : Machine) {rsp : Word} (hrsp : 2 * realShadowStackSize < rsp.toNat) :
    ∃ addr m', run (exec t env) (getMemoryAtRandom call rsp realShadowStackSize init) m =
        .ok (addr, m') ∧
      (∀ fuel, spaMaxMmapAttempts + 2 ≤ fuel →
        getMemoryAtRandomLoop call (rsp - BitVec.ofNat 64 (2 * realShadowStackSize))
            realShadowStackSize fuel 0 =
          getMemoryAtRandomLoop call (rsp - BitVec.ofNat 64 (2 * realShadowStackSize))
            realShadowStackSize (spaMaxMmapAttempts + 2) 0) ∧
      (mmapHints (performed (exec t env) (getMemoryAtRandom call rsp realShadowStackSize init)
        m)).length ≤ spaMaxMmapAttempts + 1 ∧
      (∀ hint ∈ mmapHints (performed (exec t env)
          (getMemoryAtRandom call rsp realShadowStackSize init) m),
        hint.toNat % 2 ^ 23 = 0 ∧ hint.toNat < spaMaxShadowStackAddr.toNat ∧
          hint.toNat + 2 * realShadowStackSize < rsp.toNat) ∧
      (∀ a ∈ addr, a.toNat % 2 ^ 23 = 0 ∧ a.toNat + 2 * realShadowStackSize ≤ rsp.toNat ∧
        Free m.mem a realShadowStackSize) ∧
      m'.mem = (m.placed t realShadowStackSize addr).mem ∧
      ∀ i ∈ attemptsCounted (performed (exec t env)
        (getMemoryAtRandom call rsp realShadowStackSize init) m), i ≤ spaMaxMmapAttempts := by
  obtain ⟨addr, m', hrun, haddr, c, rfl⟩ :=
    getMemoryAtRandom_spec (t := t) (m := m) realShadowStackSize_le
  obtain ⟨ops, counts, hops, hattempts, hhints, hcounts⟩ :=
    performed_getMemoryAtRandom (t := t) (m := m) init
  have hsize : 2 * realShadowStackSize = 20971520 := by decide
  have hadjusted : (rsp - BitVec.ofNat 64 (2 * realShadowStackSize)).toNat =
      rsp.toNat - 2 * realShadowStackSize := by
    rw [hsize] at hrsp ⊢
    bv_omega
  have hallHints : mmapHints (ops ++ counts) = mmapHints ops := by
    rw [mmapHints, List.filterMap_append]
    exact (congrArg (mmapHints ops ++ ·) hhints).trans (List.append_nil _)
  have hallCounts : attemptsCounted (ops ++ counts) = attemptsCounted counts := by
    rw [attemptsCounted, List.filterMap_append]
    exact congrArg (· ++ attemptsCounted counts) hattempts.counts
  refine ⟨addr, _, hrun, ?_, ?_, ?_, ?_, rfl, ?_⟩
  · exact fun fuel hfuel => getMemoryAtRandomLoop_fuel (by omega) (by omega) (by omega)
  · rw [hops, hallHints]
    exact hattempts.calls
  · intro hint hmem
    rw [hops, hallHints] at hmem
    obtain ⟨x, rfl⟩ := hattempts.hints hint hmem
    obtain ⟨hmax, hlt⟩ := mmapHint_lt (by rw [hadjusted]; omega) x
    rw [hadjusted] at hlt
    exact ⟨mmapHint_aligned _ x, hmax, by omega⟩
  · intro a ha
    obtain ⟨hfree, hrej⟩ := placement_some (haddr.symm.trans ha)
    obtain ⟨haligned, hle⟩ := accepted_iff.mp hrej
    rw [hadjusted] at hle
    exact ⟨haligned, by omega, hfree.2⟩
  · rw [hops, hallCounts]
    exact hcounts

/-- A region for a thread near the top of user space. -/
theorem get_memory_at_random_willing :
    ∃ addr m', run (exec 0 (System.willing 0x10000000)) (getMemoryAtRandom 0 0x7FFFFFFFD000
        realShadowStackSize true) System.empty.machine = .ok (addr, m') ∧
      ∀ a ∈ addr, a.toNat % 2 ^ 23 = 0 := by
  have hroom : 2 * realShadowStackSize < (0x7FFFFFFFD000 : Word).toNat := by decide
  obtain ⟨addr, m', hrun, -, -, -, haddr, -⟩ := get_memory_at_random_contract 0
    (System.willing 0x10000000) 0 true System.empty.machine hroom
  exact ⟨addr, m', hrun, fun a ha => (haddr a ha).1⟩

end FlashStack.Runtime
