/-
What `get_memory_at_random` returns.

The function asks for a random address, takes what the kernel gives, and rejects it when it
is not aligned to 8 MB or not 20 MB below the stack pointer; a rejected region is unmapped
again. So every attempt sees the memory the call started from, and the attempts can be
looked at one by one.

* `attempt`: the outcome of one attempt, if the kernel can place the mapping there and the
  function accepts it;
* `placement`: the first of the at most 21 outcomes that is usable;
* `getMemoryAtRandom_spec`: the function returns `placement`, and the only change to memory
  is that region, mapped for the thread and filled with zeros.

The subtraction of 20 MB wraps for a smaller stack pointer, as in the source; nothing is
assumed of it here. How often `mmap` is called, with which hints, and what is counted, is
the subject of the module on attempts. The lemmas on `placement` say how it depends on
memory: only through what is free, so that a store does not change it.
-/

import FlashStack.Runtime.Region

namespace FlashStack.Runtime

open Lib.Memory Lib.Program

/-- The outcome of `mmap` in one attempt, when the kernel can place the mapping
there and the runtime accepts it. -/
def attempt (env : Env) (call : Nat) (adjustedRsp : Word) (mem : Space Owner) (size i : Nat) :
    Option Word :=
  (env.mmap call i).bind fun a =>
    if (a.toNat + size ≤ 2 ^ 64 ∧ Free mem a size) ∧ rejected adjustedRsp a = false then some a
    else none

theorem attempt_usable {env : Env} {call : Nat} {adjustedRsp a : Word} {mem : Space Owner}
    {size i : Nat} (hmmap : env.mmap call i = some a)
    (hok : a.toNat + size ≤ 2 ^ 64 ∧ Free mem a size) (hrej : rejected adjustedRsp a = false) :
    attempt env call adjustedRsp mem size i = some a := by
  rw [attempt, hmmap, Option.bind_some, if_pos ⟨hok, hrej⟩]

theorem attempt_unusable {env : Env} {call : Nat} {adjustedRsp a : Word} {mem : Space Owner}
    {size i : Nat} (hmmap : env.mmap call i = some a)
    (h : ¬ ((a.toNat + size ≤ 2 ^ 64 ∧ Free mem a size) ∧ rejected adjustedRsp a = false)) :
    attempt env call adjustedRsp mem size i = none := by
  rw [attempt, hmmap, Option.bind_some, if_neg h]

/-- The first usable attempt from iteration `i` on, if there is one among those that the loop
makes. -/
def placementFrom (env : Env) (call : Nat) (adjustedRsp : Word) (mem : Space Owner)
    (size i : Nat) : Option Word :=
  (List.range' i (spaMaxMmapAttempts + 1 - i)).findSome? (attempt env call adjustedRsp mem size)

/-- The address `get_memory_at_random` returns; `none` is `MAP_FAILED`, when none of the attempts
is usable. -/
def placement (env : Env) (call : Nat) (rsp : Word) (mem : Space Owner) (size : Nat) :
    Option Word :=
  placementFrom env call (rsp - BitVec.ofNat 64 (2 * realShadowStackSize)) mem size 0

theorem placementFrom_end {env : Env} {call : Nat} {adjustedRsp : Word} {mem : Space Owner}
    {size i : Nat} (hi : spaMaxMmapAttempts < i) :
    placementFrom env call adjustedRsp mem size i = none := by
  have h0 : spaMaxMmapAttempts + 1 - i = 0 := by omega
  simp [placementFrom, h0]

theorem placementFrom_step {env : Env} {call : Nat} {adjustedRsp : Word} {mem : Space Owner}
    {size i : Nat} (hi : i ≤ spaMaxMmapAttempts) :
    placementFrom env call adjustedRsp mem size i =
      (attempt env call adjustedRsp mem size i).or
        (placementFrom env call adjustedRsp mem size (i + 1)) := by
  have hlen : spaMaxMmapAttempts + 1 - i = spaMaxMmapAttempts + 1 - (i + 1) + 1 := by omega
  rw [placementFrom, hlen, List.range'_succ, List.findSome?_cons]
  cases attempt env call adjustedRsp mem size i <;> rfl

/-- A first attempt that is usable is the placement. -/
theorem placement_of_first {env : Env} {call : Nat} {rsp a : Word} {mem : Space Owner}
    {size : Nat}
    (h : env.mmap call 0 = some a ∧ a.toNat + size ≤ 2 ^ 64 ∧ Free mem a size ∧
      rejected (rsp - BitVec.ofNat 64 (2 * realShadowStackSize)) a = false) :
    placement env call rsp mem size = some a := by
  obtain ⟨hmmap, hfits, hfree, hrej⟩ := h
  rw [placement, placementFrom_step (by decide), attempt_usable hmmap ⟨hfits, hfree⟩ hrej,
    Option.some_or]

/-- Placement depends only on which addresses are mapped. -/
theorem placement_congr {mem mem' : Space Owner} (h : ∀ x, (mem x).isNone = (mem' x).isNone)
    (env : Env) (call : Nat) (rsp : Word) (size : Nat) :
    placement env call rsp mem size = placement env call rsp mem' size := by
  have hattempt : ∀ adjustedRsp i,
      attempt env call adjustedRsp mem size i = attempt env call adjustedRsp mem' size i := by
    intro adjustedRsp i
    have hfree : ∀ a, Free mem a size ↔ Free mem' a size := fun a => by simp only [Free, h]
    cases hmmap : env.mmap call i with
    | none => simp only [attempt, hmmap, Option.bind_none]
    | some a => simp only [attempt, hmmap, Option.bind_some, hfree a]
  simp only [placement, placementFrom, funext (hattempt _)]

/-- What is known of a placement: the mapping fits, the memory was free, and the
address passed the runtime's own check. -/
theorem placement_some {env : Env} {call : Nat} {rsp a : Word} {mem : Space Owner} {size : Nat}
    (h : placement env call rsp mem size = some a) :
    (a.toNat + size ≤ 2 ^ 64 ∧ Free mem a size) ∧
      rejected (rsp - BitVec.ofNat 64 (2 * realShadowStackSize)) a = false := by
  obtain ⟨i, -, hi⟩ := List.exists_of_findSome?_eq_some h
  obtain ⟨b, -, hb⟩ := Option.bind_eq_some_iff.mp hi
  split at hb
  · rename_i hok
    cases hb
    exact hok
  · cases hb

/-- The machine after a call that returned `r`: with that region mapped and filled with zeros, or
as before. -/
def Machine.placed (m : Machine) (t : Tid) (size : Nat) : Option Word → Machine
  | none => m
  | some a => m.withMem (mapZero m.mem (.shadow t) a size)

section Spec

variable {t : Tid} {env : Env} {m : Machine} {call size : Nat} {adjustedRsp : Word}

/-- A rejected mapping is removed again. -/
theorem unmap_placed {a : Word} (hsize : size ≤ 2 ^ 64) (hfree : Free m.mem a size) :
    (m.withMem (mapZero m.mem (.shadow t) a size)).withMem
      (unmap (mapZero m.mem (.shadow t) a size) a size) = m := by
  simp [Machine.withMem, unmap_mapZero hsize hfree]

theorem getMemoryAtRandomLoop_spec (hsize : size ≤ 2 ^ 64) {fuel i : Nat}
    (hfuel : spaMaxMmapAttempts + 2 ≤ fuel + i) (hi : i ≤ spaMaxMmapAttempts + 1) :
    Ensures (exec t env) (getMemoryAtRandomLoop call adjustedRsp size fuel i) m fun out m' =>
      out.1 = placementFrom env call adjustedRsp m.mem size i ∧
        out.2 ≤ spaMaxMmapAttempts + 1 ∧ m' = m.placed t size out.1 := by
  induction fuel generalizing i with
  | zero => omega
  | succ fuel ih =>
      simp only [getMemoryAtRandomLoop, Prog.lift_bind]
      rw [ensures_act rfl]
      by_cases hlast : spaMaxMmapAttempts < i
      · rw [if_pos hlast, Prog.pure_eq, ensures_ret, placementFrom_end hlast]
        exact ⟨rfl, hi, rfl⟩
      · rw [if_neg hlast]
        have hnext := ih (i := i + 1) (by omega) (by omega)
        rw [placementFrom_step (by omega)]
        cases hmmap : env.mmap call i with
        | none =>
            rw [ensures_act (r := none) (by rw [exec, hmmap, Machine.mmap])]
            simpa [attempt, hmmap] using hnext
        | some a =>
            by_cases hok : a.toNat + size ≤ 2 ^ 64 ∧ Free m.mem a size
            · rw [ensures_act (r := some a)
                (by rw [exec, hmmap, Machine.mmap, if_pos hok])]
              by_cases hrej : rejected adjustedRsp a = true
              · simp only [hrej, if_true, munmap, perform, Prog.lift_bind]
                rw [ensures_act rfl, Machine.withMem_mem, unmap_placed hsize hok.2,
                  attempt_unusable hmmap (by simp [hrej]), Option.none_or]
                exact hnext
              · simp only [hrej, Bool.false_eq_true, if_false, Prog.pure_eq]
                rw [ensures_ret, attempt_usable hmmap hok (Bool.not_eq_true _ ▸ hrej),
                  Option.some_or]
                exact ⟨rfl, by simp only; omega, rfl⟩
            · rw [ensures_act (r := none)
                (by rw [exec, hmmap, Machine.mmap, if_neg hok]),
                attempt_unusable hmmap (fun h => hok h.1), Option.none_or]
              exact hnext

/-- **`get_memory_at_random`** returns the placement and maps it, and changes
nothing else but the statistics. -/
theorem getMemoryAtRandom_spec {rsp : Word} {init : Bool} (hsize : size ≤ 2 ^ 64) :
    Ensures (exec t env) (getMemoryAtRandom call rsp size init) m fun addr m' =>
      addr = placement env call rsp m.mem size ∧
        ∃ c, m' = { m.placed t size addr with counters := c } := by
  rw [getMemoryAtRandom, ensures_bind]
  refine (getMemoryAtRandomLoop_spec hsize (by omega) (by omega)).mono ?_
  rintro ⟨addr, i⟩ m' ⟨haddr, -, rfl⟩
  have hdone : ∀ m' : Machine, (∃ c, m' = { m.placed t size addr with counters := c }) →
      Ensures (exec t env) (Prog.ret addr : Program (Option Word)) m' fun addr m' =>
        addr = placement env call rsp m.mem size ∧
          ∃ c, m' = { m.placed t size addr with counters := c } :=
    fun m' hm' => ensures_ret.mpr ⟨haddr, hm'⟩
  by_cases hi : i < spaMaxMmapAttempts
  · cases init with
    | true =>
        simp only [hi, if_true, Bool.not_true, Bool.false_eq_true, if_false, Prog.pure_eq]
        exact hdone _ ⟨_, rfl⟩
    | false =>
        simp only [hi, if_true, Bool.not_false, syncFetchAndAdd, perform, Prog.lift_bind,
          Prog.pure_eq]
        rw [ensures_act rfl]
        exact hdone _ ⟨_, rfl⟩
  · simp only [hi, if_false, syncFetchAndAdd, perform, Prog.lift_bind, Prog.pure_eq]
    rw [ensures_act rfl]
    exact hdone _ ⟨_, rfl⟩

end Spec

end FlashStack.Runtime
