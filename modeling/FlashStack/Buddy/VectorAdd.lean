/-
`avx2_64_x_4_add` of `simd_rand.c`: add a value to every word of a range, four words at a
time.

Memory is its aligned 64-bit words, which is enough for the buddy-stack scheme: its code
accesses nothing else. The three intrinsics of one iteration are one update of four words.
An aligned load faults at other addresses; the function rounds its start down before the
loop, and the loop goes on in steps of 32 bytes, so that no address is misaligned.

The loop may run forever when the end of the range is at the end of the address space, since
the sum `ss_ptr + 32` wraps to a small address; it is then `none`. The model counts
iterations, at most one for each 32 bytes below the end, and so a loop that ends never runs
out of them.

* `lane_iff`: the words that one iteration updates;
* `avxLoop_spec`: the loop, by induction on the iterations that are left;
* `avx2_64_x_4_add_spec`: up to a 32-byte-aligned end, it adds the value once to each word
  from the start, rounded down to 32 bytes, and touches nothing else.

For an end that is not aligned, the last iteration goes past it. The callers pass an aligned
one.
-/

import FlashStack.Lib.Memory
import FlashStack.Lib.Align
import Mathlib.Logic.Function.Basic

namespace FlashStack.Buddy

open Lib.Memory Lib.Align

/-- Memory as its 64-bit words. Every access of this scheme is to an 8-byte-aligned word,
so distinct words do not overlap. -/
abbrev Words := Word → Word

/-- `_mm256_load_si256`, `_mm256_add_epi64` with four copies of `x`, `_mm256_store_si256`: each of
four words in a row goes up by `x`, without a carry between them. -/
def addLanes (m : Words) (p x : Word) : Words :=
  Function.update (Function.update (Function.update (Function.update m
    p (m p + x)) (p + 8) (m (p + 8) + x)) (p + 16) (m (p + 16) + x)) (p + 24) (m (p + 24) + x)

/-- The loop, with a bound on its iterations. The comparison is unsigned, as that of pointers. -/
def avxLoop (ssEnd x : Word) : Nat → Word → Words → Option Words
  | 0, _, _ => none
  | fuel + 1, ssPtr, m =>
      if ssPtr < ssEnd then avxLoop ssEnd x fuel (ssPtr + 32) (addLanes m ssPtr x) else some m

/-- `avx2_64_x_4_add`; a loop that ends has at most one iteration for each 32 bytes below
`ssEnd`. -/
def avx2_64_x_4_add (m : Words) (ssPtr ssEnd x : Word) : Option Words :=
  avxLoop ssEnd x (ssEnd.toNat / 32 + 2) (ssPtr &&& -32) m

/-- The word at `a` belongs to the range from `p`, rounded down to 32 bytes, to `e`. -/
def InLanes (p e a : Word) : Prop :=
  a.toNat % 8 = 0 ∧ p.toNat - p.toNat % 32 ≤ a.toNat ∧ a.toNat < e.toNat

instance (p e a : Word) : Decidable (InLanes p e a) :=
  inferInstanceAs (Decidable (_ ∧ _ ∧ _))

theorem addLanes_apply (m : Words) (p x a : Word) :
    addLanes m p x a =
      if a = p ∨ a = p + 8 ∨ a = p + 16 ∨ a = p + 24 then m a + x else m a := by
  unfold addLanes
  by_cases h24 : a = p + 24
  · subst h24
    rw [Function.update_self, if_pos (Or.inr (Or.inr (Or.inr rfl)))]
  rw [Function.update_of_ne h24]
  by_cases h16 : a = p + 16
  · subst h16
    rw [Function.update_self, if_pos (Or.inr (Or.inr (Or.inl rfl)))]
  rw [Function.update_of_ne h16]
  by_cases h8 : a = p + 8
  · subst h8
    rw [Function.update_self, if_pos (Or.inr (Or.inl rfl))]
  rw [Function.update_of_ne h8]
  by_cases h0 : a = p
  · subst h0
    rw [Function.update_self, if_pos (Or.inl rfl)]
  · rw [Function.update_of_ne h0, if_neg]
    rintro (h | h | h | h)
    · exact h0 h
    · exact h8 h
    · exact h16 h
    · exact h24 h

/-- One iteration covers the aligned words of its 32 bytes. -/
theorem lane_iff {p a : Word} (hp : p.toNat % 32 = 0) :
    (a = p ∨ a = p + 8 ∨ a = p + 16 ∨ a = p + 24) ↔
      a.toNat % 8 = 0 ∧ p.toNat ≤ a.toNat ∧ a.toNat < p.toNat + 32 := by
  have hlt := p.isLt
  constructor
  · rintro (rfl | rfl | rfl | rfl) <;> bv_omega
  · rintro ⟨h8, hle, hlt'⟩
    bv_omega

/-- The range is the lanes of its first iteration and the rest. -/
theorem inLanes_step {p e a : Word} (hp : p.toNat % 32 = 0) (he : e.toNat % 32 = 0)
    (hlt : p.toNat < e.toNat) :
    (InLanes p e a ↔ (a = p ∨ a = p + 8 ∨ a = p + 16 ∨ a = p + 24) ∨ InLanes (p + 32) e a) ∧
      ((a = p ∨ a = p + 8 ∨ a = p + 16 ∨ a = p + 24) → ¬ InLanes (p + 32) e a) := by
  have hnext : (p + 32).toNat = p.toNat + 32 := by
    have hend := e.isLt
    bv_omega
  rw [lane_iff hp]
  unfold InLanes
  rw [hnext]
  constructor
  · omega
  · omega

/-- **The loop** from an aligned pointer: every word up to the end gets `x` once. -/
theorem avxLoop_spec {e x : Word} (he : e.toNat % 32 = 0) (fuel : Nat) :
    ∀ (p : Word) (m : Words), p.toNat % 32 = 0 → 0 < fuel → e.toNat < p.toNat + 32 * fuel →
      ∃ m', avxLoop e x fuel p m = some m' ∧
        ∀ a, m' a = if InLanes p e a then m a + x else m a := by
  induction fuel with
  | zero => exact fun p m hp hpos => absurd hpos (Nat.lt_irrefl 0)
  | succ fuel ih =>
      intro p m hp _ hfuel
      rw [avxLoop]
      by_cases hlt : p < e
      · have hlt' : p.toNat < e.toNat := hlt
        have hnext : (p + 32).toNat = p.toNat + 32 := by
          have hend := e.isLt
          bv_omega
        obtain ⟨m', hrun, hm'⟩ := ih (p + 32) (addLanes m p x) (by omega) (by omega) (by omega)
        refine ⟨m', by rw [if_pos hlt]; exact hrun, fun a => ?_⟩
        obtain ⟨hsplit, hdisjoint⟩ := inLanes_step (a := a) hp he hlt'
        rw [hm', addLanes_apply]
        by_cases hlane : a = p ∨ a = p + 8 ∨ a = p + 16 ∨ a = p + 24
        · rw [if_neg (hdisjoint hlane), if_pos hlane, if_pos (hsplit.mpr (Or.inl hlane))]
        · rw [if_neg hlane]
          by_cases hrest : InLanes (p + 32) e a
          · rw [if_pos hrest, if_pos (hsplit.mpr (Or.inr hrest))]
          · rw [if_neg hrest, if_neg fun h => (hsplit.mp h).elim hlane hrest]
      · have hge : e.toNat ≤ p.toNat := Nat.le_of_not_lt hlt
        refine ⟨m, by rw [if_neg hlt], fun a => ?_⟩
        rw [if_neg]
        unfold InLanes
        omega

/-- **`avx2_64_x_4_add`** up to an aligned end: it ends, each word of the range gets `x`
once, and nothing else changes. -/
theorem avx2_64_x_4_add_spec (m : Words) (p x : Word) {e : Word} (he : e.toNat % 32 = 0) :
    ∃ m', avx2_64_x_4_add m p e x = some m' ∧
      ∀ a, m' a = if InLanes p e a then m a + x else m a := by
  have hround : (p &&& -32).toNat = p.toNat - p.toNat % 32 :=
    toNat_and_neg (m := 32) (k := 5) rfl
  obtain ⟨m', hrun, hm'⟩ := avxLoop_spec (x := x) he (e.toNat / 32 + 2) (p &&& -32) m
    (by omega) (by omega) (by omega)
  refine ⟨m', hrun, fun a => ?_⟩
  rw [hm' a]
  have hsame : InLanes (p &&& -32) e a ↔ InLanes p e a := by
    unfold InLanes
    rw [hround]
    omega
  by_cases hin : InLanes p e a
  · rw [if_pos hin, if_pos (hsame.mpr hin)]
  · rw [if_neg hin, if_neg (fun h => hin (hsame.mp h))]

end FlashStack.Buddy
