/-
Binary search on inclusive integer bounds.

`search order low high` is the loop that narrows `[low, high]`, written with a signed upper
bound that may go below zero, as in C; `order i` compares the key with element `i`. The
elements themselves do not appear, so that it makes no difference whether they are in an
array, behind pointers, or computed. The loop ends because the interval shrinks, and the sum
of the bounds does not overflow, since they are integers here.

* `search_sound`: what is found is there, ordered or not;
* `search_complete`: on ordered elements, an element that equals the key is found;
* `search_iff`: on ordered elements it finds the key exactly when some element equals it.

`Ordered` is the condition on the comparison that the loop relies on: below an element that
is too small all are too small, and above one that is too large all are too large. It is
weaker than sortedness of the elements by a total order, and follows from it. Several
elements may equal the key. The proofs are inductions along the recursion of the loop, with
the interval as what is known of the position.
-/

import Mathlib.Data.Nat.Notation

namespace Lib.Search

/-- The loop. The midpoint is rounded down, and is inside the bounds, so that the interval gets
smaller on both sides. -/
def search (order : Nat → Ordering) (low high : Int) : Bool :=
  if low ≤ high then
    match order ((low + high) / 2).toNat with
    | .eq => true
    | .gt => search order ((low + high) / 2 + 1) high
    | .lt => search order low ((low + high) / 2 - 1)
  else false
termination_by (high - low + 1).toNat

/-- The elements are in non-decreasing order, as far as the key sees it. -/
structure Ordered (order : Nat → Ordering) (n : Nat) : Prop where
  above : ∀ i j, i ≤ j → j < n → order j = .gt → order i = .gt
  below : ∀ i j, i ≤ j → j < n → order i = .lt → order j = .lt

/-- What is found is there. -/
theorem search_sound {order : Nat → Ordering} {low high : Int} (hlow : 0 ≤ low)
    (h : search order low high = true) : ∃ i : Nat, low ≤ i ∧ i ≤ high ∧ order i = .eq := by
  fun_induction search order low high with
  | case1 low high hle heq => exact ⟨((low + high) / 2).toNat, by omega, by omega, heq⟩
  | case2 low high hle hgt ih =>
      obtain ⟨i, hi, hi', heq⟩ := ih (by omega) h
      exact ⟨i, by omega, hi', heq⟩
  | case3 low high hle hlt ih =>
      obtain ⟨i, hi, hi', heq⟩ := ih hlow h
      exact ⟨i, hi, by omega, heq⟩
  | case4 low high hle => exact absurd h Bool.false_ne_true

/-- What is there is found. -/
theorem search_complete {order : Nat → Ordering} {n : Nat} (hord : Ordered order n)
    {low high : Int} (hlow : 0 ≤ low) (hhigh : high < n) {i : Nat} (hi : low ≤ i)
    (hi' : i ≤ high) (heq : order i = .eq) : search order low high = true := by
  fun_induction search order low high with
  | case1 => rfl
  | case2 low high hle hgt ih =>
      -- The key is greater than the middle element, hence than everything before it.
      refine ih (by omega) hhigh (Int.not_lt.mp fun hbefore => ?_) hi'
      have hgt' := hord.above i _ (by omega) (by omega) hgt
      rw [heq] at hgt'
      exact absurd hgt' (by decide)
  | case3 low high hle hlt ih =>
      refine ih hlow (by omega) hi (Int.not_lt.mp fun hafter => ?_)
      have hlt' := hord.below _ i (by omega) (by omega) hlt
      rw [heq] at hlt'
      exact absurd hlt' (by decide)
  | case4 low high hle => omega

/-- **Binary search** over `n` ordered elements decides membership, also when there is no element
at all. -/
theorem search_iff {order : Nat → Ordering} {n : Nat} (hord : Ordered order n) :
    search order 0 ((n : Int) - 1) = true ↔ ∃ i < n, order i = .eq := by
  constructor
  · intro h
    obtain ⟨i, -, hi, heq⟩ := search_sound (Int.le_refl 0) h
    exact ⟨i, by omega, heq⟩
  · rintro ⟨i, hi, heq⟩
    exact search_complete hord (Int.le_refl 0) (by omega) (by omega) (by omega) heq

end Lib.Search
