/-
Patterns with fields, and patches in place.

A tool that edits a binary looks for a byte pattern and overwrites parts of it. A pattern
occurs in a list at an index; a template is a pattern some of whose fields are overwritten,
`writeAll base 0 fields`, so that two instances of it differ in the contents of the fields
only.

* `occursAt_writeAll`: overwriting the same fields of an occurrence makes it an occurrence
  of the other instance of the template;
* `getElem?_writeAll_outside`: everything outside the fields stays as it was;
* `countBefore`: how often a pattern occurs before an index, with its recursion for a scan
  from the left, and `countBefore_eq_of_none`, the case of a stretch without an occurrence.

Elements are of any type. Lists are compared by what stands at an index (`getElem?`), which
is how a scan sees them, and equality follows from that where the lengths agree. Fields may
overlap here: the later one wins, as with stores. That occurrences of a pattern do not
overlap each other is a property of the pattern and has to be shown for it.
-/

import Mathlib.Data.List.Basic

namespace Lib.Patch

variable {α : Type}

/-! ### Occurrences -/

/-- The pattern stands in `b` from index `i` on, as a whole: a pattern that would go beyond the
end does not. -/
def OccursAt (b : List α) (i : Nat) (pat : List α) : Prop :=
  ∀ k < pat.length, b[i + k]? = pat[k]?

instance [DecidableEq α] (b : List α) (i : Nat) (pat : List α) : Decidable (OccursAt b i pat) :=
  Nat.decidableBallLT _ _

theorem occursAt_nil (b : List α) (i : Nat) : OccursAt b i [] := fun _ hk => absurd hk (by simp)

theorem occursAt_cons {b : List α} {i : Nat} {p : α} {pat : List α} :
    OccursAt b i (p :: pat) ↔ b[i]? = some p ∧ OccursAt b (i + 1) pat := by
  constructor
  · intro h
    refine ⟨h 0 (Nat.zero_lt_succ _), fun k hk => ?_⟩
    have hnext := h (k + 1) (Nat.succ_lt_succ hk)
    rwa [List.getElem?_cons_succ, ← Nat.add_assoc, Nat.add_right_comm] at hnext
  · rintro ⟨hhead, htail⟩ k hk
    cases k with
    | zero => exact hhead
    | succ k =>
        rw [List.getElem?_cons_succ, ← Nat.add_assoc, Nat.add_right_comm]
        exact htail k (Nat.lt_of_succ_lt_succ hk)

/-- An occurrence lies inside the list. -/
theorem OccursAt.lt_length {b : List α} {i : Nat} {pat : List α} (h : OccursAt b i pat)
    {k : Nat} (hk : k < pat.length) : i + k < b.length := by
  have hget := h k hk
  rw [List.getElem?_eq_getElem hk] at hget
  exact (List.getElem?_eq_some_iff.mp hget).1

theorem OccursAt.le_length {b : List α} {i : Nat} {pat : List α} (h : OccursAt b i pat)
    (hne : 0 < pat.length) : i + pat.length ≤ b.length := by
  have hlast := h.lt_length (Nat.sub_lt hne Nat.one_pos)
  omega

/-- Occurrences depend on the bytes of the window. -/
theorem OccursAt.congr {b b' : List α} {i : Nat} {pat : List α} (h : OccursAt b i pat)
    (heq : ∀ k, i ≤ k → k < i + pat.length → b'[k]? = b[k]?) : OccursAt b' i pat :=
  fun k hk => (heq (i + k) (by omega) (by omega)).trans (h k hk)

/-! ### Overwriting -/

/-- Overwrite the elements from index `i` on. What would go beyond the end is dropped, and the
length stays. -/
def writeAt (b : List α) (i : Nat) : List α → List α
  | [] => b
  | v :: vs => writeAt (b.set i v) (i + 1) vs

@[simp] theorem length_writeAt (b : List α) (i : Nat) (vs : List α) :
    (writeAt b i vs).length = b.length := by
  induction vs generalizing b i with
  | nil => rfl
  | cons v vs ih => rw [writeAt, ih, List.length_set]

theorem getElem?_writeAt_outside {b : List α} {i k : Nat} {vs : List α}
    (h : k < i ∨ i + vs.length ≤ k) : (writeAt b i vs)[k]? = b[k]? := by
  induction vs generalizing b i with
  | nil => rfl
  | cons v vs ih =>
      rw [List.length_cons] at h
      rw [writeAt, ih (by omega), List.getElem?_set_ne (by omega)]

theorem getElem?_writeAt_inside {b : List α} {i k : Nat} {vs : List α} (hk : k < vs.length)
    (hb : i + k < b.length) : (writeAt b i vs)[i + k]? = vs[k]? := by
  induction vs generalizing b i k with
  | nil => exact absurd hk (by simp)
  | cons v vs ih =>
      cases k with
      | zero =>
          rw [writeAt, getElem?_writeAt_outside (by omega), Nat.add_zero,
            List.getElem?_set_self (by omega)]
          rfl
      | succ k =>
          rw [writeAt, ← Nat.add_assoc, Nat.add_right_comm, List.getElem?_cons_succ]
          exact ih (Nat.lt_of_succ_lt_succ hk) (by rw [List.length_set]; omega)

/-! ### Fields -/

/-- Overwrite several fields, each given by its offset from `i` and its content. -/
def writeAll (b : List α) (i : Nat) (fields : List (Nat × List α)) : List α :=
  fields.foldl (fun b f => writeAt b (i + f.1) f.2) b

/-- The offset `k` belongs to one of the fields, which are given with their offsets. -/
def InFields (fields : List (Nat × List α)) (k : Nat) : Prop :=
  ∃ f ∈ fields, f.1 ≤ k ∧ k < f.1 + f.2.length

@[simp] theorem length_writeAll (b : List α) (i : Nat) (fields : List (Nat × List α)) :
    (writeAll b i fields).length = b.length := by
  induction fields generalizing b with
  | nil => rfl
  | cons f fields ih => exact (ih _).trans (length_writeAt b _ _)

theorem getElem?_writeAll_outside {b : List α} {i k : Nat} {fields : List (Nat × List α)}
    (h : i ≤ k → ¬ InFields fields (k - i)) : (writeAll b i fields)[k]? = b[k]? := by
  induction fields generalizing b with
  | nil => rfl
  | cons f fields ih =>
      have hfirst : (writeAt b (i + f.1) f.2)[k]? = b[k]? := by
        apply getElem?_writeAt_outside
        by_contra hin
        exact h (by omega) ⟨f, List.mem_cons_self, by omega, by omega⟩
      refine (ih (b := writeAt b (i + f.1) f.2) fun hik => ?_).trans hfirst
      rintro ⟨g, hg, hle, hlt⟩
      exact h hik ⟨g, List.mem_cons_of_mem f hg, hle, hlt⟩

/-- The fields of a list at `i` and of a list at `0` get the same content. -/
theorem getElem?_writeAll_shift {b base : List α} {i k : Nat} {fields : List (Nat × List α)}
    (hb : i + k < b.length) (hbase : k < base.length)
    (h : b[i + k]? = base[k]? ∨ InFields fields k) :
    (writeAll b i fields)[i + k]? = (writeAll base 0 fields)[k]? := by
  induction fields generalizing b base with
  | nil =>
      rcases h with h | ⟨f, hf, -⟩
      · exact h
      · exact absurd hf List.not_mem_nil
  | cons f fields ih =>
      apply ih (b := writeAt b (i + f.1) f.2)
      · rwa [length_writeAt]
      · rwa [length_writeAt]
      · by_cases hin : f.1 ≤ k ∧ k < f.1 + f.2.length
        · refine Or.inl ?_
          obtain ⟨j, rfl⟩ := Nat.exists_eq_add_of_le hin.1
          have hj : j < f.2.length := by omega
          have hzero : f.1 + j = 0 + f.1 + j := by omega
          rw [← Nat.add_assoc, getElem?_writeAt_inside hj (by omega), hzero,
            getElem?_writeAt_inside hj (by omega)]
        · rcases h with h | ⟨g, hg, hrange⟩
          · refine Or.inl ?_
            rw [getElem?_writeAt_outside (by omega), getElem?_writeAt_outside (by omega)]
            exact h
          · obtain rfl | hg := List.mem_cons.mp hg
            · exact absurd hrange hin
            · exact Or.inr ⟨g, hg, hrange⟩

/-- **Patching an occurrence** of one instance of a template makes it an occurrence of the
instance with the other fields. -/
theorem occursAt_writeAll {b base : List α} {i : Nat} {fields fields' : List (Nat × List α)}
    (h : OccursAt b i (writeAll base 0 fields))
    (hshape : ∀ k, InFields fields k ↔ InFields fields' k) :
    OccursAt (writeAll b i fields') i (writeAll base 0 fields') := by
  intro k hk
  rw [length_writeAll] at hk
  have hk' : k < (writeAll base 0 fields).length := by rwa [length_writeAll]
  apply getElem?_writeAll_shift (h.lt_length hk') hk
  by_cases hin : InFields fields' k
  · exact Or.inr hin
  · refine Or.inl ((h k hk').trans (getElem?_writeAll_outside fun _ => ?_))
    rwa [Nat.sub_zero, hshape]

/-! ### Counting -/

/-- The number of occurrences before index `n`. Overlapping ones all count. -/
def countBefore [DecidableEq α] (b pat : List α) (n : Nat) : Nat :=
  (List.range n).countP fun i => OccursAt b i pat

variable [DecidableEq α] {b pat : List α} {i n : Nat}

@[simp] theorem countBefore_zero : countBefore b pat 0 = 0 := rfl

theorem countBefore_succ : countBefore b pat (n + 1) =
    countBefore b pat n + if OccursAt b n pat then 1 else 0 := by
  simp [countBefore, List.range_succ, List.countP_append]

/-- Where nothing occurs, nothing is counted. -/
theorem countBefore_eq_of_none (hin : i ≤ n)
    (h : ∀ j, i ≤ j → j < n → ¬ OccursAt b j pat) :
    countBefore b pat n = countBefore b pat i := by
  induction hin with
  | refl => rfl
  | @step n hle ih =>
      rw [countBefore_succ, if_neg (h n hle (Nat.lt_succ_self n)), Nat.add_zero]
      exact ih fun j hij hj => h j hij (Nat.lt_succ_of_lt hj)

theorem countBefore_congr {b' pat' : List α} (h : ∀ i, OccursAt b i pat ↔ OccursAt b' i pat') :
    countBefore b pat n = countBefore b' pat' n := by
  refine List.countP_congr fun i _ => ?_
  simp only [decide_eq_true_eq]
  exact h i

end Lib.Patch
