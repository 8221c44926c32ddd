/-
Assembly listings with local labels, and the code that they become.

A line of a listing is a statement or the definition of a local label. A label may be
defined any number of times; a reference means its next definition, as with the numbered
labels of assemblers and their suffix `f`. References backwards are not modelled. A
statement has a size that does not depend on the distance of its label, so one pass from the
end is enough.

* `link`: the code of a listing, or nothing when a label is missing. `link_append`: a part
  whose references stay inside it is linked on its own, whatever stands behind it;
* `codeAt`: what stands at an offset of linked code. `codeAt_front`, `exists_front`: it is
  the item behind a front of that total size, and every item found has one;
* `stands_flatMap`: code that is made of pieces, each from one statement of a higher level;
  a piece stands where the pieces before it end.

Items have positive sizes where offsets are to determine them. What an item is, bytes or an
instruction or an opaque block, is a parameter, and so is how a reference is encoded
(`Encoding`).
-/

import Mathlib.Data.List.Basic

namespace Lib.Listing

variable {α β γ : Type}

/-! ### Linking -/

inductive Entry (α : Type) where
  | label (n : Nat)
  | code (a : α)
deriving DecidableEq

/-- How a statement is encoded: its size, the local label that it refers to, and what it becomes
when the label stands at a distance from the next statement. -/
structure Encoding (α β : Type) where
  size : α → Nat
  target : α → Option Nat
  resolve : α → Nat → β

namespace Encoding

variable (e : Encoding α β)

/-- The distance to the next definition of a label, counted from here; `none` when there is none
ahead. -/
def distance (n : Nat) : List (Entry α) → Option Nat
  | [] => none
  | .label m :: rest => if m = n then some 0 else distance n rest
  | .code a :: rest => (distance n rest).map (e.size a + ·)

/-- The distance to the label that a statement refers to, from the end of the statement. One
without a label needs none. -/
def reach (a : α) (rest : List (Entry α)) : Option Nat :=
  match e.target a with
  | none => some 0
  | some n => e.distance n rest

def link : List (Entry α) → Option (List β)
  | [] => some []
  | .label _ :: rest => link rest
  | .code a :: rest => (e.reach a rest).bind fun d => (link rest).map (e.resolve a d :: ·)

variable {e : Encoding α β} {a : α} {front back : List (Entry α)} {code : List β}

theorem distance_append {n d : Nat} (h : e.distance n front = some d) :
    e.distance n (front ++ back) = some d := by
  induction front generalizing d with
  | nil => cases h
  | cons entry front ih =>
      cases entry with
      | label m =>
          rw [List.cons_append]
          rw [distance] at h ⊢
          split at h
          · rw [if_pos ‹_›]
            exact h
          · rw [if_neg ‹_›]
            exact ih h
      | code a =>
          obtain ⟨d', hd', rfl⟩ := Option.map_eq_some_iff.mp h
          rw [List.cons_append, distance, ih hd']
          rfl

theorem reach_append {d : Nat} (h : e.reach a front = some d) :
    e.reach a (front ++ back) = some d := by
  unfold reach at h ⊢
  split at h
  · exact h
  · exact distance_append h

theorem link_code_eq_some : e.link (.code a :: front) = some code ↔
    ∃ d code', e.reach a front = some d ∧ e.link front = some code' ∧
      code = e.resolve a d :: code' := by
  rw [link, Option.bind_eq_some_iff]
  constructor
  · rintro ⟨d, hd, h⟩
    obtain ⟨code', hcode', rfl⟩ := Option.map_eq_some_iff.mp h
    exact ⟨d, code', hd, hcode', rfl⟩
  · rintro ⟨d, code', hd, hcode', rfl⟩
    exact ⟨d, hd, Option.map_eq_some_iff.mpr ⟨code', hcode', rfl⟩⟩

/-- **A part whose references stay inside it** is linked on its own. -/
theorem link_append (h : e.link front = some code) :
    e.link (front ++ back) = (e.link back).map (code ++ ·) := by
  induction front generalizing code with
  | nil =>
      obtain rfl := Option.some.inj h
      exact Option.map_id'.symm
  | cons entry front ih =>
      cases entry with
      | label m => exact ih h
      | code a =>
          obtain ⟨d, code', hd, hcode', rfl⟩ := link_code_eq_some.mp h
          rw [List.cons_append, link, reach_append hd, ih hcode']
          exact Option.map_map ..

end Encoding

/-! ### Code at offsets -/

section Offsets

variable {size : β → Nat}

/-- The size of a piece of code, which is where the piece behind it begins. -/
def total (size : β → Nat) : List β → Nat
  | [] => 0
  | b :: code => size b + total size code

@[simp] theorem total_cons (b : β) (code : List β) :
    total size (b :: code) = size b + total size code := rfl

@[simp] theorem total_append (code code' : List β) :
    total size (code ++ code') = total size code + total size code' := by
  induction code with
  | nil => exact (Nat.zero_add _).symm
  | cons b code ih => rw [List.cons_append, total_cons, total_cons, ih, Nat.add_assoc]

/-- What begins at an offset; `none` inside an item and behind the end. -/
def codeAt (size : β → Nat) : List β → Nat → Option β
  | [], _ => none
  | b :: code, k =>
      if k = 0 then some b else if k < size b then none else codeAt size code (k - size b)

theorem codeAt_front {front : List β} (hpos : ∀ b ∈ front, 0 < size b) (b : β) (back : List β) :
    codeAt size (front ++ b :: back) (total size front) = some b := by
  induction front with
  | nil => rfl
  | cons b' front ih =>
      have hb' := hpos b' List.mem_cons_self
      rw [List.cons_append, total_cons, codeAt, if_neg (by omega), if_neg (by omega),
        Nat.add_sub_cancel_left]
      exact ih fun other hmem => hpos other (List.mem_cons_of_mem _ hmem)

theorem exists_front {code : List β} {k : Nat} {b : β} (h : codeAt size code k = some b) :
    ∃ front back, code = front ++ b :: back ∧ k = total size front := by
  induction code generalizing k with
  | nil => cases h
  | cons b' code ih =>
      rw [codeAt] at h
      split at h
      · obtain rfl := Option.some.inj h
        exact ⟨[], code, rfl, ‹_›⟩
      · split at h
        · cases h
        · obtain ⟨front, back, rfl, hk⟩ := ih h
          exact ⟨b' :: front, back, rfl, by rw [total_cons]; omega⟩

/-- `piece` is the code from offset `k` on. What stands before and behind is not said. -/
def Stands (size : β → Nat) (code : List β) (k : Nat) (piece : List β) : Prop :=
  ∃ front back, code = front ++ piece ++ back ∧ k = total size front

variable {code piece piece' : List β} {k : Nat} {b : β}

theorem Stands.head (hpos : ∀ b ∈ code, 0 < size b) (h : Stands size code k (b :: piece)) :
    codeAt size code k = some b := by
  obtain ⟨front, back, rfl, rfl⟩ := h
  rw [List.append_assoc] at hpos ⊢
  exact codeAt_front (fun other hmem => hpos other (List.mem_append_left _ hmem)) b _

theorem Stands.drop (h : Stands size code k (piece ++ piece')) :
    Stands size code (k + total size piece) piece' := by
  obtain ⟨front, back, rfl, rfl⟩ := h
  exact ⟨front ++ piece, back, by simp, by simp⟩

theorem Stands.le_total (h : Stands size code k piece) :
    k + total size piece ≤ total size code := by
  obtain ⟨front, back, rfl, rfl⟩ := h
  simp only [total_append]
  omega

/-- The size of a statement is that of its code. -/
theorem total_flatMap (f : γ → List β) (stmts : List γ) :
    total size (stmts.flatMap f) = total (fun s => total size (f s)) stmts := by
  induction stmts with
  | nil => rfl
  | cons s stmts ih => rw [List.flatMap_cons, total_append, ih, total_cons]

/-- **A statement** at an offset has its code there. -/
theorem stands_flatMap {f : γ → List β} {stmts : List γ} {s : γ}
    (h : codeAt (fun s => total size (f s)) stmts k = some s) :
    Stands size (stmts.flatMap f) k (f s) := by
  obtain ⟨front, back, rfl, rfl⟩ := exists_front h
  refine ⟨front.flatMap f, back.flatMap f, ?_, (total_flatMap f front).symm⟩
  rw [List.flatMap_append, List.flatMap_cons, List.append_assoc]

end Offsets

end Lib.Listing
