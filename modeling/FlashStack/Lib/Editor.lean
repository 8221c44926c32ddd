/-
Programs that edit a text line by line.

Such a program reads a line, changes its variables, and writes what stands for the line,
with some lines of its own before or behind. Two things about its runs do not depend on what
it edits.

* `Merged`: the output is an order-preserving merge of what stands for the input lines and
  of inserted lines. The lemmas build a merge piece by piece, in the order in which a
  program writes (`Merged.line_between`, `Merged.append_all`), and `infix_of_infix_between`
  goes back: a piece that is no inserted line is where the program wrote it;
* `lastPlace`: the last place of the input with a property, which may depend on what stands
  before the place. `flag_eq_lastPlace`: a variable that some lines set and no other line
  touches is decided at the last of them, by induction on the lines from the end.

A flag of the program is then a property of its input, and a proof about the program needs
no induction of its own for each flag. The elements are of any type; a line is a string only
where the program is modelled.
-/

import Mathlib.Data.List.Induction

namespace Lib.Editor

variable {α β : Type}

/-! ### Merges -/

/-- `out` accounts for each line of `lines` once and in order: by a piece that may stand for
it. Between the pieces stand inserted lines. -/
inductive Merged (stands : α → List β → Prop) (inserted : β → Prop) : List α → List β → Prop where
  | nil : Merged stands inserted [] []
  | insert {lines : List α} {out : List β} (text : β) (h : inserted text)
      (rest : Merged stands inserted lines out) : Merged stands inserted lines (text :: out)
  | line {lines : List α} {out : List β} (raw : α) (piece : List β) (h : stands raw piece)
      (rest : Merged stands inserted lines out) :
      Merged stands inserted (raw :: lines) (piece ++ out)

namespace Merged

variable {stands : α → List β → Prop} {inserted : β → Prop}

theorem insert_all {lines : List α} {out texts : List β} (h : ∀ text ∈ texts, inserted text)
    (rest : Merged stands inserted lines out) : Merged stands inserted lines (texts ++ out) := by
  induction texts with
  | nil => exact rest
  | cons text texts ih =>
      exact .insert text (h text List.mem_cons_self)
        (ih fun text hmem => h text (List.mem_cons_of_mem _ hmem))

/-- The piece of a line between inserted lines. -/
theorem line_between {lines : List α} {front piece back out : List β} {raw : α}
    (hpiece : stands raw piece) (h : ∀ text ∈ front ++ back, inserted text)
    (rest : Merged stands inserted lines out) :
    Merged stands inserted (raw :: lines) (front ++ piece ++ back ++ out) := by
  have hback := rest.insert_all fun text hmem => h text (List.mem_append_right front hmem)
  have hline := Merged.line raw piece hpiece hback
  have hfront := hline.insert_all fun text hmem => h text (List.mem_append_left back hmem)
  simpa only [List.append_assoc] using hfront

/-- Lines inserted behind the end. -/
theorem append_all {lines : List α} {out texts : List β} (h : ∀ text ∈ texts, inserted text)
    (merged : Merged stands inserted lines out) : Merged stands inserted lines (out ++ texts) := by
  induction merged with
  | nil =>
      have hall : Merged stands inserted [] (texts ++ []) := insert_all h .nil
      rwa [List.append_nil] at hall
  | insert text htext _ ih => exact .insert text htext ih
  | line raw piece hpiece _ ih =>
      rw [List.append_assoc]
      exact .line raw piece hpiece ih

end Merged

/-- A run of lines that are not inserted stands in the piece. -/
theorem infix_of_infix_between {inserted : β → Prop} {run front piece back : List β}
    (hrun : ∀ text ∈ run, ¬ inserted text) (hne : run ≠ [])
    (h : ∀ text ∈ front ++ back, inserted text) (hin : run <:+: front ++ piece ++ back) :
    run <:+: piece := by
  have hleft : ∀ {front piece : List β}, (∀ text ∈ front, inserted text) →
      ∀ {run : List β}, (∀ text ∈ run, ¬ inserted text) → run ≠ [] →
      run <:+: front ++ piece → run <:+: piece := by
    intro front piece hfront run hrun hne hin
    induction front with
    | nil => exact hin
    | cons text front ih =>
        rcases List.infix_cons_iff.mp hin with hpre | hin
        · obtain ⟨x, run, rfl⟩ := List.exists_cons_of_ne_nil hne
          obtain rfl := (List.cons_prefix_cons.mp hpre).1
          exact absurd (hfront x List.mem_cons_self) (hrun x List.mem_cons_self)
        · exact ih (fun text hmem => hfront text (List.mem_cons_of_mem _ hmem)) hin
  have hfront := fun text hmem => h text (List.mem_append_left back hmem)
  have hback := fun text hmem => h text (List.mem_append_right front (List.mem_reverse.mp hmem))
  rw [List.append_assoc] at hin
  have hrev := List.reverse_infix.mpr (hleft hfront hrun hne hin)
  rw [List.reverse_append] at hrev
  refine List.reverse_infix.mp (hleft hback (fun text hmem => ?_) ?_ hrev)
  · exact hrun text (List.mem_reverse.mp hmem)
  · exact fun hnil => hne (List.reverse_eq_nil_iff.mp hnil)

/-! ### Flags -/

/-- The last place of the reversed list where `p` holds of what stands before the element and
of the element. -/
def lastPlaceRev (p : List α → α → Bool) : List α → Option (List α × α)
  | [] => none
  | x :: before => if p before.reverse x then some (before.reverse, x) else lastPlaceRev p before

/-- The last place of `xs` where `p` holds: what stands before it, and the element. -/
def lastPlace (p : List α → α → Bool) (xs : List α) : Option (List α × α) :=
  lastPlaceRev p xs.reverse

@[simp] theorem lastPlace_nil (p : List α → α → Bool) : lastPlace p [] = none := rfl

theorem lastPlace_concat (p : List α → α → Bool) (xs : List α) (x : α) :
    lastPlace p (xs ++ [x]) = if p xs x then some (xs, x) else lastPlace p xs := by
  rw [lastPlace, List.reverse_append, List.reverse_singleton, List.singleton_append, lastPlaceRev,
    List.reverse_reverse]
  rfl

/-- **Flags.** What a line does not touch, the last line that touches it decides. -/
theorem flag_eq_lastPlace {γ : Type} {f : List α → γ} {p : List α → α → Bool} {v : List α → α → γ}
    {xs : List α}
    (h : ∀ before x after, xs = before ++ x :: after →
      f (before ++ [x]) = if p before x then v before x else f before) :
    f xs = (lastPlace p xs).elim (f []) fun place => v place.1 place.2 := by
  induction xs using List.reverseRecOn with
  | nil => rfl
  | append_singleton xs x ih =>
      have hxs := ih fun before y after hsplit => h before y (after ++ [x]) (by rw [hsplit]; simp)
      rw [h xs x [] rfl, lastPlace_concat]
      split
      · rfl
      · exact hxs

end Lib.Editor
