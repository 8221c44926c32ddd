/-
An assembler on its way through the lines of a file.

A `Scanner` says of every line, from the state in which it is reached, to which sections the
line adds bytes and which names it defines as labels. A state is whatever the assembler
carries from line to line: the current section, a comment that has been opened, a condition
that does not hold. All of this is left open, so that a result holds for any assembler. What
the bytes are, how many and for which instruction, is not part of it: here only matters
whether anything stands between two places of a section.

* `after`: the state behind some lines;
* `fills`: some of the lines add bytes to a section;
* `IsCode`, `IsNote`: lines that add bytes to the current section, and lines that add none;
  neither changes the state;
* `EndsAt`, `endsAt_between_iff`: a name is a label of a section and nothing stands behind
  it there; and where that can be, when the lines around are notes.

The lemmas are about lists of lines and go by induction on them. A line of which nothing is
known may do anything: open a comment, switch the section, define a name twice. So the
conditions that a result puts on the lines between a label and a place are all in view.
-/

import FlashStack.Lib.CString

namespace Lib.Sections

open Lib.CString

structure Scanner (σ : Type) where
  start : σ
  next : σ → Text → σ
  /-- Lines are read, and not skipped in a comment or a condition. -/
  reads : σ → Bool
  /-- The current section. -/
  place : σ → Text
  /-- The line adds bytes to the section. -/
  emits : σ → Text → Text → Bool
  /-- The line defines the name, at the end of the current section and in front of its bytes. -/
  defines : σ → Text → Text → Bool

namespace Scanner

variable {σ : Type} (asm : Scanner σ)

/-- The state behind the lines. -/
def after (s : σ) (lines : List Text) : σ := lines.foldl asm.next s

/-- Some of the lines add bytes to the section. Each is read in the state that those before it
leave. -/
def fills : σ → List Text → Text → Bool
  | _, [], _ => false
  | s, line :: lines, sect => asm.emits s line sect || fills (asm.next s line) lines sect

/-- One of the lines defines the name in the section, and nothing behind it adds bytes there. -/
def EndsAt (s : σ) (lines : List Text) (name sect : Text) : Prop :=
  ∃ front line back, lines = front ++ line :: back ∧ asm.place (asm.after s front) = sect ∧
    asm.defines (asm.after s front) line name = true ∧
    asm.fills (asm.after s front) (line :: back) sect = false

/-- A line that adds bytes to the current section, where lines are read, and does nothing else. -/
structure IsCode (line : Text) : Prop where
  next : ∀ s, asm.next s line = s
  emits : ∀ s sect, asm.emits s line sect = (asm.reads s && asm.place s == sect)

/-- A line that neither adds bytes nor defines a name. -/
structure IsNote (line : Text) : Prop where
  next : ∀ s, asm.next s line = s
  emits : ∀ s sect, asm.emits s line sect = false
  defines : ∀ s name, asm.defines s line name = false

@[simp] theorem after_nil (s : σ) : asm.after s [] = s := rfl

@[simp] theorem after_cons (s : σ) (line : Text) (lines : List Text) :
    asm.after s (line :: lines) = asm.after (asm.next s line) lines := rfl

@[simp] theorem after_append (s : σ) (front back : List Text) :
    asm.after s (front ++ back) = asm.after (asm.after s front) back := List.foldl_append ..

theorem fills_append (s : σ) (front back : List Text) (sect : Text) :
    asm.fills s (front ++ back) sect =
      (asm.fills s front sect || asm.fills (asm.after s front) back sect) := by
  induction front generalizing s with
  | nil => rfl
  | cons line front ih => rw [List.cons_append, fills, fills, ih, Bool.or_assoc, after_cons]

variable {asm} {s : σ} {lines : List Text} {sect name : Text}

/-- Lines that keep the state add what each of them adds. -/
theorem after_of_keeps (h : ∀ line ∈ lines, ∀ s, asm.next s line = s) : asm.after s lines = s := by
  induction lines with
  | nil => rfl
  | cons line lines ih =>
      rw [after_cons, h line List.mem_cons_self]
      exact ih fun other hmem => h other (List.mem_cons_of_mem _ hmem)

theorem fills_of_keeps (h : ∀ line ∈ lines, ∀ s, asm.next s line = s) :
    asm.fills s lines sect = lines.any fun line => asm.emits s line sect := by
  induction lines with
  | nil => rfl
  | cons line lines ih =>
      rw [fills, h line List.mem_cons_self, List.any_cons,
        ih fun other hmem => h other (List.mem_cons_of_mem _ hmem)]

theorem after_notes (h : ∀ line ∈ lines, asm.IsNote line) : asm.after s lines = s :=
  after_of_keeps fun line hmem => (h line hmem).next

theorem fills_notes (h : ∀ line ∈ lines, asm.IsNote line) : asm.fills s lines sect = false := by
  rw [fills_of_keeps fun line hmem => (h line hmem).next, List.any_eq_false]
  intro line hmem
  rw [(h line hmem).emits]
  exact Bool.false_ne_true

theorem after_code (h : ∀ line ∈ lines, asm.IsCode line) : asm.after s lines = s :=
  after_of_keeps fun line hmem => (h line hmem).next

theorem fills_code (hne : lines ≠ []) (h : ∀ line ∈ lines, asm.IsCode line) :
    asm.fills s lines sect = (asm.reads s && asm.place s == sect) := by
  rw [fills_of_keeps fun line hmem => (h line hmem).next]
  obtain ⟨line, hmem⟩ := List.exists_mem_of_ne_nil lines hne
  cases hgoes : asm.reads s && asm.place s == sect with
  | false =>
      rw [List.any_eq_false]
      intro other hother
      rw [(h other hother).emits, hgoes]
      exact Bool.false_ne_true
  | true =>
      rw [List.any_eq_true]
      exact ⟨line, hmem, ((h line hmem).emits s sect).trans hgoes⟩

/-- Notes around some lines change nothing. -/
theorem after_between {front back : List Text} (hfront : ∀ line ∈ front, asm.IsNote line)
    (hback : ∀ line ∈ back, asm.IsNote line) :
    asm.after s (front ++ lines ++ back) = asm.after s lines := by
  rw [after_append, after_append, after_notes hfront, after_notes hback]

theorem fills_between {front back : List Text} (hfront : ∀ line ∈ front, asm.IsNote line)
    (hback : ∀ line ∈ back, asm.IsNote line) :
    asm.fills s (front ++ lines ++ back) sect = asm.fills s lines sect := by
  rw [fills_append, fills_append, after_append, fills_notes hfront, fills_notes hback,
    after_notes hfront, Bool.false_or, Bool.or_false]

/-- A line that keeps its place, between notes: the name ends there exactly when the line defines
it and adds nothing. -/
theorem endsAt_between_iff {front back : List Text} {line : Text}
    (hfront : ∀ line ∈ front, asm.IsNote line) (hback : ∀ line ∈ back, asm.IsNote line) :
    asm.EndsAt s (front ++ line :: back) name sect ↔
      asm.place s = sect ∧ asm.defines s line name = true ∧ asm.emits s line sect = false := by
  have hafter : ∀ texts : List Text, (∀ text ∈ texts, asm.IsNote text) → asm.after s texts = s :=
    fun _ => after_notes
  constructor
  · rintro ⟨front', other, back', hsplit, hplace, hdefines, hfills⟩
    -- The line that defines a name is no note.
    have hother : ∀ s, asm.defines s other name = true → ¬ asm.IsNote other := by
      intro u hu hnote
      rw [hnote.defines] at hu
      exact Bool.false_ne_true hu
    rcases List.append_eq_append_iff.mp hsplit with ⟨as, rfl, hrest⟩ | ⟨bs, rfl, hrest⟩
    · cases as with
      | nil =>
          obtain ⟨rfl, rfl⟩ := List.cons.inj hrest
          rw [List.append_nil, hafter front hfront] at hplace hdefines hfills
          rw [fills, Bool.or_eq_false_iff] at hfills
          exact ⟨hplace, hdefines, hfills.1⟩
      | cons text as =>
          obtain ⟨rfl, rfl⟩ := List.cons.inj hrest
          exact absurd (hback other (by simp)) (hother _ hdefines)
    · cases bs with
      | nil =>
          obtain ⟨rfl, rfl⟩ := List.cons.inj hrest
          rw [List.append_nil] at hfront
          rw [hafter front' hfront] at hplace hdefines hfills
          rw [fills, Bool.or_eq_false_iff] at hfills
          exact ⟨hplace, hdefines, hfills.1⟩
      | cons text bs =>
          obtain ⟨rfl, rfl⟩ := List.cons.inj hrest
          exact absurd (hfront other (by simp)) (hother _ hdefines)
  · rintro ⟨hplace, hdefines, hemits⟩
    refine ⟨front, line, back, rfl, ?_, ?_, ?_⟩
    · rw [hafter front hfront, hplace]
    · rw [hafter front hfront, hdefines]
    · rw [hafter front hfront, fills, hemits, fills_notes hback]
      rfl

end Scanner

end Lib.Sections
