/-
C strings: the tests and cuts of `string.h`.

A string is the list of its characters before the terminator. The functions are those that a
line editor written in C uses: the prefix test `strncmp`, the search `strstr`, a character
at an index, and the order `strcmp`, which is `compare` on lists of characters. `before` is
a string cut at the first place of another one, which such programs do by storing a
terminator there.

The terminator is no character of a string, so a string with a NUL byte inside is not one of
these lists; a development that reads arbitrary bytes has to say where its strings end.
Characters are those of Lean and not bytes: nothing here depends on how many there are.

* `startsWith_iff`, `contains_iff`: the two tests are the prefix and the infix of Mathlib's
  lists;
* `infix_append_cons`, `prefix_append_cons`: a string without a separator is found in one of
  the parts that the separator makes;
* `fgetsAll`: what `fgets` leaves in its buffer, call after call, lines longer than the
  buffer included. `fgetsAll_lines` is the case of a file of lines that fit;
* `linesWithout`: a text without the lines of one kind, and how it is put together from
  parts.
-/

import Mathlib.Data.List.Infix

namespace Lib.CString

abbrev Text := List Char

/-- A literal. Proofs compare literals in the kernel, never by unfolding, and so the definition is
irreducible. -/
@[irreducible] def chars (literal : String) : Text := literal.toList

/-- `!strncmp(s, pre, strlen(pre))`: the text begins with `pre`, and may be longer. -/
def startsWith (s pre : Text) : Bool := pre.isPrefixOf s

/-- `strstr(s, needle) != NULL`. The empty string is found everywhere, as in C. -/
def contains (needle : Text) : Text → Bool
  | [] => needle.isEmpty
  | c :: s => needle.isPrefixOf (c :: s) || contains needle s

/-- The text before the first occurrence of `needle`: what is left of `s` after
`*strstr(s, needle) = 0`; all of `s` where there is none. -/
def before (needle : Text) : Text → Text
  | [] => []
  | c :: s => if needle.isPrefixOf (c :: s) then [] else c :: before needle s

/-- `s[i]`, the terminator behind the end. In C only the first one may be read; programs that look
further do not do so here. -/
def charAt (s : Text) (i : Nat) : Char := s.getD i '\x00'

theorem startsWith_iff {s pre : Text} : startsWith s pre = true ↔ pre <+: s :=
  List.isPrefixOf_iff_prefix

theorem contains_iff {needle s : Text} : contains needle s = true ↔ needle <:+: s := by
  induction s with
  | nil => simp [contains]
  | cons c s ih =>
      rw [contains, Bool.or_eq_true, ih, List.isPrefixOf_iff_prefix, List.infix_cons_iff]

/-- A needle without the character `c` does not reach over it. -/
theorem infix_append_cons {needle a b : Text} {c : Char} (hc : c ∉ needle)
    (h : needle <:+: a ++ c :: b) : needle <:+: a ∨ needle <:+: b := by
  obtain ⟨s, t, hst⟩ := h
  rw [List.append_assoc] at hst
  rcases List.append_eq_append_iff.mp hst with ⟨as, rfl, hrest⟩ | ⟨bs, rfl, hrest⟩
  · -- The needle starts in `a`; it ends before `c`.
    rcases List.append_eq_append_iff.mp hrest with ⟨cs, hcs, -⟩ | ⟨cs, rfl, hcs⟩
    · exact Or.inl ⟨s, cs, by rw [hcs, List.append_assoc]⟩
    · cases cs with
      | nil => exact Or.inl ⟨s, [], by simp⟩
      | cons d cs =>
          obtain ⟨rfl, -⟩ := List.cons.inj hcs
          exact absurd (List.mem_append_right _ List.mem_cons_self) hc
  · cases bs with
    | nil =>
        cases needle with
        | nil => exact Or.inl (List.nil_infix)
        | cons d needle =>
            obtain ⟨rfl, -⟩ := List.cons.inj hrest
            exact absurd List.mem_cons_self hc
    | cons d bs =>
        obtain ⟨-, hb⟩ := List.cons.inj hrest
        exact Or.inr ⟨bs, t, by rw [hb, List.append_assoc]; rfl⟩

/-- A prefix without the character `c` ends before it. -/
theorem prefix_append_cons {pre a b : Text} {c : Char} (hc : c ∉ pre) (h : pre <+: a ++ c :: b) :
    pre <+: a := by
  obtain ⟨t, ht⟩ := h
  rcases List.append_eq_append_iff.mp ht with ⟨as, rfl, -⟩ | ⟨bs, rfl, hrest⟩
  · exact List.prefix_append _ _
  · cases bs with
    | nil => simp
    | cons d bs =>
        obtain ⟨rfl, -⟩ := List.cons.inj hrest
        exact absurd (List.mem_append_right _ List.mem_cons_self) hc

theorem charAt_append {s : Text} (rest : Text) {i : Nat} (hi : i < s.length) :
    charAt (s ++ rest) i = charAt s i := by
  rw [charAt, charAt, List.getD_eq_getElem?_getD, List.getD_eq_getElem?_getD,
    List.getElem?_append_left hi]

/-- A prefix agrees with the text at each of its characters. -/
theorem charAt_of_startsWith {s pre : Text} (h : startsWith s pre = true) {i : Nat}
    (hi : i < pre.length) : charAt s i = charAt pre i := by
  obtain ⟨rest, rfl⟩ := startsWith_iff.mp h
  exact charAt_append rest hi

theorem startsWith_eq_false {s pre : Text} (i : Nat) (hi : i < pre.length)
    (h : charAt s i ≠ charAt pre i) : startsWith s pre = false :=
  Bool.eq_false_iff.mpr fun hpre => h (charAt_of_startsWith hpre hi)

/-- The cut is at an occurrence: the text is what stands before it, the occurrence, and a rest. -/
theorem before_append {needle s : Text} (h : contains needle s = true) :
    ∃ rest, before needle s ++ needle ++ rest = s := by
  induction s with
  | nil =>
      have hnil : needle = [] := by simpa [contains] using h
      exact ⟨[], by simp [before, hnil]⟩
  | cons c s ih =>
      by_cases hpre : needle.isPrefixOf (c :: s) = true
      · obtain ⟨rest, hrest⟩ := List.isPrefixOf_iff_prefix.mp hpre
        exact ⟨rest, by simpa [before, hpre] using hrest⟩
      · have hs : contains needle s = true := by
          rw [contains, Bool.or_eq_true] at h
          exact h.resolve_left hpre
        obtain ⟨rest, hrest⟩ := ih hs
        refine ⟨rest, ?_⟩
        rw [before, if_neg hpre, List.cons_append, List.cons_append, hrest]

/-- Without an occurrence nothing is cut. -/
theorem before_eq_self {needle s : Text} (h : contains needle s = false) : before needle s = s := by
  induction s with
  | nil => rfl
  | cons c s ih =>
      rw [contains, Bool.or_eq_false_iff] at h
      rw [before, h.1, if_neg Bool.false_ne_true, ih h.2]

/-- The cut leaves a prefix. -/
theorem prefix_before (needle s : Text) : before needle s <+: s := by
  induction s with
  | nil => exact List.nil_prefix
  | cons c s ih =>
      rw [before]
      split
      · exact List.nil_prefix
      · exact List.cons_prefix_cons.mpr ⟨rfl, ih⟩

/-- A text that lacks a character of the needle does not contain it. -/
theorem contains_eq_false {needle s : Text} (c : Char) (hc : c ∈ needle) (hs : c ∉ s) :
    contains needle s = false :=
  Bool.eq_false_iff.mpr fun h => hs ((contains_iff.mp h).subset hc)

/-! ### Lines of a text -/

/-- One line with its newline, and no other newline in it. `fgets` returns such a line, or a piece
without one. -/
def isWhole (line : Text) : Bool := line.getLast? == some '\n' && !line.dropLast.contains '\n'

theorem isWhole_iff {line : Text} :
    isWhole line = true ↔ ∃ body, line = body ++ ['\n'] ∧ '\n' ∉ body := by
  rw [isWhole, Bool.and_eq_true, beq_iff_eq, List.getLast?_eq_some_iff]
  constructor
  · rintro ⟨⟨body, rfl⟩, hbody⟩
    exact ⟨body, rfl, by simpa using hbody⟩
  · rintro ⟨body, rfl, hbody⟩
    exact ⟨⟨body, rfl⟩, by simpa using hbody⟩

theorem isWhole_append {start line : Text} (hstart : '\n' ∉ start) (h : isWhole line = true) :
    isWhole (start ++ line) = true := by
  obtain ⟨body, rfl, hbody⟩ := isWhole_iff.mp h
  refine isWhole_iff.mpr ⟨start ++ body, (List.append_assoc ..).symm, ?_⟩
  exact fun hmem => (List.mem_append.mp hmem).elim hstart hbody

/-- The lines of a text, but for those that `p` holds of. A last line without a newline is one of
them. -/
def linesWithout (p : Text → Bool) (text : Text) : List Text :=
  (text.splitOn '\n').filter (!p ·)

theorem linesWithout_append (p : Text → Bool) (front back : Text) :
    linesWithout p (front ++ '\n' :: back) = linesWithout p front ++ linesWithout p back := by
  rw [linesWithout, List.splitOn_append_cons_self, List.filter_append]
  rfl

/-- **Deleting lines**: of a text that is made of whole lines, those that `p` holds of do not
matter. -/
theorem linesWithout_flatten {p : Text → Bool} (hp : ∀ body, p (body ++ ['\n']) = p body)
    {pieces : List Text} (h : ∀ piece ∈ pieces, isWhole piece = true) (tail : Text) :
    linesWithout p (pieces.flatten ++ tail) =
      linesWithout p ((pieces.filter (!p ·)).flatten ++ tail) := by
  induction pieces with
  | nil => rfl
  | cons piece pieces ih =>
      obtain ⟨body, rfl, hbody⟩ := isWhole_iff.mp (h piece List.mem_cons_self)
      have hrest := ih fun other hmem => h other (List.mem_cons_of_mem _ hmem)
      have hcons : ∀ rest : Text, (body ++ ['\n']) ++ rest = body ++ '\n' :: rest := by simp
      rw [List.flatten_cons, List.append_assoc, hcons, linesWithout_append, hrest]
      by_cases hdelete : p body = true
      · rw [List.filter_cons_of_neg (by simp [hp, hdelete]), linesWithout,
          List.splitOn_eq_singleton hbody]
        simp [hdelete]
      · rw [List.filter_cons_of_pos (by simp [hp, hdelete]), List.flatten_cons, List.append_assoc,
          hcons, linesWithout_append]

/-! ### Files -/

/-- The texts that `fgets(buf, size, f)` leaves in the buffer, one call after the other, on the
rest of a file; `cur` is what the current call has read. -/
def fgetsAll (size : Nat) (cur : Text) : Text → List Text
  | [] => if cur.isEmpty then [] else [cur]
  | c :: rest =>
      if c == '\n' || cur.length + 2 == size then (cur ++ [c]) :: fgetsAll size [] rest
      else fgetsAll size (cur ++ [c]) rest

/-- A line that fits the buffer is read whole. -/
theorem fgetsAll_line {size : Nat} {cur line : Text} (rest : Text) (hline : '\n' ∉ line)
    (hsize : cur.length + line.length + 2 ≤ size) :
    fgetsAll size cur (line ++ '\n' :: rest) =
      (cur ++ line ++ ['\n']) :: fgetsAll size [] rest := by
  induction line generalizing cur with
  | nil =>
      rw [List.nil_append, fgetsAll, List.append_nil]
      simp
  | cons c line ih =>
      rw [List.mem_cons, not_or] at hline
      rw [List.length_cons] at hsize
      have hc : (c == '\n' || cur.length + 2 == size) = false := by
        rw [Bool.or_eq_false_iff, beq_eq_false_iff_ne, beq_eq_false_iff_ne]
        exact ⟨Ne.symm hline.1, by omega⟩
      rw [List.cons_append, fgetsAll, if_neg (by rw [hc]; exact Bool.false_ne_true),
        ih hline.2 (by rw [List.length_append, List.length_singleton]; omega)]
      simp

/-- A line that does not fit is cut, and what is left is read as if it were a line. -/
theorem fgetsAll_full {size : Nat} {cur line : Text} (rest : Text) (hne : line ≠ [])
    (hline : '\n' ∉ line) (hsize : cur.length + line.length + 1 = size) :
    fgetsAll size cur (line ++ rest) = (cur ++ line) :: fgetsAll size [] rest := by
  induction line generalizing cur with
  | nil => exact absurd rfl hne
  | cons c line ih =>
      rw [List.mem_cons, not_or] at hline
      rw [List.length_cons] at hsize
      have hc : (c == '\n') = false := beq_eq_false_iff_ne.mpr (Ne.symm hline.1)
      by_cases hlast : line = []
      · subst hlast
        rw [List.length_nil] at hsize
        have hfull : (cur.length + 2 == size) = true := beq_iff_eq.mpr (by omega)
        rw [List.cons_append, fgetsAll, hc, hfull]
        rfl
      · have hpos : 0 < line.length := List.length_pos_iff.mpr hlast
        have hmore : (cur.length + 2 == size) = false := beq_eq_false_iff_ne.mpr (by omega)
        rw [List.cons_append, fgetsAll, hc, hmore, Bool.false_or, if_neg Bool.false_ne_true,
          ih hlast hline.2 (by rw [List.length_append, List.length_singleton]; omega)]
        simp

/-- **Files of short lines** are read line by line. -/
theorem fgetsAll_lines {size : Nat} {lines : List Text} (hline : ∀ line ∈ lines, '\n' ∉ line)
    (hsize : ∀ line ∈ lines, line.length + 2 ≤ size) :
    fgetsAll size [] (lines.map (· ++ ['\n'])).flatten = lines.map (· ++ ['\n']) := by
  induction lines with
  | nil => rfl
  | cons line lines ih =>
      have hfirst : ([] : Text).length + line.length + 2 ≤ size := by
        rw [List.length_nil, Nat.zero_add]
        exact hsize line List.mem_cons_self
      rw [List.map_cons, List.flatten_cons, List.append_assoc, List.singleton_append,
        fgetsAll_line _ (hline line List.mem_cons_self) hfirst,
        ih (fun other hmem => hline other (List.mem_cons_of_mem _ hmem))
          fun other hmem => hsize other (List.mem_cons_of_mem _ hmem)]
      rfl

end Lib.CString
