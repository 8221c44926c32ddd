/-
What one iteration of `add_instrumentation` may do to the line and to the variables.

The iteration is a chain of tests, and the source relies on their being exclusive without
saying so: a startproc line is no call, a return starts with a tab and a letter, a dotted
directive is neither. The lemmas here say which tests exclude which, so that later proofs
follow one branch at a time.

* `rewriteWriteMask_cases`: the mask rewriting touches the end of the line only, and so no
  test that looks at the front of the line notices it;
* `dumpTrampoline_st`: the deferred trampoline leaves the tracked variables alone, and
  counts;
* `CutAtComment`, `cutAtComment_stripComment`: which of the four spellings of a comment
  behind a call are cut, and where;
* `isStartproc_false`, …: the tests of the iteration exclude each other.

Nothing is assumed of a line but that it is what `fgets` returns (`IsLine`): it may be cut,
it may be no instruction at all.
-/

import FlashStack.As.Instrumentation

namespace FlashStack.As

open Lib.CString

/-! ### Lines -/

/-- What one `fgets` returns: shorter than `MAX_LINE`, and the newline, if any, is last. A line of
the file that is shorter than `MAX_LINE` comes back whole; a longer one comes back as several such
pieces, of which only the last ends in a newline, and the loop takes each of them for a line. -/
structure IsLine (raw : Line) : Prop where
  ne : raw ≠ []
  newline : '\n' ∉ raw.dropLast
  noNul : '\x00' ∉ raw
  short : raw.length < 8192

theorem isLine_startproc : IsLine spaCfiStartproc where
  ne := by with_unfolding_all decide
  newline := by with_unfolding_all decide
  noNul := by with_unfolding_all decide
  short := by with_unfolding_all decide

/-- The mask ends in a newline, so it is the end of the line. -/
theorem before_writeMask {raw : Line} (h : '\n' ∉ raw.dropLast)
    (hmask : contains spaWriteMaskClang raw = true) :
    before spaWriteMaskClang raw ++ spaWriteMaskClang = raw := by
  obtain ⟨rest, hrest⟩ := before_append hmask
  by_cases hne : rest = []
  · rw [hne, List.append_nil] at hrest
    exact hrest
  · have hnewline : '\n' ∈ spaWriteMaskClang := by with_unfolding_all decide
    refine absurd ?_ h
    rw [← hrest, List.dropLast_append_of_ne_nil hne]
    exact List.mem_append_left _ (List.mem_append_right _ hnewline)

/-- The mask rewriting keeps a line, or takes the blank out of the mask at its end. -/
theorem rewriteWriteMask_cases {raw : Line} (h : '\n' ∉ raw.dropLast) :
    rewriteWriteMask raw = raw ∨
      ∃ body, raw = body ++ spaWriteMaskClang ∧ rewriteWriteMask raw = body ++ spaWriteMaskGcc := by
  by_cases hmask : contains spaWriteMaskClang raw = true
  · refine Or.inr ⟨_, (before_writeMask h hmask).symm, ?_⟩
    rw [rewriteWriteMask, if_pos hmask]
  · rw [rewriteWriteMask, if_neg hmask]
    exact Or.inl rfl

/-- The mask rewriting creates no occurrence of a text without a closing brace. -/
theorem contains_of_rewriteWriteMask {raw needle : Line} (h : '\n' ∉ raw.dropLast)
    (hbrace : '\x7d' ∉ needle) (hmask : contains needle (chars "\x7bz\x7d\n") = false)
    (hin : contains needle (rewriteWriteMask raw) = true) : contains needle raw = true := by
  rcases rewriteWriteMask_cases h with heq | ⟨body, hraw, heq⟩
  · rwa [heq] at hin
  · have hgcc : spaWriteMaskGcc = '\x7d' :: chars "\x7bz\x7d\n" := by with_unfolding_all decide
    rw [heq, hgcc, contains_iff] at hin
    rw [hraw, contains_iff]
    rcases infix_append_cons hbrace hin with hbody | htail
    · exact hbody.trans (List.prefix_append _ _).isInfix
    · rw [← contains_iff, hmask] at htail
      exact absurd htail Bool.false_ne_true

/-- A test for a prefix without a closing brace sees no difference. -/
theorem startsWith_rewriteWriteMask {raw pre : Line} (h : '\n' ∉ raw.dropLast)
    (hbrace : '\x7d' ∉ pre) : startsWith (rewriteWriteMask raw) pre = startsWith raw pre := by
  rcases rewriteWriteMask_cases h with heq | ⟨body, hraw, heq⟩
  · rw [heq]
  · have hgcc : spaWriteMaskGcc = '\x7d' :: chars "\x7bz\x7d\n" := by with_unfolding_all decide
    have hclang : spaWriteMaskClang = '\x7d' :: chars " \x7bz\x7d\n" := by with_unfolding_all decide
    rw [heq, hraw, hgcc, hclang, Bool.eq_iff_iff, startsWith_iff, startsWith_iff]
    constructor <;> intro hpre <;>
      exact (prefix_append_cons hbrace hpre).trans (List.prefix_append _ _)

/-- Nor does a search for a text that does not occur in the mask. -/
theorem contains_rewriteWriteMask {raw needle : Line} (h : '\n' ∉ raw.dropLast)
    (hbrace : '\x7d' ∉ needle) (hmask : contains needle spaWriteMaskGcc = false)
    (hclang : contains needle spaWriteMaskClang = false) :
    contains needle (rewriteWriteMask raw) = contains needle raw := by
  rcases rewriteWriteMask_cases h with heq | ⟨body, hraw, heq⟩
  · rw [heq]
  · have hbody : ∀ mask : Line, mask.head? = some '\x7d' → contains needle mask = false →
        (needle <:+: body ++ mask ↔ needle <:+: body) := by
      intro mask hhead hno
      refine ⟨fun hin => ?_, fun hin => hin.trans (List.prefix_append _ _).isInfix⟩
      cases mask with
      | nil => exact absurd hhead (by simp)
      | cons c rest =>
          obtain rfl : c = '\x7d' := Option.some.inj hhead
          rcases infix_append_cons hbrace hin with hbody | hrest
          · exact hbody
          · have hcons := contains_iff.mpr (hrest.trans (List.suffix_cons '\x7d' rest).isInfix)
            rw [hno] at hcons
            exact absurd hcons Bool.false_ne_true
    rw [heq, hraw, Bool.eq_iff_iff, contains_iff, contains_iff,
      hbody _ (by with_unfolding_all decide) hmask, hbody _ (by with_unfolding_all decide) hclang]

/-- A test for a character that is not in the mask. -/
theorem charAt_rewriteWriteMask {raw : Line} (h : '\n' ∉ raw.dropLast) {c : Char}
    (hc : c ∉ '\x00' :: spaWriteMaskClang) (i : Nat) :
    charAt (rewriteWriteMask raw) i = c ↔ charAt raw i = c := by
  rcases rewriteWriteMask_cases h with heq | ⟨body, hraw, heq⟩
  · rw [heq]
  · have hbehind : ∀ mask : Line, (∀ d ∈ mask, d ∈ spaWriteMaskClang) → body.length ≤ i →
        charAt (body ++ mask) i ≠ c := by
      intro mask hmask hi hat
      refine hc ?_
      rw [charAt, List.getD_eq_getElem?_getD, List.getElem?_append_right hi] at hat
      cases hget : mask[i - body.length]? with
      | none =>
          rw [hget] at hat
          exact hat ▸ List.mem_cons_self
      | some d =>
          rw [hget] at hat
          exact hat ▸ List.mem_cons_of_mem _ (hmask d (List.mem_of_getElem? hget))
    rw [heq, hraw]
    by_cases hi : i < body.length
    · rw [charAt_append _ hi, charAt_append _ hi]
    · have hle := Nat.le_of_not_lt hi
      have hall : (spaWriteMaskGcc.all fun d => spaWriteMaskClang.contains d) = true := by
        with_unfolding_all decide
      have hgcc : ∀ d ∈ spaWriteMaskGcc, d ∈ spaWriteMaskClang :=
        fun d hd => List.contains_iff_mem.mp (List.all_eq_true.mp hall d hd)
      exact ⟨fun hat => absurd hat (hbehind _ hgcc hle),
        fun hat => absurd hat (hbehind _ (fun _ hd => hd) hle)⟩

theorem charAt_zero_rewriteWriteMask {raw : Line} (h : '\n' ∉ raw.dropLast) :
    charAt (rewriteWriteMask raw) 0 = charAt raw 0 := by
  rcases rewriteWriteMask_cases h with heq | ⟨body, hraw, heq⟩
  · rw [heq]
  · cases body with
    | nil =>
        rw [heq, hraw]
        with_unfolding_all decide
    | cons c body => rw [heq, hraw]; rfl

/-! ### The deferred trampoline -/

/-- The trampoline changes none of the variables that decide about the line. -/
theorem dumpTrampoline_st (cfg : Config) (s : State) (line : Line) :
    ∃ next count, (dumpTrampoline cfg s line).1 =
      { s with instrumentNext := next, insLines := count } := by
  unfold dumpTrampoline
  split
  · exact ⟨false, s.insLines + 1, rfl⟩
  · exact ⟨s.instrumentNext, s.insLines, rfl⟩

@[simp] theorem callsRewritten_dumpTrampoline (cfg : Config) (s : State) (line : Line) :
    callsRewritten cfg (dumpTrampoline cfg s line).1 = callsRewritten cfg s := by
  obtain ⟨next, count, hst⟩ := dumpTrampoline_st cfg s line
  rw [hst]
  rfl

@[simp] theorem retsRewritten_dumpTrampoline (cfg : Config) (s : State) (line : Line) :
    retsRewritten cfg (dumpTrampoline cfg s line).1 = retsRewritten cfg s := by
  obtain ⟨next, count, hst⟩ := dumpTrampoline_st cfg s line
  rw [hst]
  rfl

/-! ### Comments behind calls -/

/-- What is left of a text after a cut in front of a blank that a comment follows. -/
def CutAtComment (text cut : Text) : Prop :=
  ∃ rest, text = cut ++ rest ∧
    (rest = [] ∨ ∃ c rest', (c = ' ' ∨ c = '\t') ∧ rest = c :: '#' :: rest')

theorem CutAtComment.before {text cut : Text} (h : CutAtComment text cut) {c d : Char}
    (hc : c = ' ' ∨ c = '\t') : CutAtComment text (before [c, '#', d] cut) := by
  by_cases hin : contains [c, '#', d] cut = true
  · obtain ⟨rest, rfl, -⟩ := h
    obtain ⟨rest', hcut⟩ := before_append hin
    refine ⟨[c, '#', d] ++ rest' ++ rest, ?_, .inr ⟨c, d :: (rest' ++ rest), hc, rfl⟩⟩
    simp only [← List.append_assoc, hcut]
  · rwa [before_eq_self (Bool.not_eq_true _ ▸ hin)]

/-- The four searches of the direct calls cut in front of a blank and a comment, or not at all. -/
theorem cutAtComment_stripComment (line : Line) :
    CutAtComment line.dropLast (stripComment line) := by
  have h₁ : chars " # " = [' ', '#', ' '] := by with_unfolding_all decide
  have h₂ : chars "\t#\t" = ['\t', '#', '\t'] := by with_unfolding_all decide
  have h₃ : chars " #\t" = [' ', '#', '\t'] := by with_unfolding_all decide
  have h₄ : chars "\t# " = ['\t', '#', ' '] := by with_unfolding_all decide
  have hwhole : CutAtComment line.dropLast line.dropLast :=
    ⟨[], (List.append_nil _).symm, .inl rfl⟩
  rw [stripComment, h₁, h₂, h₃, h₄]
  exact (((hwhole.before (.inl rfl)).before (.inr rfl)).before (.inl rfl)).before (.inr rfl)

/-! ### The tests exclude each other -/

theorem charAt_of_isStartproc {line : Line} (h : isStartproc line = true) :
    charAt line 1 = '.' ∧ charAt line 6 = 's' := by
  have h1 := charAt_of_startsWith (i := 1) h (by with_unfolding_all decide)
  have h6 := charAt_of_startsWith (i := 6) h (by with_unfolding_all decide)
  exact ⟨h1.trans (by with_unfolding_all decide), h6.trans (by with_unfolding_all decide)⟩

theorem charAt_of_isEndproc {line : Line} (h : isEndproc line = true) :
    charAt line 1 = '.' ∧ charAt line 6 = 'e' := by
  have h1 := charAt_of_startsWith (i := 1) h (by with_unfolding_all decide)
  have h6 := charAt_of_startsWith (i := 6) h (by with_unfolding_all decide)
  exact ⟨h1.trans (by with_unfolding_all decide), h6.trans (by with_unfolding_all decide)⟩

/-- An instruction is neither a startproc nor an endproc line. -/
theorem isStartproc_false {line : Line} (h : charAt line 1 ≠ '.') : isStartproc line = false :=
  Bool.eq_false_iff.mpr fun hstart => h (charAt_of_isStartproc hstart).1

theorem isEndproc_false {line : Line} (h : charAt line 1 ≠ '.') : isEndproc line = false :=
  Bool.eq_false_iff.mpr fun hend => h (charAt_of_isEndproc hend).1

end FlashStack.As
