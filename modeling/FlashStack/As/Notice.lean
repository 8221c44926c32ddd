/-
What `add_instrumentation` notices of its input, read off the lines.

The loop decides by flags, and a flag is what the last line that names it has left. So each
flag behind some lines is a property of these lines, without the loop: the last line with
one of the texts that are looked for decides (`Lib.Editor.lastPlace`). The texts are
searched anywhere in a line for some flags and at its front for others, as in the source,
and the definitions here keep the difference.

* `step_mode`: what one line does to the variables about sections and syntax;
* `silent_of_not_bookkept`: a line that is replaced or is a marker changes none of them;
* `run_mode`, `run_tableAt`: what the loop leaves in the variables, as a property of the
  lines.

When calls are instrumented, the lines must not be calls that hold one of the texts
(`Quiet`): such a line may be replaced, and then it is not looked at, where a copied one
would have been noticed.
-/

import FlashStack.As.Pairing

namespace FlashStack.As

open Lib.CString Lib.Editor

/-! ### The texts that are looked for -/

def intelSyntax : Line := chars ".intel_syntax"
def attSyntax : Line := chars ".att_syntax"

/-- The line is looked at for the width of the code. -/
def tracksCode (raw : Line) : Bool :=
  !isSection raw && contains (chars ".code") raw &&
    (contains (chars ".code32") raw || contains (chars ".code64") raw)

/-- The line is looked at for the syntax: it is no section line, and one of the two directives
occurs in it. -/
def tracksIntel (raw : Line) : Bool :=
  !isSection raw && (contains intelSyntax raw || contains attSyntax raw)

/-- The line is looked at for the bounds of an assembly block. -/
def tracksApp (raw : Line) : Bool :=
  !isSection raw && (charAt raw 0 == '#' || charAt raw 1 == '#') &&
    (contains (chars "#APP") raw || contains (chars "#NO_APP") raw)

/-- The line has one of the texts that are looked for, anywhere in it. A line without them leaves
the three flags alone. -/
def mentions (raw : Line) : Bool :=
  contains (chars ".code") raw || contains intelSyntax raw || contains attSyntax raw ||
    contains (chars "#APP") raw || contains (chars "#NO_APP") raw

/-- A call has none of the texts; a call that is replaced is not looked at. -/
def Quiet (cfg : Config) (raw : Line) : Prop :=
  cfg.callInstrumented = true → startsWith raw spaCallqNoStar = true → mentions raw = false

theorem quiet_startproc (cfg : Config) : Quiet cfg spaCfiStartproc := by
  have hnot : startsWith spaCfiStartproc spaCallqNoStar = false := by with_unfolding_all decide
  intro _ hcall
  rw [hnot] at hcall
  exact absurd hcall Bool.false_ne_true

/-! ### The variables as properties of the lines -/

/-- The last directive about sections names a section of code; `ok` where there is none. -/
def inText (ok : Bool) (part : List Line) : Bool :=
  (lastPlace (fun _ raw => isSection raw) part).elim ok fun place => isTextSection place.2

/-- The last line about the width of the code names 32 bits only. -/
def skipsCode (part : List Line) : Bool :=
  (lastPlace (fun _ raw => tracksCode raw) part).any fun place =>
    !contains (chars ".code64") place.2

/-- The last line about the syntax names the Intel syntax only. -/
def skipsIntel (part : List Line) : Bool :=
  (lastPlace (fun _ raw => tracksIntel raw) part).any fun place => !contains attSyntax place.2

/-- The last line about assembly blocks names the start of one only. -/
def skipsApp (part : List Line) : Bool :=
  (lastPlace (fun _ raw => tracksApp raw) part).any fun place =>
    !contains (chars "#NO_APP") place.2

/-- The line behind `part` is noticed as the label of a function: it has the form, and the section
and the three flags, with this line counted, let the iteration come to the test. -/
def noticed (ok : Bool) (part : List Line) (raw : Line) : Bool :=
  isFunctionLabel raw && inText ok part && !skipsCode (part ++ [raw]) &&
    !skipsIntel (part ++ [raw]) && !skipsApp (part ++ [raw])

/-- The last label noticed is outside a function and in the table; `own` where there is none. -/
def tableAt (table : Line → Bool) (own ok : Bool) (part : List Line) : Bool :=
  (lastPlace (noticed ok) part).elim own fun place => table place.2 && !inRegion place.1

/-! ### One line -/

theorem isDotted_and_startsWith (line pre : Line) :
    (isDotted line && startsWith (line.drop 2) pre) = startsWith line ('\t' :: '.' :: pre) := by
  rw [Bool.eq_iff_iff, Bool.and_eq_true, startsWith_iff, startsWith_iff]
  match line with
  | [] => simp [isDotted, charAt]
  | [c] => simp [isDotted, charAt]
  | c :: d :: rest =>
      have hdot : isDotted (c :: d :: rest) = (c == '\t' && d == '.') := rfl
      rw [hdot, List.drop_succ_cons, List.drop_succ_cons, List.drop_zero, Bool.and_eq_true,
        beq_iff_eq, beq_iff_eq, List.cons_prefix_cons, List.cons_prefix_cons]
      constructor
      · rintro ⟨⟨rfl, rfl⟩, hpre⟩
        exact ⟨rfl, rfl, hpre⟩
      · rintro ⟨rfl, rfl, hpre⟩
        exact ⟨⟨rfl, rfl⟩, hpre⟩

/-- The mask rewriting is invisible to a test for a directive. -/
theorem isDotted_and_startsWith_rewriteWriteMask {raw pre : Line} (h : '\n' ∉ raw.dropLast)
    (hbrace : '\x7d' ∉ pre) :
    (isDotted (rewriteWriteMask raw) && startsWith ((rewriteWriteMask raw).drop 2) pre) =
      (isDotted raw && startsWith (raw.drop 2) pre) := by
  rw [isDotted_and_startsWith, isDotted_and_startsWith]
  refine startsWith_rewriteWriteMask h ?_
  simp [hbrace]

section Masked

variable {raw : Line} (h : '\n' ∉ raw.dropLast)
include h

theorem isTextSection_rewriteWriteMask :
    (isDotted (rewriteWriteMask raw) && isTextSection (rewriteWriteMask raw)) =
      (isDotted raw && isTextSection raw) := by
  simp only [isTextSection, Bool.and_or_distrib_left]
  rw [isDotted_and_startsWith_rewriteWriteMask h (by with_unfolding_all decide),
    isDotted_and_startsWith_rewriteWriteMask h (by with_unfolding_all decide),
    isDotted_and_startsWith_rewriteWriteMask h (by with_unfolding_all decide),
    isDotted_and_startsWith_rewriteWriteMask h (by with_unfolding_all decide)]

theorem isSection_rewriteWriteMask : isSection (rewriteWriteMask raw) = isSection raw := by
  simp only [isSection, Bool.and_or_distrib_left]
  rw [isTextSection_rewriteWriteMask h]
  simp only [isOtherSection, Bool.and_or_distrib_left]
  rw [isDotted_and_startsWith_rewriteWriteMask h (by with_unfolding_all decide),
    isDotted_and_startsWith_rewriteWriteMask h (by with_unfolding_all decide),
    isDotted_and_startsWith_rewriteWriteMask h (by with_unfolding_all decide),
    isDotted_and_startsWith_rewriteWriteMask h (by with_unfolding_all decide)]

theorem hashed_rewriteWriteMask :
    (charAt (rewriteWriteMask raw) 0 == '#' || charAt (rewriteWriteMask raw) 1 == '#') =
      (charAt raw 0 == '#' || charAt raw 1 == '#') := by
  have hhash : '#' ∉ '\x00' :: spaWriteMaskClang := by with_unfolding_all decide
  rw [Bool.eq_iff_iff, Bool.or_eq_true, Bool.or_eq_true, beq_iff_eq, beq_iff_eq, beq_iff_eq,
    beq_iff_eq, charAt_rewriteWriteMask h hhash, charAt_rewriteWriteMask h hhash]

/-- No text that is looked for overlaps the mask. -/
theorem contains_text_rewriteWriteMask {needle : Line}
    (hneedle : needle ∈ [chars ".code", chars ".code32", chars ".code64", intelSyntax, attSyntax,
      chars "#APP", chars "#NO_APP"]) :
    contains needle (rewriteWriteMask raw) = contains needle raw := by
  have hmask : ∀ text ∈ [chars ".code", chars ".code32", chars ".code64", intelSyntax, attSyntax,
      chars "#APP", chars "#NO_APP"], '\x7d' ∉ text ∧ contains text spaWriteMaskGcc = false ∧
      contains text spaWriteMaskClang = false := by with_unfolding_all decide
  obtain ⟨hbrace, hgcc, hclang⟩ := hmask needle hneedle
  exact contains_rewriteWriteMask h hbrace hgcc hclang

end Masked

/-- What is not looked at is a marker, a return or a call. -/
theorem not_bookkept_cases {cfg : Config} {s : State} {raw : Line} (hactive : cfg.active = true)
    (h : '\n' ∉ raw.dropLast) (hbook : bookkept cfg s (rewriteWriteMask raw) = false) :
    isMarker raw = true ∨ isRet raw = true ∨
      cfg.callInstrumented = true ∧ startsWith raw spaCallqNoStar = true := by
  obtain ⟨hpass, h64⟩ := (Bool.and_eq_true _ _).mp hactive
  by_contra hnone
  simp only [not_or, Bool.not_eq_true, isMarker, Bool.or_eq_false_iff] at hnone
  obtain ⟨⟨hstart, hend⟩, hret, hcall⟩ := hnone
  have hcallNone : rewriteCall cfg s (rewriteWriteMask raw) = none := by
    by_cases hcalls : cfg.callInstrumented = true
    · refine rewriteCall_eq_none ?_
      rw [startsWith_rewriteWriteMask h (by with_unfolding_all decide)]
      simpa [hcalls] using hcall
    · simp [rewriteCall, callsRewritten, hcalls]
  have hretNone : rewriteRet cfg s (rewriteWriteMask raw) = none := by
    refine rewriteRet_eq_none ?_
    rw [isRet_rewriteWriteMask h, hret]
  rw [bookkept, isStartproc_rewriteWriteMask h, isEndproc_rewriteWriteMask h, hstart, hend, hpass,
    hcallNone, hretNone] at hbook
  simp at hbook

/-- Such a line names no section and none of the texts. -/
theorem silent_of_not_bookkept {cfg : Config} {s : State} {raw : Line}
    (hactive : cfg.active = true) (h : '\n' ∉ raw.dropLast) (hquiet : Quiet cfg raw)
    (hbook : bookkept cfg s (rewriteWriteMask raw) = false) :
    isSection raw = false ∧ mentions raw = false := by
  have hfixed : ∀ line ∈ [spaCfiStartproc, spaCfiEndproc, spaGccRet, spaClangRetq],
      isSection line = false ∧ mentions line = false := by with_unfolding_all decide
  rcases not_bookkept_cases hactive h hbook with hmarker | hret | ⟨hcalls, hcall⟩
  · refine hfixed raw ?_
    rw [isMarker, Bool.or_eq_true] at hmarker
    rcases hmarker with hstart | hend
    · simp [eq_of_isStartproc h hstart]
    · simp [eq_of_startsWith h (by with_unfolding_all decide) hend]
  · refine hfixed raw ?_
    rcases eq_of_isRet h hret with rfl | rfl <;> simp
  · refine ⟨?_, hquiet hcalls hcall⟩
    have hone : charAt raw 1 ≠ '.' := by
      rw [charAt_of_startsWith hcall (by with_unfolding_all decide)]
      with_unfolding_all decide
    simp [isSection, isDotted, hone]

/-- What the line does to the variables about the syntax, on the line as it is in the input. -/
theorem trackSyntax_mode {cfg : Config} (hactive : cfg.active = true) (s : State) {raw : Line}
    (h : '\n' ∉ raw.dropLast) (hsection : isSection raw = false) :
    let st := trackSyntax cfg s (rewriteWriteMask raw)
    st.instrOk = s.instrOk ∧
      st.skipCsect = (if tracksCode raw then !contains (chars ".code64") raw else s.skipCsect) ∧
      st.skipIntel = (if tracksIntel raw then !contains attSyntax raw else s.skipIntel) ∧
      st.skipApp = (if tracksApp raw then !contains (chars "#NO_APP") raw else s.skipApp) := by
  obtain ⟨-, h64⟩ := (Bool.and_eq_true _ _).mp hactive
  rw [trackSyntax_eq, tracksCode, tracksIntel, tracksApp, hsection]
  simp only [hashed_rewriteWriteMask h, h64]
  rw [contains_text_rewriteWriteMask h (by simp), contains_text_rewriteWriteMask h (by simp),
    contains_text_rewriteWriteMask h (by simp), ← intelSyntax, ← attSyntax,
    contains_text_rewriteWriteMask h (by simp), contains_text_rewriteWriteMask h (by simp),
    contains_text_rewriteWriteMask h (by simp), contains_text_rewriteWriteMask h (by simp)]
  refine ⟨trivial, ?_, ?_, ?_⟩
  · cases contains (chars ".code") raw <;> cases contains (chars ".code32") raw <;>
      cases contains (chars ".code64") raw <;> rfl
  · cases contains intelSyntax raw <;> cases contains attSyntax raw <;> rfl
  · cases charAt raw 0 == '#' || charAt raw 1 == '#' <;> cases contains (chars "#APP") raw <;>
      cases contains (chars "#NO_APP") raw <;> rfl

/-- The bookkeeping, on the line as it is in the input. -/
theorem inspect_mode {cfg : Config} (hactive : cfg.active = true) (s : State) {raw : Line}
    (h : '\n' ∉ raw.dropLast) :
    let st := (inspect cfg s (rewriteWriteMask raw)).st
    st.instrOk = (if isSection raw then isTextSection raw else s.instrOk) ∧
      st.skipCsect = (if tracksCode raw then !contains (chars ".code64") raw else s.skipCsect) ∧
      st.skipIntel = (if tracksIntel raw then !contains attSyntax raw else s.skipIntel) ∧
      st.skipApp = (if tracksApp raw then !contains (chars "#NO_APP") raw else s.skipApp) := by
  have hsame := isSection_rewriteWriteMask h
  rcases inspect_cases cfg s (rewriteWriteMask raw) with ⟨hsection, -, heq⟩ | ⟨hsection, -, heq⟩ |
    ⟨hsection, -, -, _, _, _, _, heq⟩
  · rw [hsame] at hsection
    have htext : isTextSection (rewriteWriteMask raw) = isTextSection raw := by
      have hdotted : isDotted raw = true := ((Bool.and_eq_true _ _).mp hsection).1
      have hdotted' : isDotted (rewriteWriteMask raw) = true :=
        ((Bool.and_eq_true _ _).mp (hsame.trans hsection)).1
      have hmask := isTextSection_rewriteWriteMask h
      rwa [hdotted, hdotted', Bool.true_and, Bool.true_and] at hmask
    rw [heq, htext]
    simp [tracksCode, tracksIntel, tracksApp, hsection]
  · have hnot := hsame.symm.trans hsection
    simp only [heq, functionLabel, hnot, Bool.false_eq_true, if_false]
    exact trackSyntax_mode hactive s h hnot
  · have hnot := hsame.symm.trans hsection
    simp only [heq, hnot, Bool.false_eq_true, if_false]
    exact trackSyntax_mode hactive s h hnot

/-- **What a line does** to the variables about sections and syntax. Each is set by the lines that
are looked at for it, and kept by all others. -/
theorem step_mode {cfg : Config} (hactive : cfg.active = true) (s : State) {raw : Line}
    (h : '\n' ∉ raw.dropLast) (hquiet : Quiet cfg raw) :
    let st := (step cfg s raw).st
    st.instrOk = (if isSection raw then isTextSection raw else s.instrOk) ∧
      st.skipCsect = (if tracksCode raw then !contains (chars ".code64") raw else s.skipCsect) ∧
      st.skipIntel = (if tracksIntel raw then !contains attSyntax raw else s.skipIntel) ∧
      st.skipApp = (if tracksApp raw then !contains (chars "#NO_APP") raw else s.skipApp) := by
  obtain ⟨next, count, starts, ends, hadvance⟩ := advance_eq cfg s (rewriteWriteMask raw)
  rw [step, stepLine_eq]
  by_cases hbook : bookkept cfg s (rewriteWriteMask raw) = true
  · obtain ⟨skip, hinspect⟩ := bookkeep_eq cfg (advance cfg s (rewriteWriteMask raw))
      (rewriteWriteMask raw)
    rw [if_pos hbook, hinspect, hadvance]
    exact inspect_mode hactive _ h
  · obtain ⟨hsection, hsilent⟩ :=
      silent_of_not_bookkept hactive h hquiet (Bool.eq_false_iff.mpr hbook)
    rw [if_neg hbook, hadvance]
    simp only [mentions, Bool.or_eq_false_iff] at hsilent
    simp [tracksCode, tracksIntel, tracksApp, hsection, hsilent]

/-! ### All lines -/

/-- **The loop** leaves in the variables what the last lines about them say. -/
theorem run_mode {cfg : Config} (hactive : cfg.active = true) {s : State} {part : List Line}
    (hlines : ∀ raw ∈ part, IsLine raw ∧ Quiet cfg raw) (hcsect : s.skipCsect = false)
    (hintel : s.skipIntel = false) (happ : s.skipApp = false) :
    (run cfg s part).st.instrOk = inText s.instrOk part ∧
      (run cfg s part).st.skipCsect = skipsCode part ∧
      (run cfg s part).st.skipIntel = skipsIntel part ∧
      (run cfg s part).st.skipApp = skipsApp part := by
  have hany : ∀ (place : Option (List Line × Line)) (g : List Line × Line → Bool),
      place.elim false g = place.any g := by
    intro place g
    cases place <;> rfl
  have hstep : ∀ before raw after, part = before ++ raw :: after →
      IsLine raw ∧ Quiet cfg raw := by
    rintro before raw after rfl
    exact hlines raw (by simp)
  refine ⟨?_, ?_, ?_, ?_⟩
  · refine flag_eq_lastPlace (f := fun part => (run cfg s part).st.instrOk)
      (v := fun _ raw => isTextSection raw) fun before raw after hsplit => ?_
    have hraw := hstep before raw after hsplit
    rw [run_concat]
    exact (step_mode hactive _ hraw.1.newline hraw.2).1
  · refine (flag_eq_lastPlace (f := fun part => (run cfg s part).st.skipCsect)
      (v := fun _ raw => !contains (chars ".code64") raw) fun before raw after hsplit => ?_).trans
      (by rw [skipsCode, ← hany, ← hcsect]; rfl)
    have hraw := hstep before raw after hsplit
    rw [run_concat]
    exact (step_mode hactive _ hraw.1.newline hraw.2).2.1
  · refine (flag_eq_lastPlace (f := fun part => (run cfg s part).st.skipIntel)
      (v := fun _ raw => !contains attSyntax raw) fun before raw after hsplit => ?_).trans
      (by rw [skipsIntel, ← hany, ← hintel]; rfl)
    have hraw := hstep before raw after hsplit
    rw [run_concat]
    exact (step_mode hactive _ hraw.1.newline hraw.2).2.2.1
  · refine (flag_eq_lastPlace (f := fun part => (run cfg s part).st.skipApp)
      (v := fun _ raw => !contains (chars "#NO_APP") raw) fun before raw after hsplit => ?_).trans
      (by rw [skipsApp, ← hany, ← happ]; rfl)
    have hraw := hstep before raw after hsplit
    rw [run_concat]
    exact (step_mode hactive _ hraw.1.newline hraw.2).2.2.2

/-- A label is neither dotted nor a directive about sections. -/
theorem isSection_of_isFunctionLabel {raw : Line} (h : isFunctionLabel raw = true) :
    isSection raw = false := by
  simp only [isFunctionLabel, Bool.and_eq_true, bne_iff_ne] at h
  simp [isSection, isDotted, h.1.1.1.2]

theorem skipsCode_concat (part : List Line) (raw : Line) :
    skipsCode (part ++ [raw]) =
      if tracksCode raw then !contains (chars ".code64") raw else skipsCode part := by
  rw [skipsCode, lastPlace_concat]
  split <;> rfl

theorem skipsIntel_concat (part : List Line) (raw : Line) :
    skipsIntel (part ++ [raw]) =
      if tracksIntel raw then !contains attSyntax raw else skipsIntel part := by
  rw [skipsIntel, lastPlace_concat]
  split <;> rfl

theorem skipsApp_concat (part : List Line) (raw : Line) :
    skipsApp (part ++ [raw]) =
      if tracksApp raw then !contains (chars "#NO_APP") raw else skipsApp part := by
  rw [skipsApp, lastPlace_concat]
  split <;> rfl

/-- **Labels.** The loop notices a label where the lines say so, if its variables are what the
lines before make of them. -/
theorem noticesLabel_eq {cfg : Config} (hactive : cfg.active = true) {s : State} {ok : Bool}
    {part : List Line} {raw : Line} (h : '\n' ∉ raw.dropLast) (hok : s.instrOk = inText ok part)
    (hcsect : s.skipCsect = skipsCode part) (hintel : s.skipIntel = skipsIntel part)
    (happ : s.skipApp = skipsApp part) :
    noticesLabel cfg s (rewriteWriteMask raw) = noticed ok part raw := by
  have hform := isFunctionLabel_rewriteWriteMask h
  by_cases hlabel : isFunctionLabel raw = true
  · have hsection := isSection_of_isFunctionLabel hlabel
    obtain ⟨hok', hcsect', hintel', happ'⟩ := trackSyntax_mode hactive s h hsection
    have hfirst := hform.trans hlabel
    simp only [isFunctionLabel, Bool.and_eq_true, bne_iff_ne] at hfirst
    have hskipped : isSkipped (trackSyntax cfg s (rewriteWriteMask raw)) (rewriteWriteMask raw) =
        (skipsIntel (part ++ [raw]) || skipsApp (part ++ [raw]) || skipsCode (part ++ [raw]) ||
          !inText ok part) := by
      rw [isSkipped, hok', hcsect', hintel', happ', hok, hcsect, hintel, happ, skipsCode_concat,
        skipsIntel_concat, skipsApp_concat]
      rw [beq_false_of_ne hfirst.1.2, beq_false_of_ne hfirst.1.1.2, Bool.or_false, Bool.or_false]
    rw [noticesLabel, isSection_rewriteWriteMask h, hsection, hform, hlabel, hskipped, noticed,
      hlabel]
    cases inText ok part <;> cases skipsIntel (part ++ [raw]) <;>
      cases skipsApp (part ++ [raw]) <;> cases skipsCode (part ++ [raw]) <;> rfl
  · rw [Bool.not_eq_true] at hlabel
    rw [noticesLabel, hform, hlabel, Bool.and_false, noticed, hlabel]
    rfl

/-- The tables have no mask in them. -/
theorem isTargetFunc_rewriteWriteMask {raw : Line} (h : '\n' ∉ raw.dropLast) {funcs : List Line}
    (hfuncs : ∀ entry ∈ funcs, '\x7d' ∉ entry) :
    isTargetFunc (rewriteWriteMask raw) funcs = isTargetFunc raw funcs := by
  rw [isTargetFunc, isTargetFunc, Bool.eq_iff_iff, List.any_eq_true, List.any_eq_true]
  refine exists_congr fun entry => and_congr_right fun hmem => ?_
  rw [startsWith_rewriteWriteMask h (hfuncs entry hmem)]

theorem isExempt_rewriteWriteMask {raw : Line} (h : '\n' ∉ raw.dropLast) :
    isExempt (rewriteWriteMask raw) = isExempt raw := by
  rw [isExempt, isExempt, isCustomizedLibcFunc, isCustomizedLibcFunc, isNoInstrFunc,
    isNoInstrFunc, isOnStackHandler, isOnStackHandler,
    isTargetFunc_rewriteWriteMask h (by with_unfolding_all decide),
    isTargetFunc_rewriteWriteMask h (by with_unfolding_all decide),
    isTargetFunc_rewriteWriteMask h (by with_unfolding_all decide)]

/-- **The tables.** What the loop leaves in the variables about the current function. -/
theorem run_tableAt {cfg : Config} (hactive : cfg.active = true) {s : State} {part : List Line}
    (hlines : ∀ raw ∈ part, IsLine raw ∧ Quiet cfg raw) (hcsect : s.skipCsect = false)
    (hintel : s.skipIntel = false) (happ : s.skipApp = false) (hs : s.start2end = false) :
    exempt (run cfg s part).st = tableAt isExempt (exempt s) s.instrOk part ∧
      (run cfg s part).st.inNoInstrFunc =
        tableAt isNoInstrFunc s.inNoInstrFunc s.instrOk part := by
  have hpass : cfg.passThru = false := by simpa using ((Bool.and_eq_true _ _).mp hactive).1
  -- The label and the place of one line, as the lines before it say.
  have hplace : ∀ before raw after, part = before ++ raw :: after → '\n' ∉ raw.dropLast ∧
      noticesLabel cfg (run cfg s before).st (rewriteWriteMask raw) =
        noticed s.instrOk before raw ∧
      (run cfg s before).st.start2end = inRegion before := by
    rintro before raw after rfl
    have hbefore : ∀ line ∈ before, IsLine line ∧ Quiet cfg line :=
      fun line hmem => hlines line (by simp [hmem])
    have hraw := (hlines raw (by simp)).1.newline
    obtain ⟨hok', hcsect', hintel', happ'⟩ := run_mode hactive hbefore hcsect hintel happ
    exact ⟨hraw, noticesLabel_eq hactive hraw hok' hcsect' hintel' happ',
      run_start2end cfg (fun line hmem => (hbefore line hmem).1) hs⟩
  constructor
  · refine flag_eq_lastPlace (f := fun part => exempt (run cfg s part).st)
      (v := fun before raw => isExempt raw && !inRegion before) fun before raw after hsplit => ?_
    obtain ⟨hraw, hnotices, hinside⟩ := hplace before raw after hsplit
    rw [run_concat, step, stepLine_exempt hpass, hnotices, hinside, isExempt_rewriteWriteMask hraw]
  · refine flag_eq_lastPlace (f := fun part => (run cfg s part).st.inNoInstrFunc)
      (v := fun before raw => isNoInstrFunc raw && !inRegion before)
      fun before raw after hsplit => ?_
    obtain ⟨hraw, hnotices, hinside⟩ := hplace before raw after hsplit
    rw [run_concat, step, stepLine_noInstr hpass, hnotices, hinside, isNoInstrFunc,
      isTargetFunc_rewriteWriteMask hraw (by with_unfolding_all decide), isNoInstrFunc]

end FlashStack.As
