/-
The variables that decide about later lines.

The loop keeps its knowledge of the file in flags: whether it is in a text section, in Intel
syntax, in an assembly block, between the two markers, and whether the last label it noticed
is in one of the three tables. This module says how one line changes them, so that a proof
about a run need not unfold an iteration again.

* `inspect_cases`: the bookkeeping does one of three things, it tracks the section, notices
  a label or tracks the syntax, and the conditions for each are properties of the line and
  of few flags;
* `stepLine_start2end`, `stepLine_exempt`, `stepLine_noInstr`: the flag of the markers, the
  three flags of the tables together, and the one of the functions not to be instrumented,
  behind one line.

Left out are the variables that decide about comments only, `instrument_next` and the number
of random values drawn: they change from line to line, and nothing here depends on them.
They are the subject of the module on the random draws. The counters of the markers are used
by the final error check and by the trailer alone.
-/

import FlashStack.As.Iteration

namespace FlashStack.As

open Lib.CString

/-! ### The bookkeeping -/

/-- A directive after which the section is known: one of text, or one of the others that the
source looks for. Any other directive leaves the flag as it was. -/
def isSection (line : Line) : Bool := isDotted line && (isTextSection line || isOtherSection line)

/-- The label of a function, by its form: it begins with none of a tab, a blank, `#` and a dot,
and has a colon in it. -/
def isFunctionLabel (line : Line) : Bool :=
  contains (chars ":") line && charAt line 0 != '\t' && charAt line 0 != ' ' &&
    charAt line 0 != '#' && charAt line 0 != '.'

/-- The line is taken for the label of a function: it has the form, and is not skipped by the
flags, which the line itself may have changed. -/
def noticesLabel (cfg : Config) (s : State) (line : Line) : Bool :=
  !isSection line && !isSkipped (trackSyntax cfg s line) line && isFunctionLabel line

/-- One of the tables exempts the function with this label. The names in the tables end with the
colon, so they match whole labels. -/
def isExempt (line : Line) : Bool :=
  isCustomizedLibcFunc line || isNoInstrFunc line || isOnStackHandler line

/-- The function is taken for an exempt one, by the label that was noticed last. Whether one of
the three flags is set is all that decides about the prologue. -/
def exempt (s : State) : Bool := s.inCustomizedFunc || s.inNoInstrFunc || s.onStackHandler

theorem trackSyntax_eq (cfg : Config) (s : State) (line : Line) :
    trackSyntax cfg s line = { s with
      skipCsect :=
        if contains (chars ".code") line && contains (chars ".code64") line then !cfg.use64bit
        else if contains (chars ".code") line && contains (chars ".code32") line then cfg.use64bit
        else s.skipCsect
      skipIntel := !contains (chars ".att_syntax") line &&
        (contains (chars ".intel_syntax") line || s.skipIntel)
      skipApp :=
        let asm := charAt line 0 == '#' || charAt line 1 == '#'
        !(asm && contains (chars "#NO_APP") line) &&
          (asm && contains (chars "#APP") line || s.skipApp) } := by
  unfold trackSyntax
  extract_lets s1 s2 s3 s4 asm s5
  have h2 : s2 = { s with
      skipCsect :=
        if contains (chars ".code") line && contains (chars ".code64") line then !cfg.use64bit
        else if contains (chars ".code") line && contains (chars ".code32") line then cfg.use64bit
        else s.skipCsect } := by
    simp only [s2, s1]
    split <;> split <;> rfl
  have h4 : s4 = { s2 with
      skipIntel := !contains (chars ".att_syntax") line &&
        (contains (chars ".intel_syntax") line || s2.skipIntel) } := by
    simp only [s4, s3]
    cases contains (chars ".att_syntax") line <;>
      cases contains (chars ".intel_syntax") line <;> rfl
  have h6 : (if asm && contains (chars "#NO_APP") line then { s5 with skipApp := false } else s5) =
      { s4 with
        skipApp := !(asm && contains (chars "#NO_APP") line) &&
          (asm && contains (chars "#APP") line || s4.skipApp) } := by
    simp only [s5]
    cases asm && contains (chars "#NO_APP") line <;>
      cases asm && contains (chars "#APP") line <;> rfl
  rw [h6, h4, h2]

/-- **What the bookkeeping may do**: track the section, notice a label, or track the syntax. -/
theorem inspect_cases (cfg : Config) (s : State) (line : Line) :
    (isSection line = true ∧ (inspect cfg s line).report = [] ∧
      (inspect cfg s line).st = { s with instrOk := isTextSection line }) ∨
    (isSection line = false ∧ noticesLabel cfg s line = true ∧
      inspect cfg s line = functionLabel (trackSyntax cfg s line) line) ∨
    (isSection line = false ∧ noticesLabel cfg s line = false ∧ (inspect cfg s line).report = [] ∧
      ∃ skip next count drawn, (inspect cfg s line).st = { trackSyntax cfg s line with
        skipNextLabel := skip, instrumentNext := next, insLines := count, drawn := drawn }) := by
  unfold inspect
  by_cases htext : (isDotted line && isTextSection line) = true
  · rw [if_pos htext]
    obtain ⟨hdot, htext⟩ := (Bool.and_eq_true _ _).mp htext
    exact Or.inl ⟨by simp [isSection, hdot, htext], rfl, by rw [htext]⟩
  · rw [if_neg htext]
    by_cases hother : (isDotted line && isOtherSection line) = true
    · rw [if_pos hother]
      obtain ⟨hdot, hother⟩ := (Bool.and_eq_true _ _).mp hother
      have hnot : isTextSection line = false := by simpa [hdot] using htext
      exact Or.inl ⟨by simp [isSection, hdot, hother], rfl, by rw [hnot]⟩
    · rw [if_neg hother]
      have hsection : isSection line = false := by
        rw [isSection, Bool.and_or_distrib_left, Bool.or_eq_false_iff]
        exact ⟨Bool.eq_false_iff.mpr htext, Bool.eq_false_iff.mpr hother⟩
      generalize htrack : trackSyntax cfg s line = tracked
      by_cases hskip : isSkipped tracked line = true
      · rw [if_pos hskip]
        exact Or.inr (Or.inr ⟨hsection, by simp [noticesLabel, htrack, hskip], rfl,
          tracked.skipNextLabel, tracked.instrumentNext, tracked.insLines, tracked.drawn, rfl⟩)
      · rw [if_neg hskip]
        by_cases htab : (charAt line 0 == '\t') = true
        · rw [if_pos htab]
          refine Or.inr (Or.inr ⟨hsection, ?_, ?_, ?_⟩)
          · simp [noticesLabel, isFunctionLabel, eq_of_beq htab]
          · unfold conditionalBranch
            split
            · split <;> rfl
            · rfl
          · unfold conditionalBranch
            split
            · split
              · exact ⟨_, _, _, _, rfl⟩
              · exact ⟨_, _, _, _, rfl⟩
            · exact ⟨_, _, _, _, rfl⟩
        · rw [if_neg htab, label]
          have hform : noticesLabel cfg s line =
              (contains (chars ":") line && charAt line 0 != '.') := by
            rw [Bool.not_eq_true] at hskip
            have hfirst := hskip
            simp only [isSkipped, Bool.or_eq_false_iff] at hfirst
            have htab' := Bool.not_eq_true _ ▸ htab
            simp [noticesLabel, isFunctionLabel, hsection, htrack, hskip, bne, hfirst.1.2, hfirst.2,
              htab']
          rw [hform]
          by_cases hcolon : contains (chars ":") line = true
          · rw [if_pos hcolon]
            by_cases hlocal : (charAt line 0 == '.') = true
            · rw [if_pos hlocal]
              refine Or.inr (Or.inr ⟨hsection, by simp [eq_of_beq hlocal], rfl, ?_⟩)
              unfold localLabel
              split
              · split
                · split
                  · exact ⟨_, _, _, _, rfl⟩
                  · exact ⟨_, _, _, _, rfl⟩
                · exact ⟨_, _, _, _, rfl⟩
              · exact ⟨_, _, _, _, rfl⟩
            · rw [if_neg hlocal]
              exact Or.inr (Or.inl ⟨hsection, by simpa [hcolon] using hlocal, rfl⟩)
          · rw [if_neg hcolon]
            exact Or.inr (Or.inr ⟨hsection, by simp [hcolon], rfl, _, _, _, _, rfl⟩)

/-! ### One iteration -/

theorem advance_eq (cfg : Config) (s : State) (line : Line) :
    ∃ next count starts ends, advance cfg s line = { s with
      instrumentNext := next
      insLines := count
      start2end := !isEndproc line && (isStartproc line || s.start2end)
      nStart := starts
      nEnd := ends } := by
  obtain ⟨next, count, hst⟩ := dumpTrampoline_st cfg s line
  rw [advance, hst]
  cases hstart : isStartproc line <;> cases hend : isEndproc line <;> exact ⟨_, _, _, _, rfl⟩

/-- A label is neither a directive nor an instruction. -/
theorem startsWith_of_isFunctionLabel {line pre : Line} (h : isFunctionLabel line = true)
    (hpre : charAt pre 0 = '\t') (hne : 0 < pre.length) : startsWith line pre = false := by
  simp only [isFunctionLabel, Bool.and_eq_true, bne_iff_ne] at h
  exact startsWith_eq_false 0 hne (hpre ▸ h.1.1.1.2)

theorem bookkept_of_isFunctionLabel {cfg : Config} {s : State} {line : Line}
    (h : isFunctionLabel line = true) : bookkept cfg s line = !cfg.passThru := by
  have hstart : isStartproc line = false :=
    startsWith_of_isFunctionLabel h (by with_unfolding_all decide) (by with_unfolding_all decide)
  have hend : isEndproc line = false :=
    startsWith_of_isFunctionLabel h (by with_unfolding_all decide) (by with_unfolding_all decide)
  have hcall : startsWith line spaCallqNoStar = false :=
    startsWith_of_isFunctionLabel h (by with_unfolding_all decide) (by with_unfolding_all decide)
  have hgcc : startsWith line spaGccRet = false :=
    startsWith_of_isFunctionLabel h (by with_unfolding_all decide) (by with_unfolding_all decide)
  have hclang : startsWith line spaClangRetq = false :=
    startsWith_of_isFunctionLabel h (by with_unfolding_all decide) (by with_unfolding_all decide)
  have hret : isRet line = false := by rw [isRet, hgcc, hclang]; rfl
  simp [bookkept, hstart, hend, rewriteCall_eq_none hcall, rewriteRet_eq_none hret]

theorem isFunctionLabel_of_noticesLabel {cfg : Config} {s : State} {line : Line}
    (h : noticesLabel cfg s line = true) : isFunctionLabel line = true :=
  ((Bool.and_eq_true _ _).mp h).2

/-- The mask rewriting neither makes nor unmakes a label. -/
theorem isFunctionLabel_rewriteWriteMask {raw : Line} (h : '\n' ∉ raw.dropLast) :
    isFunctionLabel (rewriteWriteMask raw) = isFunctionLabel raw := by
  rw [isFunctionLabel, isFunctionLabel, charAt_zero_rewriteWriteMask h,
    contains_rewriteWriteMask h (by with_unfolding_all decide) (by with_unfolding_all decide)
      (by with_unfolding_all decide)]

/-- The test for a label looks at the tracked section and syntax only. -/
theorem noticesLabel_congr {cfg : Config} {s s' : State} (line : Line)
    (hok : s'.instrOk = s.instrOk) (hcsect : s'.skipCsect = s.skipCsect)
    (hintel : s'.skipIntel = s.skipIntel) (happ : s'.skipApp = s.skipApp) :
    noticesLabel cfg s' line = noticesLabel cfg s line := by
  simp only [noticesLabel, isSkipped, trackSyntax_eq, hok, hcsect, hintel, happ]

/-- What the iteration does to a label that it notices: the flags of the tables are set anew, and
its name is reported outside of functions. -/
theorem stepLine_of_noticesLabel {cfg : Config} {s : State} {line : Line}
    (hpass : cfg.passThru = false) (h : noticesLabel cfg s line = true) :
    ∃ s' : State, s'.start2end = s.start2end ∧ isSkipped s' line = false ∧
      (stepLine cfg s line).st = (functionLabel s' line).st ∧
      (stepLine cfg s line).report = (functionLabel s' line).report := by
  have hlabel := isFunctionLabel_of_noticesLabel h
  have hbook : bookkept cfg s line = true := by
    rw [bookkept_of_isFunctionLabel hlabel, hpass]
    rfl
  have hstart : isStartproc line = false :=
    startsWith_of_isFunctionLabel hlabel (by with_unfolding_all decide)
      (by with_unfolding_all decide)
  have hend : isEndproc line = false :=
    startsWith_of_isFunctionLabel hlabel (by with_unfolding_all decide)
      (by with_unfolding_all decide)
  obtain ⟨next, count, starts, ends, hadvance⟩ := advance_eq cfg s line
  obtain ⟨skip, hinspect⟩ := bookkeep_eq cfg (advance cfg s line) line
  rw [stepLine_eq, if_pos hbook, hinspect, hadvance, hstart, hend]
  generalize hs' : ({ s with
    instrumentNext := next
    insLines := count
    start2end := !false && (false || s.start2end)
    nStart := starts
    nEnd := ends
    skipNextLabel := skip } : State) = s'
  have hnotices : noticesLabel cfg s' line = true := by
    rw [← h, ← hs']
    exact noticesLabel_congr line rfl rfl rfl rfl
  have hsame : s'.start2end = s.start2end := by rw [← hs']; rfl
  rcases inspect_cases cfg s' line with ⟨hsection, -, -⟩ | ⟨-, -, heq⟩ | ⟨-, hno, -⟩
  · rw [noticesLabel, hsection] at hnotices
    exact absurd hnotices Bool.false_ne_true
  · refine ⟨trackSyntax cfg s' line, by rw [trackSyntax_eq, ← hsame], ?_, by rw [heq], by rw [heq]⟩
    simp only [noticesLabel, Bool.and_eq_true, Bool.not_eq_true'] at hnotices
    exact hnotices.1.2
  · rw [hnotices] at hno
    exact absurd hno.symm Bool.false_ne_true

/-- What decides about a function stays as it is on any other line. -/
theorem stepLine_of_not_noticesLabel {cfg : Config} {s : State} {line : Line}
    (h : cfg.passThru = true ∨ noticesLabel cfg s line = false) :
    (stepLine cfg s line).st.inCustomizedFunc = s.inCustomizedFunc ∧
      (stepLine cfg s line).st.inNoInstrFunc = s.inNoInstrFunc ∧
      (stepLine cfg s line).st.onStackHandler = s.onStackHandler ∧
      (stepLine cfg s line).report = [] := by
  obtain ⟨next, count, starts, ends, hadvance⟩ := advance_eq cfg s line
  rw [stepLine_eq]
  by_cases hbook : bookkept cfg s line = true
  · have hno : noticesLabel cfg s line = false := by
      refine h.resolve_left fun hpass => ?_
      simp [bookkept, hpass] at hbook
    obtain ⟨skip, hinspect⟩ := bookkeep_eq cfg (advance cfg s line) line
    rw [if_pos hbook, hinspect, hadvance]
    generalize hs' : ({ s with
      instrumentNext := next
      insLines := count
      start2end := !isEndproc line && (isStartproc line || s.start2end)
      nStart := starts
      nEnd := ends
      skipNextLabel := skip } : State) = s'
    have hnot : noticesLabel cfg s' line = false := by
      rw [← hno, ← hs']
      exact noticesLabel_congr line rfl rfl rfl rfl
    have hsame : s'.inCustomizedFunc = s.inCustomizedFunc ∧ s'.inNoInstrFunc = s.inNoInstrFunc ∧
        s'.onStackHandler = s.onStackHandler := by rw [← hs']; exact ⟨rfl, rfl, rfl⟩
    rcases inspect_cases cfg s' line with ⟨-, hreport, heq⟩ | ⟨-, hyes, -⟩ |
      ⟨-, -, hreport, _, _, _, _, heq⟩
    · rw [heq, hreport]
      exact ⟨hsame.1, hsame.2.1, hsame.2.2, rfl⟩
    · rw [hnot] at hyes
      exact absurd hyes Bool.false_ne_true
    · rw [heq, hreport, trackSyntax_eq]
      exact ⟨hsame.1, hsame.2.1, hsame.2.2, rfl⟩
  · rw [if_neg hbook, hadvance]
    exact ⟨rfl, rfl, rfl, rfl⟩

theorem stepLine_start2end (cfg : Config) (s : State) (line : Line) :
    (stepLine cfg s line).st.start2end =
      (!isEndproc line && (isStartproc line || s.start2end)) := by
  obtain ⟨next, count, starts, ends, hadvance⟩ := advance_eq cfg s line
  rw [stepLine_eq]
  by_cases hbook : bookkept cfg s line = true
  · obtain ⟨skip, hinspect⟩ := bookkeep_eq cfg (advance cfg s line) line
    rw [if_pos hbook, hinspect, hadvance]
    generalize hs' : ({ s with
      instrumentNext := next
      insLines := count
      start2end := !isEndproc line && (isStartproc line || s.start2end)
      nStart := starts
      nEnd := ends
      skipNextLabel := skip } : State) = s'
    have hsame : s'.start2end = (!isEndproc line && (isStartproc line || s.start2end)) := by
      rw [← hs']
    rcases inspect_cases cfg s' line with ⟨-, -, heq⟩ | ⟨-, -, heq⟩ | ⟨-, -, -, _, _, _, _, heq⟩
    · rw [heq, ← hsame]
    · rw [heq, functionLabel, trackSyntax_eq, ← hsame]
    · rw [heq, trackSyntax_eq, ← hsame]
  · rw [if_neg hbook, hadvance]

/-- **The exemption** is decided at the last label noticed. Inside a function the tables count for
nothing. -/
theorem stepLine_exempt {cfg : Config} (hpass : cfg.passThru = false) (s : State) (line : Line) :
    exempt (stepLine cfg s line).st =
      if noticesLabel cfg s line then isExempt line && !s.start2end else exempt s := by
  by_cases h : noticesLabel cfg s line = true
  · obtain ⟨s', hinside, -, hst, -⟩ := stepLine_of_noticesLabel hpass h
    rw [if_pos h, hst, ← hinside]
    simp only [exempt, functionLabel, isExempt, Bool.and_or_distrib_right]
  · obtain ⟨hcustomized, hnoInstr, hhandler, -⟩ :=
      stepLine_of_not_noticesLabel (Or.inr (Bool.eq_false_iff.mpr h))
    rw [if_neg h, exempt, hcustomized, hnoInstr, hhandler, exempt]

theorem stepLine_noInstr {cfg : Config} (hpass : cfg.passThru = false) (s : State) (line : Line) :
    (stepLine cfg s line).st.inNoInstrFunc =
      if noticesLabel cfg s line then isNoInstrFunc line && !s.start2end else s.inNoInstrFunc := by
  by_cases h : noticesLabel cfg s line = true
  · obtain ⟨s', hinside, -, hst, -⟩ := stepLine_of_noticesLabel hpass h
    rw [if_pos h, hst, ← hinside, functionLabel]
  · obtain ⟨-, hnoInstr, -, -⟩ :=
      stepLine_of_not_noticesLabel (Or.inr (Bool.eq_false_iff.mpr h))
    rw [if_neg h, hnoInstr]

end FlashStack.As
