/-
What the random draws and `inst_ratio` may change in the output: comment lines only.

The code that `add_instrumentation` inherits chooses conditional branches and labels by
chance; here only comments with running numbers are left of it. Two runs with different
draws are compared line by line.

* `Sampled`: two states that differ in the sampling variables only, which are the two flags
  of the pending trampoline, the number of draws and the counter of inserted lines;
* `stepLine_sampled`, `run_sampled`: two runs stay so, and write the same apart from
  comments, by induction on the lines;
* `emitted_code_sampled`: the same of the function, in the texts that it writes and, for an
  input of complete lines, in the lines of the output file;
* `incomplete_lines_sampled`: a comment behind an incomplete line is not a line of its own,
  and then the draws do change the code.

The function names reported on `stderr` do not depend on the draws either, and the results
include them. The warnings and counts that it prints at the end do: they count the inserted
lines.
-/

import FlashStack.As.Tracking
import FlashStack.As.Conservation

namespace FlashStack.As

open Lib.CString

/-- The same settings with other draws and another `inst_ratio`, the two that only sampling looks
at. -/
def Config.sampling (cfg : Config) (random : Nat → Nat) (ratio : Nat) : Config :=
  { cfg with random := random, instRatio := ratio }

/-- The variables differ in those of the branch sampling only. -/
def Sampled (s s' : State) : Prop :=
  ∃ skip next count drawn, s' = { s with
    skipNextLabel := skip, instrumentNext := next, insLines := count, drawn := drawn }

/-- The output without its comments: what the assembler gets to see. -/
def codeLines (out : List Line) : List Line := out.filter (!isComment ·)

section Sampling

variable {cfg : Config} {random : Nat → Nat} {ratio : Nat} {s s' : State}

theorem Sampled.refl (s : State) : Sampled s s :=
  ⟨s.skipNextLabel, s.instrumentNext, s.insLines, s.drawn, rfl⟩

/-! ### One iteration -/

/-- What stands for a line does not look at the sampling. -/
theorem Sampled.written (h : Sampled s s') (line : Line) :
    written (cfg.sampling random ratio) s' line = written cfg s line := by
  obtain ⟨skip, next, count, drawn, rfl⟩ := h
  rfl

theorem Sampled.bookkept (line : Line) (h : Sampled s s') :
    bookkept (cfg.sampling random ratio) s' line = bookkept cfg s line := by
  obtain ⟨skip, next, count, drawn, rfl⟩ := h
  rfl

theorem Sampled.noticesLabel (line : Line) (h : Sampled s s') :
    noticesLabel (cfg.sampling random ratio) s' line = noticesLabel cfg s line := by
  obtain ⟨skip, next, count, drawn, rfl⟩ := h
  exact noticesLabel_congr line rfl rfl rfl rfl

theorem Sampled.trackSyntax (line : Line) (h : Sampled s s') :
    Sampled (trackSyntax cfg s line) (trackSyntax (cfg.sampling random ratio) s' line) := by
  obtain ⟨skip, next, count, drawn, rfl⟩ := h
  rw [trackSyntax_eq, trackSyntax_eq]
  exact ⟨_, _, _, _, rfl⟩

theorem Sampled.advance (line : Line) (h : Sampled s s') :
    Sampled (advance cfg s line) (advance (cfg.sampling random ratio) s' line) := by
  obtain ⟨skip, next, count, drawn, rfl⟩ := h
  obtain ⟨next₁, count₁, hst⟩ := dumpTrampoline_st cfg s line
  obtain ⟨next₂, count₂, hst'⟩ := dumpTrampoline_st (cfg.sampling random ratio)
    { s with skipNextLabel := skip, instrumentNext := next, insLines := count, drawn := drawn } line
  rw [As.advance, As.advance, hst, hst']
  cases isStartproc line <;> cases isEndproc line <;> exact ⟨_, _, _, _, rfl⟩

/-- The two runs track the same section, or notice the same label, or track the syntax. -/
theorem Sampled.inspect (line : Line) (h : Sampled s s') :
    Sampled (inspect cfg s line).st (inspect (cfg.sampling random ratio) s' line).st ∧
      (inspect (cfg.sampling random ratio) s' line).report = (inspect cfg s line).report := by
  have hlabel := @Sampled.noticesLabel cfg random ratio s s' line h
  have htrack := @Sampled.trackSyntax cfg random ratio s s' line h
  rcases inspect_cases cfg s line with ⟨hsec, hreport, hst⟩ | ⟨hsec, hyes, heq⟩ |
    ⟨hsec, hno, hreport, _, _, _, _, hst⟩
  · rcases inspect_cases (cfg.sampling random ratio) s' line with ⟨-, hreport', hst'⟩ |
      ⟨hsec', -⟩ | ⟨hsec', -⟩
    · obtain ⟨skip, next, count, drawn, rfl⟩ := h
      rw [hst, hst', hreport, hreport']
      exact ⟨⟨_, _, _, _, rfl⟩, rfl⟩
    · exact absurd (hsec.symm.trans hsec') (by decide)
    · exact absurd (hsec.symm.trans hsec') (by decide)
  · rcases inspect_cases (cfg.sampling random ratio) s' line with ⟨hsec', -⟩ |
      ⟨-, -, heq'⟩ | ⟨-, hno', -⟩
    · exact absurd (hsec.symm.trans hsec') (by decide)
    · obtain ⟨skip, next, count, drawn, htracked⟩ := htrack
      rw [heq, heq', htracked]
      exact ⟨⟨_, _, _, _, rfl⟩, rfl⟩
    · rw [hlabel, hyes] at hno'
      exact absurd hno' (by decide)
  · rcases inspect_cases (cfg.sampling random ratio) s' line with ⟨hsec', -⟩ |
      ⟨-, hyes', -⟩ | ⟨-, -, hreport', _, _, _, _, hst'⟩
    · exact absurd (hsec.symm.trans hsec') (by decide)
    · rw [hlabel, hno] at hyes'
      exact absurd hyes' (by decide)
    · obtain ⟨skip, next, count, drawn, htracked⟩ := htrack
      rw [hst, hst', hreport, hreport', htracked]
      exact ⟨⟨_, _, _, _, rfl⟩, rfl⟩

theorem Sampled.bookkeep (line : Line) (h : Sampled s s') :
    Sampled (bookkeep cfg s line).st (bookkeep (cfg.sampling random ratio) s' line).st ∧
      (bookkeep (cfg.sampling random ratio) s' line).report = (bookkeep cfg s line).report := by
  obtain ⟨skip₁, heq⟩ := bookkeep_eq cfg s line
  obtain ⟨skip₂, heq'⟩ := bookkeep_eq (cfg.sampling random ratio) s' line
  rw [heq, heq']
  obtain ⟨skip, next, count, drawn, rfl⟩ := h
  exact Sampled.inspect line ⟨skip₂, next, count, drawn, rfl⟩

/-- An iteration writes what stands for its line, and comments, which do not count here. -/
theorem codeLines_stepLine (cfg : Config) (s : State) (line : Line) :
    codeLines (stepLine cfg s line).out = codeLines (written cfg s line) := by
  obtain ⟨front, back, hout, hcomments⟩ := stepLine_out cfg s line
  have hnone : ∀ texts : List Line, (∀ text ∈ texts, text ∈ front ++ back) →
      codeLines texts = [] := by
    intro texts hsub
    refine List.filter_eq_nil_iff.mpr fun text hmem => ?_
    simp [hcomments text (hsub text hmem)]
  rw [hout, codeLines, List.filter_append, List.filter_append]
  rw [← codeLines, ← codeLines, ← codeLines, hnone front fun _ => List.mem_append_left _,
    hnone back fun _ => List.mem_append_right _, List.nil_append, List.append_nil]

/-- **One iteration** of the two runs. The tests that decide what stands for the line do not look
at the sampling variables. -/
theorem stepLine_sampled (line : Line) (h : Sampled s s') :
    Sampled (stepLine cfg s line).st (stepLine (cfg.sampling random ratio) s' line).st ∧
      codeLines (stepLine (cfg.sampling random ratio) s' line).out =
        codeLines (stepLine cfg s line).out ∧
      (stepLine (cfg.sampling random ratio) s' line).report = (stepLine cfg s line).report := by
  have hadvance := @Sampled.advance cfg random ratio s s' line h
  obtain ⟨hbook, hreport⟩ := @Sampled.bookkeep cfg random ratio _ _ line hadvance
  refine ⟨?_, ?_, ?_⟩
  · rw [stepLine_eq, stepLine_eq, h.bookkept line]
    split
    · exact hbook
    · exact hadvance
  · rw [codeLines_stepLine, codeLines_stepLine, h.written line]
  · rw [stepLine_eq, stepLine_eq, h.bookkept line]
    split
    · exact hreport
    · rfl

/-! ### All lines -/

/-- **The two runs**, by induction on the lines: their states stay `Sampled`, and they write the
same besides comments. -/
theorem run_sampled (lines : List Line) (h : Sampled s s') :
    Sampled (run cfg s lines).st (run (cfg.sampling random ratio) s' lines).st ∧
      codeLines (run (cfg.sampling random ratio) s' lines).out =
        codeLines (run cfg s lines).out ∧
      (run (cfg.sampling random ratio) s' lines).report = (run cfg s lines).report := by
  induction lines generalizing s s' with
  | nil => exact ⟨h, rfl, rfl⟩
  | cons raw lines ih =>
      obtain ⟨hst, hout, hreport⟩ :=
        @stepLine_sampled cfg random ratio s s' (rewriteWriteMask raw) h
      obtain ⟨hst', hout', hreport'⟩ := ih hst
      refine ⟨hst', ?_, ?_⟩
      · simp only [run, step, codeLines, List.filter_append] at hout hout' ⊢
        rw [hout, hout']
      · simp only [run, step]
        rw [hreport, hreport']

theorem codeLines_trailer (cfg : Config) (s : State) : codeLines (trailer cfg s) = [] :=
  List.filter_eq_nil_iff.mpr fun text hmem => by simp [isComment_trailer hmem]

/-- **What the function writes** besides comments, and what it reports. The trailer is made of
comments. -/
theorem addInstrumentation_sampled (cfg : Config) (random : Nat → Nat) (ratio : Nat)
    (lines : List Line) :
    codeLines (addInstrumentation (cfg.sampling random ratio) lines).out =
        codeLines (addInstrumentation cfg lines).out ∧
      (addInstrumentation (cfg.sampling random ratio) lines).report =
        (addInstrumentation cfg lines).report := by
  obtain ⟨-, hout, hreport⟩ :=
    @run_sampled cfg random ratio _ _ lines (Sampled.refl {})
  refine ⟨?_, hreport⟩
  have htrailer : ∀ out (cfg : Config) s, codeLines (out ++ trailer cfg s) = codeLines out := by
    intro out cfg s
    rw [codeLines, List.filter_append, ← codeLines, ← codeLines, codeLines_trailer,
      List.append_nil]
  exact (htrailer _ _ _).trans (hout.trans (htrailer _ _ _).symm)

end Sampling

/-! ### The lines of the output -/

theorem isComment_concat (body : Line) : isComment (body ++ ['\n']) = isComment body := by
  have hnewline : '\n' ∉ chars "###SPA" := by with_unfolding_all decide
  refine Bool.eq_iff_iff.mpr ?_
  rw [isComment, isComment, startsWith_iff, startsWith_iff]
  exact ⟨prefix_append_cons hnewline, fun h => h.trans (List.prefix_append _ _)⟩

theorem isWhole_of_mem {texts : List Line} (h : texts.all isWhole = true) {text : Line}
    (hmem : text ∈ texts) : isWhole text = true := List.all_eq_true.mp h text hmem

theorem isWhole_normalised {raw : Line} (h : isWhole raw = true) :
    isWhole (normalised raw) = true := by
  obtain ⟨body, hraw, hbody⟩ := isWhole_iff.mp h
  unfold normalised
  split
  · have hmask : isWhole spaWriteMaskGcc = true := by with_unfolding_all decide
    refine isWhole_append (fun hmem => ?_) hmask
    rename_i hsuffix
    have hlength := (List.isSuffixOf_iff_suffix.mp hsuffix).length_le
    have hpos : 0 < spaWriteMaskClang.length := by with_unfolding_all decide
    have htake : raw.take (raw.length - spaWriteMaskClang.length) <+: body := by
      rw [hraw, List.take_append_of_le_length (by simp; omega)]
      exact List.take_prefix _ _
    exact hbody (htake.subset hmem)
  · exact h

theorem newline_notMem_stripComment {line : Line} (h : isWhole line = true) :
    '\n' ∉ stripComment line := by
  obtain ⟨body, rfl, hbody⟩ := isWhole_iff.mp h
  have hprefix : stripComment (body ++ ['\n']) <+: body := by
    rw [stripComment, List.dropLast_concat]
    exact (prefix_before _ _).trans ((prefix_before _ _).trans
      ((prefix_before _ _).trans (prefix_before _ _)))
  exact fun hmem => hbody (List.IsPrefix.subset hprefix hmem)

theorem isWhole_callBlock {line text : Line} {block : List Line} (h : isWhole line = true)
    (hblock : IsCallBlock line block) (hmem : text ∈ block) : isWhole text = true := by
  have hstrip := newline_notMem_stripComment h
  cases hblock with
  | direct =>
      simp only [directCallBlock, List.mem_cons, List.not_mem_nil, or_false] at hmem
      rcases hmem with rfl | rfl | rfl | rfl | rfl
      · with_unfolding_all decide
      · with_unfolding_all decide
      · with_unfolding_all decide
      · exact isWhole_append hstrip (by with_unfolding_all decide)
      · with_unfolding_all decide
  | indirect =>
      unfold indirectCallBlock at hmem
      rcases List.mem_cons.mp hmem with rfl | hmem
      · refine isWhole_append (fun hmem => ?_) (by with_unfolding_all decide)
        rcases List.mem_append.mp hmem with hmem | hmem
        · exact absurd hmem (by with_unfolding_all decide)
        · exact hstrip (List.mem_of_mem_drop hmem)
      · exact isWhole_of_mem (by with_unfolding_all decide) hmem

theorem isWhole_entryBlock {text : Line} {block : List Line} (hblock : IsEntryBlock block)
    (hmem : text ∈ block) : isWhole text = true := by
  cases hblock with
  | standard => exact isWhole_of_mem (by with_unfolding_all decide) hmem
  | handler => exact isWhole_of_mem (by with_unfolding_all decide) hmem
  | customized => exact isWhole_of_mem (by with_unfolding_all decide) hmem

/-- What stands for a whole line is made of whole lines. -/
theorem isWhole_of_stands {cfg : Config} {raw text : Line} {texts : List Line}
    (h : isWhole raw = true) (hstands : Stands cfg raw texts) (hmem : text ∈ texts) :
    isWhole text = true := by
  cases hstands with
  | copied => exact List.mem_singleton.mp hmem ▸ isWhole_normalised h
  | entered hpass h64 hraw hblock =>
      rcases List.mem_cons.mp hmem with rfl | hmem
      · exact h
      · exact isWhole_entryBlock hblock hmem
  | returned hpass h64 hraw => exact isWhole_of_mem (by with_unfolding_all decide) hmem
  | called hcalls hpass h64 hraw hblock =>
      exact isWhole_callBlock (isWhole_normalised h) hblock hmem

theorem isWhole_of_mem_run {cfg : Config} {s : State} {lines : List Line}
    (h : ∀ raw ∈ lines, isWhole raw = true) {text : Line} (hmem : text ∈ (run cfg s lines).out) :
    isWhole text = true := by
  have hinsertedWhole : insertedComments.all isWhole = true := by with_unfolding_all decide
  induction lines generalizing s with
  | nil => exact absurd hmem List.not_mem_nil
  | cons raw lines ih =>
      rcases List.mem_append.mp hmem with hmem | hmem
      · have hraw := h raw List.mem_cons_self
        obtain ⟨body, heq, hbody⟩ := isWhole_iff.mp hraw
        have hnewline : '\n' ∉ raw.dropLast := by rwa [heq, List.dropLast_concat]
        obtain ⟨front, back, hout, hinserted⟩ := stepLine_inserted cfg s (rewriteWriteMask raw)
        rw [step, hout] at hmem
        have hcomment : text ∈ front ++ back → isWhole text = true := fun hmem =>
          isWhole_of_mem hinsertedWhole (hinserted text hmem)
        rcases List.mem_append.mp hmem with hmem | hmem
        · rcases List.mem_append.mp hmem with hmem | hmem
          · exact hcomment (List.mem_append_left _ hmem)
          · exact isWhole_of_stands hraw (stands_written cfg s hnewline) hmem
        · exact hcomment (List.mem_append_right _ hmem)
      · exact ih (fun other hother => h other (List.mem_cons_of_mem _ hother)) hmem

/-- The last line of the trailer, with the counts of the run. It is a comment. -/
def countLine (cfg : Config) (s : State) : Line :=
  chars "###SPA### " ++ cfg.inputFile ++ chars ":  cfi_startproc = " ++
    chars (toString s.nStart) ++ chars ", cfi_endproc = " ++ chars (toString s.nEnd) ++
    chars ", pass_thru = " ++ (if cfg.passThru then ['1'] else ['0']) ++ chars " \n"

theorem trailer_eq (cfg : Config) (s : State) :
    ∃ front, trailer cfg s = front ++ [countLine cfg s] ∧ ∀ text ∈ front, isWhole text = true := by
  refine ⟨_, rfl, fun text hmem => ?_⟩
  rcases List.mem_append.mp hmem with hmem | hmem
  · split at hmem
    · rw [List.mem_singleton.mp hmem]
      with_unfolding_all decide
    · exact absurd hmem List.not_mem_nil
  · split at hmem
    · rw [List.mem_singleton.mp hmem]
      split <;> with_unfolding_all decide
    · exact absurd hmem List.not_mem_nil

/-- The output file for an input file, from the characters that `fgets` reads to those that are
written. -/
def emittedText (cfg : Config) (input : Text) : Text :=
  (addInstrumentation cfg (fgetsAll maxLine [] input)).out.flatten

/-- The lines of the output that are no comments, for whole lines as input. -/
theorem linesWithout_out (cfg : Config) {lines : List Line}
    (h : ∀ raw ∈ lines, isWhole raw = true) :
    linesWithout isComment (addInstrumentation cfg lines).out.flatten =
      linesWithout isComment
        ((codeLines (run cfg {} lines).out).flatten ++ countLine cfg (run cfg {} lines).st) := by
  obtain ⟨front, htrailer, hfront⟩ := trailer_eq cfg (run cfg {} lines).st
  have hcomments : codeLines front = [] := List.filter_eq_nil_iff.mpr fun text hmem => by
    simp [isComment_trailer (htrailer ▸ List.mem_append_left _ hmem)]
  have hpieces : ∀ text ∈ (run cfg {} lines).out ++ front, isWhole text = true := fun text hmem =>
    (List.mem_append.mp hmem).elim (isWhole_of_mem_run h) (hfront text)
  have hflatten : (addInstrumentation cfg lines).out.flatten =
      ((run cfg {} lines).out ++ front).flatten ++ countLine cfg (run cfg {} lines).st := by
    simp [addInstrumentation, htrailer]
  rw [hflatten, linesWithout_flatten isComment_concat hpieces, List.filter_append, ← codeLines,
    ← codeLines, hcomments, List.append_nil]

/-- **Chance influences comment lines only.** Whatever the draws and the ratio, the texts that
are written besides comments are the same in the same order, and so are the reported names;
for an input of complete lines that fit the buffer, these texts are the lines of the output. -/
theorem emitted_code_sampled (cfg : Config) (random : Nat → Nat) (ratio : Nat) :
    (∀ lines,
      codeLines (addInstrumentation (cfg.sampling random ratio) lines).out =
          codeLines (addInstrumentation cfg lines).out ∧
        (addInstrumentation (cfg.sampling random ratio) lines).report =
          (addInstrumentation cfg lines).report) ∧
    ∀ lines : List Line,
      (∀ line ∈ lines, '\n' ∉ line ∧ '\x00' ∉ line ∧ line.length + 1 < maxLine) →
        linesWithout isComment
            (emittedText (cfg.sampling random ratio) (lines.map (· ++ ['\n'])).flatten) =
          linesWithout isComment (emittedText cfg (lines.map (· ++ ['\n'])).flatten) := by
  refine ⟨addInstrumentation_sampled cfg random ratio, fun lines h => ?_⟩
  have hread : fgetsAll maxLine [] (lines.map (· ++ ['\n'])).flatten = lines.map (· ++ ['\n']) :=
    fgetsAll_lines (fun line hmem => (h line hmem).1) fun line hmem => (h line hmem).2.2
  have hwhole : ∀ raw ∈ lines.map (· ++ ['\n']), isWhole raw = true := by
    intro raw hmem
    obtain ⟨line, hline, rfl⟩ := List.mem_map.mp hmem
    exact isWhole_iff.mpr ⟨line, rfl, (h line hline).1⟩
  obtain ⟨⟨skip, next, count, drawn, hst⟩, hout, -⟩ := @run_sampled cfg random ratio
    _ _ (lines.map (· ++ ['\n'])) (Sampled.refl {})
  rw [emittedText, emittedText, hread, linesWithout_out _ hwhole, linesWithout_out _ hwhole, hout,
    hst]
  rfl

/-- The function with a call and a return. -/
theorem emitted_code_sampled_callLines :
    linesWithout isComment (emittedText (callConfig.sampling (fun i => 7 * i) 30)
        ((callLines.map List.dropLast).map (· ++ ['\n'])).flatten) =
      linesWithout isComment
        (emittedText callConfig ((callLines.map List.dropLast).map (· ++ ['\n'])).flatten) := by
  refine (emitted_code_sampled callConfig (fun i => 7 * i) 30).2 (callLines.map List.dropLast) ?_
  have hlines : ((callLines.map List.dropLast).all fun line => !line.contains '\n' &&
      !line.contains '\x00' && decide (line.length + 1 < maxLine)) = true := by
    with_unfolding_all decide
  intro line hmem
  have hline := List.all_eq_true.mp hlines line hmem
  simp only [Bool.and_eq_true, Bool.not_eq_true', List.contains_eq_mem, decide_eq_false_iff_not,
    decide_eq_true_eq] at hline
  exact ⟨hline.1.1, hline.1.2, hline.2⟩

/-! ### Lines that are not complete -/

/-- The last line has no newline, so what the function writes next lands on it. -/
def unfinishedInput : Text := chars "\t.text\n\tje\t.L1"

/-- A branch whose target is longer than the buffer, so that the line comes in two pieces. -/
def longInput : Text :=
  chars "\t.text\n" ++ (chars "\tje\t" ++ List.replicate 8187 'a' ++ chars "aaaaa\n")

/-- A conditional branch whose target is made of one letter. -/
def branchLine (n : Nat) : Line := chars "\tje\t" ++ List.replicate n 'a'

theorem mem_branchLine {n : Nat} {c : Char} (h : c ∈ branchLine n) :
    c = '\t' ∨ c = 'j' ∨ c = 'e' ∨ c = 'a' := by
  rcases List.mem_append.mp h with h | h
  · have hall : (chars "\tje\t").all (['\t', 'j', 'e'].contains ·) = true := by
      with_unfolding_all decide
    have := List.all_eq_true.mp hall c h
    simp at this
    tauto
  · exact Or.inr (Or.inr (Or.inr (List.eq_of_mem_replicate h)))

theorem charAt_branchLine (n : Nat) : charAt (branchLine n) 0 = '\t' ∧
    charAt (branchLine n) 1 = 'j' ∧ charAt (branchLine n) 2 = 'e' := by
  have hlength : (chars "\tje\t").length = 4 := by with_unfolding_all decide
  refine ⟨?_, ?_, ?_⟩ <;>
  · rw [branchLine, charAt_append _ (by omega)]
    with_unfolding_all decide

/-- No text with another character occurs in it, so the line is none of those that the function
looks for. -/
theorem contains_branchLine {needle : Line} {n : Nat} (c : Char) (hc : c ∈ needle)
    (hne : c ≠ '\t' ∧ c ≠ 'j' ∧ c ≠ 'e' ∧ c ≠ 'a') : contains needle (branchLine n) = false := by
  refine contains_eq_false c hc fun hmem => ?_
  rcases mem_branchLine hmem with rfl | rfl | rfl | rfl
  · exact hne.1 rfl
  · exact hne.2.1 rfl
  · exact hne.2.2.1 rfl
  · exact hne.2.2.2 rfl

/-- The iteration of such a branch, cut or not: the line is copied, and the draw decides whether a
comment follows. -/
theorem step_branchLine {cfg : Config} (hpass : cfg.passThru = false)
    (h64 : cfg.use64bit = true) (n : Nat) :
    (step cfg { instrOk := true } (branchLine n)).st =
        (if drawBelowRatio cfg { instrOk := true } then
          { instrOk := true, drawn := 1, insLines := 1 } else { instrOk := true, drawn := 1 }) ∧
      (step cfg { instrOk := true } (branchLine n)).out = branchLine n ::
        if drawBelowRatio cfg { instrOk := true } then [chars "###SPA### trampoline_fmt_64\n"]
        else [] := by
  obtain ⟨h0, h1, h2⟩ := charAt_branchLine n
  have hno : ∀ pre : Line, 1 < pre.length → charAt pre 1 ≠ 'j' →
      startsWith (branchLine n) pre = false := fun pre hlength hne =>
    startsWith_eq_false 1 hlength (by rw [h1]; exact hne.symm)
  have hstart : isStartproc (branchLine n) = false :=
    hno _ (by with_unfolding_all decide) (by with_unfolding_all decide)
  have hend : isEndproc (branchLine n) = false :=
    hno _ (by with_unfolding_all decide) (by with_unfolding_all decide)
  have hcall : startsWith (branchLine n) spaCallqNoStar = false :=
    hno _ (by with_unfolding_all decide) (by with_unfolding_all decide)
  have hret : isRet (branchLine n) = false := by
    rw [isRet, hno _ (by with_unfolding_all decide) (by with_unfolding_all decide),
      hno _ (by with_unfolding_all decide) (by with_unfolding_all decide)]
    rfl
  have hmask : rewriteWriteMask (branchLine n) = branchLine n := by
    rw [rewriteWriteMask, contains_branchLine '\x7d' (by with_unfolding_all decide) (by decide),
      if_neg Bool.false_ne_true]
  have htrack : trackSyntax cfg { instrOk := true } (branchLine n) = { instrOk := true } := by
    rw [trackSyntax_eq,
      @contains_branchLine (chars ".code") n '.' (by with_unfolding_all decide) (by decide),
      @contains_branchLine (chars ".att_syntax") n '.' (by with_unfolding_all decide)
        (by decide),
      @contains_branchLine (chars ".intel_syntax") n '.' (by with_unfolding_all decide)
        (by decide)]
    simp [h0, h1]
  have hadvance : advance cfg { instrOk := true } (branchLine n) = { instrOk := true } := by
    simp [advance, dumpTrampoline, hstart, hend]
  have hbook : bookkept cfg { instrOk := true } (branchLine n) = true := by
    simp [bookkept, hpass, hstart, hend, rewriteCall_eq_none hcall, rewriteRet_eq_none hret]
  have heq : bookkeep cfg { instrOk := true } (branchLine n) =
      conditionalBranch cfg { instrOk := true } (branchLine n) := by
    simp [bookkeep, isJumpTableAlign, isDotted, h0, h1, htrack, isSkipped]
  rw [step, hmask, stepLine_eq, if_pos hbook, hadvance, heq]
  by_cases hdraw : drawBelowRatio cfg { instrOk := true } = true
  · simp [conditionalBranch, dumpTrampoline, h1, h2, hdraw, h64]
  · simp [conditionalBranch, dumpTrampoline, h1, h2, hdraw]

/-- The two parts that `fgets` makes of the branch. The second begins in the middle of its target.
-/
theorem fgetsAll_longInput : fgetsAll maxLine [] longInput =
    [chars "\t.text\n", branchLine 8187, chars "aaaaa\n"] := by
  have htext : chars "\t.text\n" = chars "\t.text" ++ ['\n'] := by with_unfolding_all decide
  have htail : chars "aaaaa\n" = chars "aaaaa" ++ ['\n'] := by with_unfolding_all decide
  have hlength : (branchLine 8187).length + 1 = maxLine := by
    have hfour : (chars "\tje\t").length = 4 := by with_unfolding_all decide
    rw [branchLine, List.length_append, List.length_replicate, hfour]
    rfl
  have hnewline : '\n' ∉ branchLine 8187 := fun hmem => absurd (mem_branchLine hmem) (by decide)
  rw [longInput, htext, List.append_assoc, List.singleton_append,
    fgetsAll_line _ (by with_unfolding_all decide) (by with_unfolding_all decide), ← branchLine,
    fgetsAll_full _ (by rintro h; rw [h] at hlength; exact absurd hlength (by decide)) hnewline
      (by simpa using hlength)]
  have hrest : fgetsAll maxLine [] (chars "aaaaa\n") = [chars "aaaaa\n"] := by
    with_unfolding_all decide
  rw [hrest]
  rfl

/-- The first two lines of the output, when the text behind the branch is known. -/
theorem linesWithout_longInput {tail : Line} (htail : '\n' ∉ tail) (rest : Text) :
    linesWithout isComment (chars "\t.text\n" ++ (branchLine 8187 ++ (tail ++ '\n' :: rest))) =
      chars "\t.text" :: (branchLine 8187 ++ tail) :: linesWithout isComment rest := by
  have htext : chars "\t.text\n" = chars "\t.text" ++ ['\n'] := by with_unfolding_all decide
  have hfirst : linesWithout isComment (chars "\t.text") = [chars "\t.text"] := by
    with_unfolding_all decide
  have hnewline : '\n' ∉ branchLine 8187 ++ tail := fun hmem =>
    (List.mem_append.mp hmem).elim (fun hmem => absurd (mem_branchLine hmem) (by decide)) htail
  have hcode : isComment (branchLine 8187 ++ tail) = false := by
    have hlength : (chars "\tje\t").length = 4 := by with_unfolding_all decide
    refine startsWith_eq_false 0 (by with_unfolding_all decide) ?_
    rw [charAt_append _ (by rw [branchLine, List.length_append]; omega), (charAt_branchLine _).1]
    with_unfolding_all decide
  rw [htext, List.append_assoc, List.singleton_append, linesWithout_append, hfirst,
    ← List.append_assoc, linesWithout_append, linesWithout, List.splitOn_eq_singleton hnewline]
  simp [hcode]

/-- The output up to the branch, and what follows it. -/
theorem emittedText_longInput (ratio : Nat) :
    ∃ rest, emittedText (callConfig.sampling (fun _ => 0) ratio) longInput =
      chars "\t.text\n" ++ (branchLine 8187 ++
        ((if 0 < ratio then chars "###SPA### trampoline_fmt_64" else chars "aaaaa") ++
          '\n' :: rest)) := by
  have hfirst : step (callConfig.sampling (fun _ => 0) ratio) {} (chars "\t.text\n") =
      { st := { instrOk := true }, out := [chars "\t.text\n"] } := by with_unfolding_all rfl
  obtain ⟨hst, hout⟩ := @step_branchLine (callConfig.sampling (fun _ => 0) ratio) rfl rfl 8187
  have hdraw : drawBelowRatio (callConfig.sampling (fun _ => 0) ratio) { instrOk := true } =
      decide (0 < ratio) := rfl
  have hcomment : chars "###SPA### trampoline_fmt_64\n" =
      chars "###SPA### trampoline_fmt_64" ++ ['\n'] := by with_unfolding_all decide
  have htail : (step (callConfig.sampling (fun _ => 0) ratio) { instrOk := true, drawn := 1 }
      (chars "aaaaa\n")).out = [chars "aaaaa" ++ ['\n']] := by with_unfolding_all rfl
  rw [emittedText, fgetsAll_longInput, addInstrumentation, run, hfirst, run, hout, hst, hdraw]
  by_cases hratio : 0 < ratio
  · simp only [hratio, decide_true, if_true, run, hcomment, List.flatten_append, List.flatten_cons,
      List.append_assoc, List.nil_append, List.cons_append, List.append_cancel_left_eq,
      List.cons.injEq, true_and, exists_eq']
  · simp only [hratio, decide_false, if_false, run, htail, List.flatten_cons,
      List.append_assoc, List.nil_append, List.cons_append, Bool.false_eq_true,
      List.append_cancel_left_eq, List.cons.injEq, true_and, exists_eq']

/-- **Lines that are not complete.** A comment that chance decides about is then not a line of
its own: it goes on with a last line without a newline, and stands in the middle of a line that
is longer than the buffer. -/
theorem incomplete_lines_sampled :
    linesWithout isComment (emittedText (callConfig.sampling (fun _ => 0) 0) unfinishedInput) ≠
        linesWithout isComment (emittedText callConfig unfinishedInput) ∧
      linesWithout isComment (emittedText (callConfig.sampling (fun _ => 0) 0) longInput) ≠
        linesWithout isComment (emittedText callConfig longInput) := by
  refine ⟨by with_unfolding_all decide, fun heq => ?_⟩
  obtain ⟨rest, h0⟩ := emittedText_longInput 0
  obtain ⟨rest', h100⟩ := emittedText_longInput 100
  have hsame : callConfig.sampling (fun _ => 0) 100 = callConfig := rfl
  rw [if_neg (Nat.lt_irrefl 0)] at h0
  rw [hsame, if_pos (by decide)] at h100
  rw [h0, h100, linesWithout_longInput (by with_unfolding_all decide),
    linesWithout_longInput (by with_unfolding_all decide)] at heq
  have hline := List.append_cancel_left (List.cons.inj (List.cons.inj heq).2).1
  exact absurd hline (by with_unfolding_all decide)

end FlashStack.As
