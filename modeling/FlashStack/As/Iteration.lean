/-
One iteration of `add_instrumentation`, as its parts.

An iteration writes three things, in this order: the deferred trampoline of an earlier line,
what stands for the line itself, and what the bookkeeping adds. The first and the last are
comments, which the assembler ignores. So the line decides what stands for it in the output,
and the variables decide between few possibilities; that is what the later modules work
with.

* `run_append`: the loop on the first lines, then on the others. `stateAfter` and `emitted`
  name the variables behind some lines, and what the iteration of the next line writes;
* `stepLine_eq`: an iteration that does the bookkeeping, and one that does not;
* `stepLine_out`: the lines written are comments, what stands for the line, and comments.

The bookkeeping happens only for lines that are copied, and not for all of them: when
everything is passed through, and at the two markers, the iteration ends before it. A
replaced call or return leaves the variables about sections, syntax and labels as they were.
-/

import FlashStack.As.Lines

namespace FlashStack.As

open Lib.CString

/-! ### The loop on a part of the lines -/

/-- The variables behind the lines `before`. Nothing of what the loop has written so far is needed
to go on. -/
def stateAfter (cfg : Config) (before : List Line) : State := (run cfg {} before).st

/-- What the iteration of `raw` writes when it follows the lines `before`. The output of the loop
is made of these pieces, in order. -/
def emitted (cfg : Config) (before : List Line) (raw : Line) : List Line :=
  (step cfg (stateAfter cfg before) raw).out

theorem run_append (cfg : Config) (s : State) (front back : List Line) :
    run cfg s (front ++ back) =
      { st := (run cfg (run cfg s front).st back).st,
        out := (run cfg s front).out ++ (run cfg (run cfg s front).st back).out,
        report := (run cfg s front).report ++ (run cfg (run cfg s front).st back).report } := by
  induction front generalizing s with
  | nil => rfl
  | cons raw front ih =>
      simp only [List.cons_append, run, ih, List.append_assoc]

theorem run_concat (cfg : Config) (s : State) (part : List Line) (raw : Line) :
    (run cfg s (part ++ [raw])).st = (step cfg (run cfg s part).st raw).st := by
  rw [run_append]
  rfl

theorem stateAfter_concat (cfg : Config) (before : List Line) (raw : Line) :
    stateAfter cfg (before ++ [raw]) = (step cfg (stateAfter cfg before) raw).st :=
  run_concat cfg {} before raw

/-! ### What is written -/

/-- A line that the function adds for its reader. All of them begin with `###SPA`, which an
assembler takes for a comment. -/
def isComment (line : Line) : Bool := startsWith line (chars "###SPA")

/-- What stands for the line: a copy, with or without an entry block behind it, or the block that
replaces a call or a return. -/
def written (cfg : Config) (s : State) (line : Line) : List Line :=
  if isStartproc line && !cfg.passThru && cfg.use64bit then line :: functionEntry s
  else (rewriteCall cfg s line).getD ((rewriteRet cfg s line).getD [line])

/-- The line is written as it is and looked at: it is no marker and is not replaced, and the file
is not passed through. -/
def bookkept (cfg : Config) (s : State) (line : Line) : Bool :=
  !cfg.passThru && !(isStartproc line && cfg.use64bit) && !isEndproc line &&
    (rewriteCall cfg s line).isNone && (rewriteRet cfg s line).isNone

/-- The variables of the loop head and of the tests for startproc and endproc. -/
def advance (cfg : Config) (s : State) (line : Line) : State :=
  let s := (dumpTrampoline cfg s line).1
  let s := if isStartproc line then { s with start2end := true, nStart := s.nStart + 1 } else s
  if isEndproc line then { s with start2end := false, nEnd := s.nEnd + 1 } else s

theorem isEndproc_of_isStartproc {line : Line} (h : isStartproc line = true) :
    isEndproc line = false := by
  refine Bool.eq_false_iff.mpr fun hend => ?_
  have hs := (charAt_of_isStartproc h).2
  rw [(charAt_of_isEndproc hend).2] at hs
  exact absurd hs (by decide)

/-- A call is rewritten only where the line starts with `callq`. -/
theorem rewriteCall_eq_none {cfg : Config} {s : State} {line : Line}
    (h : startsWith line spaCallqNoStar = false) : rewriteCall cfg s line = none := by
  have hstar : startsWith line spaCallqStar = false := by
    refine Bool.eq_false_iff.mpr fun hpre => Bool.eq_false_iff.mp h (startsWith_iff.mpr ?_)
    have hcallq : spaCallqNoStar <+: spaCallqStar := by with_unfolding_all decide
    exact hcallq.trans (startsWith_iff.mp hpre)
  simp [rewriteCall, hstar, h]

theorem rewriteRet_eq_none {cfg : Config} {s : State} {line : Line} (h : isRet line = false) :
    rewriteRet cfg s line = none := by
  simp [rewriteRet, h]

/-- A directive is neither a call nor a return. -/
theorem isRet_false_of_dot {line : Line} (h : charAt line 1 = '.') : isRet line = false := by
  refine Bool.eq_false_iff.mpr fun hret => ?_
  rw [isRet, Bool.or_eq_true] at hret
  rcases hret with hret | hret <;>
  · have hone := charAt_of_startsWith (i := 1) hret (by with_unfolding_all decide)
    rw [h] at hone
    exact absurd hone (by with_unfolding_all decide)

theorem isCall_false_of_dot {line : Line} (h : charAt line 1 = '.') :
    startsWith line spaCallqNoStar = false := by
  refine startsWith_eq_false 1 (by with_unfolding_all decide) ?_
  rw [h]
  with_unfolding_all decide

/-- Neither test looks at the counters or at the deferred trampoline. -/
theorem rewriteCall_dumpTrampoline (cfg : Config) (s : State) (line other : Line) :
    rewriteCall cfg (dumpTrampoline cfg s line).1 other = rewriteCall cfg s other := by
  simp [rewriteCall]

theorem rewriteRet_dumpTrampoline (cfg : Config) (s : State) (line other : Line) :
    rewriteRet cfg (dumpTrampoline cfg s line).1 other = rewriteRet cfg s other := by
  obtain ⟨next, count, hst⟩ := dumpTrampoline_st cfg s line
  rw [hst]
  rfl

/-- **One iteration**, as one that does the bookkeeping and one that does not. The proof follows
the branches of the source once; later proofs use only this. -/
theorem stepLine_eq (cfg : Config) (s : State) (line : Line) :
    stepLine cfg s line =
      if bookkept cfg s line then
        { st := (bookkeep cfg (advance cfg s line) line).st
          out := (dumpTrampoline cfg s line).2 ++
            line :: (bookkeep cfg (advance cfg s line) line).out
          report := (bookkeep cfg (advance cfg s line) line).report }
      else
        { st := advance cfg s line
          out := (dumpTrampoline cfg s line).2 ++ written cfg s line } := by
  by_cases hstart : isStartproc line = true
  · have hend := isEndproc_of_isStartproc hstart
    have hdot := (charAt_of_isStartproc hstart).1
    have hcall : ∀ s, rewriteCall cfg s line = none :=
      fun _ => rewriteCall_eq_none (isCall_false_of_dot hdot)
    have hret : ∀ s, rewriteRet cfg s line = none :=
      fun _ => rewriteRet_eq_none (isRet_false_of_dot hdot)
    have hentry : ∀ start count, functionEntry { (dumpTrampoline cfg s line).1 with
        start2end := start, nStart := count } = functionEntry s := by
      obtain ⟨next, count, hst⟩ := dumpTrampoline_st cfg s line
      rw [hst]
      exact fun _ _ => rfl
    cases hpass : cfg.passThru <;> cases h64 : cfg.use64bit <;>
      simp [stepLine, bookkept, written, advance, hstart, hend, hcall, hret, hpass, h64, hentry]
  · rw [Bool.not_eq_true] at hstart
    by_cases hend : isEndproc line = true
    · have hdot := (charAt_of_isEndproc hend).1
      have hcall : ∀ s, rewriteCall cfg s line = none :=
        fun _ => rewriteCall_eq_none (isCall_false_of_dot hdot)
      have hret : ∀ s, rewriteRet cfg s line = none :=
        fun _ => rewriteRet_eq_none (isRet_false_of_dot hdot)
      cases hpass : cfg.passThru <;>
        simp [stepLine, bookkept, written, advance, hstart, hend, hcall, hret, hpass]
    · rw [Bool.not_eq_true] at hend
      cases hcall : rewriteCall cfg s line with
      | some block =>
          simp [stepLine, bookkept, written, advance, hstart, hend,
            rewriteCall_dumpTrampoline, hcall]
      | none =>
          cases hret : rewriteRet cfg s line with
          | some block =>
              simp [stepLine, bookkept, written, advance, hstart, hend,
                rewriteCall_dumpTrampoline, rewriteRet_dumpTrampoline, hcall, hret]
          | none =>
              cases hpass : cfg.passThru <;>
                simp [stepLine, bookkept, written, advance, hstart, hend,
                  rewriteCall_dumpTrampoline, rewriteRet_dumpTrampoline, hcall, hret, hpass]

/-! ### Comments -/

/-- The comments of an iteration: those of the deferred trampoline in front of the line, and those
of the branch behind it. -/
def insertedComments : List Line :=
  [chars "###SPA## trampoline_fmt_64\n", chars "###SPA## trampoline_fmt_32\n",
    chars "###SPA### the entry of main().\n",
    chars "###SPA### trampoline_fmt_64\n", chars "###SPA### trampoline_fmt_32\n"]

theorem isComment_of_mem_insertedComments {text : Line} (h : text ∈ insertedComments) :
    isComment text = true := by
  have hall : insertedComments.all isComment = true := by with_unfolding_all decide
  exact List.all_eq_true.mp hall text h

theorem mem_insertedComments_dumpTrampoline {cfg : Config} {s : State} {line text : Line}
    (h : text ∈ (dumpTrampoline cfg s line).2) : text ∈ insertedComments := by
  unfold dumpTrampoline at h
  split at h
  · rcases List.mem_cons.mp h with rfl | h
    · split <;> simp [insertedComments]
    · split at h
      · rw [List.mem_singleton.mp h]
        simp [insertedComments]
      · exact absurd h List.not_mem_nil
  · exact absurd h List.not_mem_nil

/-- The section directive, the syntax or the label of a line that is written as it is. -/
def inspect (cfg : Config) (s : State) (line : Line) : Effect :=
  if isDotted line && isTextSection line then { st := { s with instrOk := true } }
  else if isDotted line && isOtherSection line then { st := { s with instrOk := false } }
  else if isSkipped (trackSyntax cfg s line) line then { st := trackSyntax cfg s line }
  else if charAt line 0 == '\t' then conditionalBranch cfg (trackSyntax cfg s line) line
  else label cfg (trackSyntax cfg s line) line

/-- The flag about jump tables comes first, and touches nothing else. -/
theorem bookkeep_eq (cfg : Config) (s : State) (line : Line) :
    ∃ skip, bookkeep cfg s line = inspect cfg { s with skipNextLabel := skip } line := by
  by_cases halign : isJumpTableAlign cfg s line = true
  · exact ⟨true, by rw [bookkeep, if_pos halign]; rfl⟩
  · exact ⟨s.skipNextLabel, by rw [bookkeep, if_neg halign]; rfl⟩

theorem mem_insertedComments_bookkeep {cfg : Config} {s : State} {line text : Line}
    (h : text ∈ (bookkeep cfg s line).out) : text ∈ insertedComments := by
  have hbranch : ∀ s, text ∈ (conditionalBranch cfg s line).out → text ∈ insertedComments := by
    intro s h
    unfold conditionalBranch at h
    split at h
    · split at h
      · rw [List.mem_singleton.mp h]
        split <;> simp [insertedComments]
      · exact absurd h List.not_mem_nil
    · exact absurd h List.not_mem_nil
  have hlabel : ∀ s, text ∉ (label cfg s line).out := by
    intro s h
    unfold label at h
    split at h
    · split at h <;> exact absurd h List.not_mem_nil
    · exact absurd h List.not_mem_nil
  obtain ⟨skip, heq⟩ := bookkeep_eq cfg s line
  rw [heq, inspect] at h
  split at h
  · exact absurd h List.not_mem_nil
  · split at h
    · exact absurd h List.not_mem_nil
    · split at h
      · exact absurd h List.not_mem_nil
      · split at h
        · exact hbranch _ h
        · exact absurd h (hlabel _)

theorem written_of_bookkept {cfg : Config} {s : State} {line : Line}
    (h : bookkept cfg s line = true) : written cfg s line = [line] := by
  simp only [bookkept, Bool.and_eq_true, Bool.not_eq_true', Option.isNone_iff_eq_none] at h
  obtain ⟨⟨⟨⟨hpass, hstart⟩, -⟩, hcall⟩, hret⟩ := h
  have hentry : (isStartproc line && !cfg.passThru && cfg.use64bit) = false := by
    rw [Bool.and_right_comm, hstart, Bool.false_and]
  rw [written, hentry, if_neg Bool.false_ne_true, hcall, hret]
  rfl

/-- **What an iteration writes**: what stands for the line, between comments. The comments are
among the five that the function has. -/
theorem stepLine_inserted (cfg : Config) (s : State) (line : Line) :
    ∃ front back, (stepLine cfg s line).out = front ++ written cfg s line ++ back ∧
      ∀ text ∈ front ++ back, text ∈ insertedComments := by
  refine ⟨(dumpTrampoline cfg s line).2,
    if bookkept cfg s line then (bookkeep cfg (advance cfg s line) line).out else [], ?_, ?_⟩
  · rw [stepLine_eq]
    by_cases hbook : bookkept cfg s line = true
    · rw [if_pos hbook, if_pos hbook, written_of_bookkept hbook, List.append_assoc]
      rfl
    · rw [if_neg hbook, if_neg hbook, List.append_nil]
  · intro text hmem
    rcases List.mem_append.mp hmem with h | h
    · exact mem_insertedComments_dumpTrampoline h
    · split at h
      · exact mem_insertedComments_bookkeep h
      · exact absurd h List.not_mem_nil

theorem stepLine_out (cfg : Config) (s : State) (line : Line) :
    ∃ front back, (stepLine cfg s line).out = front ++ written cfg s line ++ back ∧
      ∀ text ∈ front ++ back, isComment text = true := by
  obtain ⟨front, back, hout, hinserted⟩ := stepLine_inserted cfg s line
  exact ⟨front, back, hout, fun text hmem =>
    isComment_of_mem_insertedComments (hinserted text hmem)⟩

/-- A line that is passed through is all that is written. -/
theorem stepLine_passThru {cfg : Config} (h : cfg.passThru = true) (s : State) (line : Line) :
    (stepLine cfg s line).out = [line] ∧
      (stepLine cfg s line).st = advance cfg s line := by
  have hbook : bookkept cfg s line = false := by simp [bookkept, h]
  have hcall : rewriteCall cfg s line = none := by simp [rewriteCall, callsRewritten, h]
  have hret : rewriteRet cfg s line = none := by simp [rewriteRet, retsRewritten, h]
  have htrampoline : (dumpTrampoline cfg s line).2 = [] := by simp [dumpTrampoline, h]
  rw [stepLine_eq, hbook, if_neg Bool.false_ne_true]
  exact ⟨by simp [htrampoline, written, h, hcall, hret], rfl⟩

end FlashStack.As
