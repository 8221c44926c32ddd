/-
Every line of the input is in the output, or is replaced by one block.

`Stands` lists what may stand for a line: its copy, the line with an entry block behind it,
the epilogue for a return, or one of the two blocks for a call; with the settings under
which each may happen. The output is an order-preserving merge of these pieces and of
comment lines.

* `stands_written`: what one iteration writes for its line may stand for it;
* `run_merged`: the loop writes such a merge, by induction on the lines;
* `addInstrumentation_merged`: so does the function; and what is passed through is the
  input, with nothing but comments added.

Which of the possibilities a line gets is not said here: that depends on the variables, and
is the subject of the modules on pairing, coverage and protected calls. The sample file at
the end, a function with a call and a return, serves the examples of those modules too.
-/

import FlashStack.As.Iteration
import FlashStack.Lib.Editor

namespace FlashStack.As

open Lib.CString Lib.Editor

/-- The copy of a line: a write mask at its end loses its blank. -/
def normalised (raw : Line) : Line :=
  if spaWriteMaskClang.isSuffixOf raw then
    raw.take (raw.length - spaWriteMaskClang.length) ++ spaWriteMaskGcc
  else raw

/-- The blocks behind a startproc line: the prologue, or the call of a runtime function in one of
the exempt functions. -/
inductive IsEntryBlock : List Line → Prop where
  | standard : IsEntryBlock standardPrologue
  | handler : IsEntryBlock (entryCall (chars "unsw_inc_asm_js_crash_cnt"))
  | customized : IsEntryBlock (entryCall (chars "init_main_shadow_stack"))

/-- The blocks for a call. The text of the operand or of the callee is that of the line, behind
which the comment is cut off. -/
inductive IsCallBlock (line : Line) : List Line → Prop where
  | direct : IsCallBlock line (directCallBlock line)
  | indirect : IsCallBlock line (indirectCallBlock line)

/-- What may stand for the line `raw`, with the conditions on the settings and on the line under
which it may. A copy differs from the line in the write mask at most. -/
inductive Stands (cfg : Config) (raw : Line) : List Line → Prop where
  | copied : Stands cfg raw [normalised raw]
  | entered {block : List Line} (hpass : cfg.passThru = false) (h64 : cfg.use64bit = true)
      (hraw : raw = spaCfiStartproc) (hblock : IsEntryBlock block) : Stands cfg raw (raw :: block)
  | returned (hpass : cfg.passThru = false) (h64 : cfg.use64bit = true)
      (hraw : raw = spaGccRet ∨ raw = spaClangRetq) : Stands cfg raw standardEpilogue
  | called {block : List Line} (hcalls : cfg.callInstrumented = true) (hpass : cfg.passThru = false)
      (h64 : cfg.use64bit = true) (hraw : startsWith raw spaCallqNoStar = true)
      (hblock : IsCallBlock (normalised raw) block) : Stands cfg raw block

/-! ### One line -/

/-- The search for the mask finds it at the end only. -/
theorem rewriteWriteMask_eq_normalised {raw : Line} (h : '\n' ∉ raw.dropLast) :
    rewriteWriteMask raw = normalised raw := by
  by_cases hmask : contains spaWriteMaskClang raw = true
  · have hraw := before_writeMask h hmask
    have hsuffix : spaWriteMaskClang.isSuffixOf raw = true :=
      List.isSuffixOf_iff_suffix.mpr ⟨_, hraw⟩
    have htake : raw.take (raw.length - spaWriteMaskClang.length) =
        before spaWriteMaskClang raw := by
      have hlength := congrArg List.length hraw
      rw [List.length_append] at hlength
      rw [← hlength, Nat.add_sub_cancel]
      exact (congrArg (List.take _) hraw.symm).trans List.take_left
    rw [rewriteWriteMask, if_pos hmask, normalised, if_pos hsuffix, htake]
  · have hsuffix : ¬ spaWriteMaskClang.isSuffixOf raw = true := fun hsuffix =>
      hmask (contains_iff.mpr (List.isSuffixOf_iff_suffix.mp hsuffix).isInfix)
    rw [rewriteWriteMask, if_neg hmask, normalised, if_neg hsuffix]

/-- A prefix that ends the line is the line. -/
theorem eq_of_startsWith {raw pre : Line} (h : '\n' ∉ raw.dropLast) (hnewline : '\n' ∈ pre)
    (hpre : startsWith raw pre = true) : raw = pre := by
  obtain ⟨rest, rfl⟩ := startsWith_iff.mp hpre
  by_cases hrest : rest = []
  · rw [hrest, List.append_nil]
  · rw [List.dropLast_append_of_ne_nil hrest] at h
    exact absurd (List.mem_append_left _ hnewline) h

theorem isStartproc_rewriteWriteMask {raw : Line} (h : '\n' ∉ raw.dropLast) :
    isStartproc (rewriteWriteMask raw) = isStartproc raw :=
  startsWith_rewriteWriteMask h (by with_unfolding_all decide)

theorem isEndproc_rewriteWriteMask {raw : Line} (h : '\n' ∉ raw.dropLast) :
    isEndproc (rewriteWriteMask raw) = isEndproc raw :=
  startsWith_rewriteWriteMask h (by with_unfolding_all decide)

theorem isRet_rewriteWriteMask {raw : Line} (h : '\n' ∉ raw.dropLast) :
    isRet (rewriteWriteMask raw) = isRet raw := by
  rw [isRet, isRet, startsWith_rewriteWriteMask h (by with_unfolding_all decide),
    startsWith_rewriteWriteMask h (by with_unfolding_all decide)]

theorem eq_of_isStartproc {raw : Line} (h : '\n' ∉ raw.dropLast) (hstart : isStartproc raw = true) :
    raw = spaCfiStartproc := eq_of_startsWith h (by with_unfolding_all decide) hstart

theorem eq_of_isRet {raw : Line} (h : '\n' ∉ raw.dropLast) (hret : isRet raw = true) :
    raw = spaGccRet ∨ raw = spaClangRetq := by
  rw [isRet, Bool.or_eq_true] at hret
  exact hret.imp (eq_of_startsWith h (by with_unfolding_all decide))
    (eq_of_startsWith h (by with_unfolding_all decide))

theorem rewriteWriteMask_startproc : rewriteWriteMask spaCfiStartproc = spaCfiStartproc := by
  with_unfolding_all decide

theorem functionEntry_cases (s : State) :
    functionEntry s = [] ∨ IsEntryBlock (functionEntry s) := by
  unfold functionEntry
  split
  · exact Or.inl rfl
  · split
    · exact Or.inr .handler
    · split
      · exact Or.inr .customized
      · exact Or.inr .standard

theorem rewriteCall_cases {cfg : Config} {s : State} {line : Line} {block : List Line}
    (h : rewriteCall cfg s line = some block) :
    block = [line] ∨ callsRewritten cfg s = true ∧ startsWith line spaCallqNoStar = true ∧
      IsCallBlock line block := by
  have hcallq : startsWith line spaCallqNoStar = true := by
    refine Bool.not_eq_false _ |>.mp fun hno => ?_
    rw [rewriteCall_eq_none hno] at h
    exact nomatch h
  unfold rewriteCall at h
  split at h
  · rename_i hcalls
    split at h
    · obtain rfl := Option.some.inj h
      exact Or.inr ⟨hcalls, hcallq, .indirect⟩
    · split at h
      · obtain rfl := Option.some.inj h
        unfold directCall
        split
        · exact Or.inl rfl
        · split
          · exact Or.inl rfl
          · split
            · exact Or.inr ⟨hcalls, hcallq, .direct⟩
            · exact Or.inl rfl
      · exact nomatch h
  · exact nomatch h

theorem rewriteRet_cases {cfg : Config} {s : State} {line : Line} {block : List Line}
    (h : rewriteRet cfg s line = some block) :
    block = [line] ∨ retsRewritten cfg s = true ∧ isRet line = true ∧ block = standardEpilogue := by
  unfold rewriteRet at h
  split at h
  · rename_i hret
    obtain ⟨hrets, hret⟩ := (Bool.and_eq_true _ _).mp hret
    obtain rfl := Option.some.inj h
    split
    · exact Or.inl rfl
    · split
      · exact Or.inl rfl
      · exact Or.inr ⟨hrets, hret, rfl⟩
  · exact nomatch h

/-- **One line.** What the iteration writes for it may stand for it. Of the line only this is
used, that nothing stands behind a newline. -/
theorem stands_written (cfg : Config) (s : State) {raw : Line} (h : '\n' ∉ raw.dropLast) :
    Stands cfg raw (written cfg s (rewriteWriteMask raw)) := by
  have hcopied : Stands cfg raw [rewriteWriteMask raw] := by
    rw [rewriteWriteMask_eq_normalised h]
    exact .copied
  unfold written
  split
  · rename_i hentry
    simp only [Bool.and_eq_true, Bool.not_eq_true', isStartproc_rewriteWriteMask h] at hentry
    obtain ⟨⟨hstart, hpass⟩, h64⟩ := hentry
    have hraw := eq_of_isStartproc h hstart
    have hsame : rewriteWriteMask raw = raw := by rw [hraw, rewriteWriteMask_startproc]
    rcases functionEntry_cases s with hnil | hblock
    · rw [hnil]
      exact hcopied
    · rw [hsame]
      exact .entered hpass h64 hraw hblock
  · cases hcall : rewriteCall cfg s (rewriteWriteMask raw) with
    | some block =>
        rcases rewriteCall_cases hcall with rfl | ⟨hcalls, hcallq, hblock⟩
        · exact hcopied
        · simp only [callsRewritten, Bool.and_eq_true, Bool.not_eq_true'] at hcalls
          rw [startsWith_rewriteWriteMask h (by with_unfolding_all decide)] at hcallq
          rw [rewriteWriteMask_eq_normalised h] at hblock
          exact .called (by tauto) (by tauto) (by tauto) hcallq hblock
    | none =>
        cases hret : rewriteRet cfg s (rewriteWriteMask raw) with
        | some block =>
            rcases rewriteRet_cases hret with rfl | ⟨hrets, hisRet, rfl⟩
            · exact hcopied
            · simp only [retsRewritten, Bool.and_eq_true, Bool.not_eq_true'] at hrets
              rw [isRet_rewriteWriteMask h] at hisRet
              exact .returned (by tauto) (by tauto) (eq_of_isRet h hisRet)
        | none => exact hcopied

/-! ### All lines -/

/-- **The loop** writes a merge of what stands for the lines and of comments. -/
theorem run_merged (cfg : Config) (s : State) {lines : List Line} (h : ∀ raw ∈ lines, IsLine raw) :
    Merged (Stands cfg) (isComment · = true) lines (run cfg s lines).out := by
  induction lines generalizing s with
  | nil => exact .nil
  | cons raw lines ih =>
      obtain ⟨front, back, hout, hcomments⟩ := stepLine_out cfg s (rewriteWriteMask raw)
      have hrest := ih (step cfg s raw).st fun line hmem => h line (List.mem_cons_of_mem _ hmem)
      have hpiece := stands_written cfg s (h raw List.mem_cons_self).newline
      have hline := Merged.line_between hpiece hcomments hrest
      rwa [← hout] at hline

theorem isComment_trailer {cfg : Config} {s : State} {text : Line}
    (h : text ∈ trailer cfg s) : isComment text = true := by
  have hmain : isComment (chars "###SPA### this module contains main().\n") = true := by
    with_unfolding_all decide
  have h64 : isComment (chars "###SPA### main_payload_64\n") = true := by with_unfolding_all decide
  have h32 : isComment (chars "###SPA### main_payload_32\n") = true := by with_unfolding_all decide
  rw [trailer, List.mem_append, List.mem_append] at h
  rcases h with (h | h) | h
  · split at h
    · rwa [List.mem_singleton.mp h]
    · exact absurd h List.not_mem_nil
  · split at h
    · rw [List.mem_singleton.mp h]
      split <;> assumption
    · exact absurd h List.not_mem_nil
  · have hspa : chars "###SPA" <+: chars "###SPA### " := by with_unfolding_all decide
    rw [List.mem_singleton.mp h, isComment, startsWith_iff]
    simp only [List.append_assoc]
    exact hspa.trans (List.prefix_append _ _)

/-- In pass-thru mode the loop copies, whatever it has noticed before. -/
theorem run_passThru {cfg : Config} (hpass : cfg.passThru = true) (s : State)
    (lines : List Line) : (run cfg s lines).out = lines.map rewriteWriteMask := by
  induction lines generalizing s with
  | nil => rfl
  | cons raw lines ih =>
      have hout := (stepLine_passThru hpass s (rewriteWriteMask raw)).1
      rw [run, List.map_cons, ← ih (step cfg s raw).st, step, hout]
      rfl

/-- **Every line is accounted for once and in order**, and when all is passed through, by its
copy, with comments behind the last line only. -/
theorem addInstrumentation_merged (cfg : Config) {lines : List Line}
    (h : ∀ raw ∈ lines, IsLine raw) :
    Merged (Stands cfg) (isComment · = true) lines (addInstrumentation cfg lines).out ∧
      (cfg.passThru = true → ∃ inserted, (∀ text ∈ inserted, isComment text = true) ∧
        (addInstrumentation cfg lines).out = lines.map normalised ++ inserted) := by
  refine ⟨(run_merged cfg {} h).append_all fun _ hmem => isComment_trailer hmem, fun hpass => ?_⟩
  refine ⟨trailer cfg (run cfg {} lines).st, fun _ hmem => isComment_trailer hmem, ?_⟩
  have hcopied : lines.map rewriteWriteMask = lines.map normalised :=
    List.map_congr_left fun raw hmem => rewriteWriteMask_eq_normalised (h raw hmem).newline
  exact congrArg (· ++ trailer cfg _) ((run_passThru hpass {} lines).trans hcopied)

/-! ### A function with a call and a return -/

/-- The settings of the second pass: call instrumentation is on, and nothing is passed through. -/
def callConfig : Config where
  passThru := false
  use64bit := true
  clangMode := true
  with64BitCmdOption := true
  callInstrumented := true
  beQuiet := true
  instRatio := 100
  inputFile := chars "f.s"
  protectedFuncs := [chars "g"]
  libcNames := []
  libcxxNames := []
  random _ := 0

def callLines : List Line :=
  [chars "\t.text\n", chars "f:\n", spaCfiStartproc, chars "\tcallq\tg\n", spaClangRetq,
    spaCfiEndproc]

/-- Decided on concrete lines, since the condition speaks of one line at a time. -/
theorem isLine_of_all {lines : List Line}
    (h : (lines.all fun raw => !raw.isEmpty && !raw.dropLast.contains '\n' &&
      !raw.contains '\x00' && decide (raw.length < 8192)) = true) :
    ∀ raw ∈ lines, IsLine raw := by
  intro raw hmem
  have hraw := List.all_eq_true.mp h raw hmem
  simp only [Bool.and_eq_true, Bool.not_eq_true', List.isEmpty_eq_false_iff,
    List.contains_eq_mem, decide_eq_false_iff_not, decide_eq_true_eq] at hraw
  exact ⟨hraw.1.1.1, hraw.1.1.2, hraw.1.2, hraw.2⟩

theorem addInstrumentation_merged_callLines :
    Merged (Stands callConfig) (isComment · = true) callLines
        (addInstrumentation callConfig callLines).out ∧
      (callConfig.passThru = true → ∃ inserted, (∀ text ∈ inserted, isComment text = true) ∧
        (addInstrumentation callConfig callLines).out = callLines.map normalised ++ inserted) :=
  addInstrumentation_merged callConfig (isLine_of_all (by with_unfolding_all decide))

end FlashStack.As
