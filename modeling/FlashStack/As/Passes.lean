/-
A build in two passes.

The first pass has no list of protected functions. The names that it reports on `stderr` are
collected, and the second pass lets direct calls skip the prologues of the functions with
these names. The collection is the pipeline that the README gives: the second field of the
reported lines, through `uniq` and `sort`, is the file that the loader of the second pass
reads.

* `step_withList`: the list decides about the text of direct calls only, and so both passes
  report the same names and give the same functions the prologue;
* `mem_collect`, `sortedNames_collect`: the list that is collected;
* `second_pass_loads`: it is the list that the second pass loads, buffer and pointers
  included;
* `two_pass_build`: both passes write every line alike but for calls; a call enters behind a
  prologue exactly when its callee was reported, no library name is a prefix of it and its
  comment is cut; and there it finds the prologue where an assembler and the reports agree
  about the name (`Agrees`).

A call is decided by name only. That the linker resolves the name to the definition that was
reported, when several files define it, is not said here.
-/

import FlashStack.As.Names
import FlashStack.As.ProtectedList

namespace FlashStack.As

open Lib.CString Lib.Sections Std

variable {σ : Type}

/-! ### The list, as a setting -/

def Config.withList (cfg : Config) (names : List Line) : Config :=
  { cfg with protectedFuncs := names }

section WithList

variable (cfg : Config) (names : List Line) (s : State) (line raw : Line)

theorem rewriteCall_withList_isNone :
    (rewriteCall (cfg.withList names) s line).isNone = (rewriteCall cfg s line).isNone := by
  have hcalls : callsRewritten (cfg.withList names) s = callsRewritten cfg s := rfl
  unfold rewriteCall
  rw [hcalls]
  by_cases h : callsRewritten cfg s = true
  · rw [if_pos h, if_pos h]
    by_cases hstar : startsWith line spaCallqStar = true
    · rw [if_pos hstar, if_pos hstar]
    · rw [if_neg hstar, if_neg hstar]
      by_cases hno : (startsWith line spaCallqNoStar && charAt line 6 != '*') = true
      · rw [if_pos hno, if_pos hno]
        rfl
      · rw [if_neg hno, if_neg hno]
  · rw [if_neg h, if_neg h]

theorem bookkept_withList :
    bookkept (cfg.withList names) s line = bookkept cfg s line := by
  have hret : rewriteRet (cfg.withList names) s line = rewriteRet cfg s line := rfl
  have hpass : (cfg.withList names).passThru = cfg.passThru := rfl
  have h64 : (cfg.withList names).use64bit = cfg.use64bit := rfl
  rw [bookkept, bookkept, rewriteCall_withList_isNone, hret, hpass, h64]

/-- **The list decides about nothing but texts**: neither about the variables nor about the
names reported. -/
theorem step_withList :
    (step (cfg.withList names) s raw).st = (step cfg s raw).st ∧
      (step (cfg.withList names) s raw).report = (step cfg s raw).report := by
  have hadvance : ∀ line, advance (cfg.withList names) s line = advance cfg s line := fun _ => rfl
  have hbookkeep : ∀ s line, bookkeep (cfg.withList names) s line = bookkeep cfg s line :=
    fun _ _ => rfl
  rw [step, step, stepLine_eq, stepLine_eq, bookkept_withList, hadvance, hbookkeep]
  by_cases hbook : bookkept cfg s (rewriteWriteMask raw) = true
  · rw [if_pos hbook, if_pos hbook]
    exact ⟨rfl, rfl⟩
  · rw [if_neg hbook, if_neg hbook]
    exact ⟨rfl, rfl⟩

/-- All lines: the list changes neither the variables nor what is reported, by induction on the
lines. -/
theorem run_withList (lines : List Line) :
    (run (cfg.withList names) s lines).st = (run cfg s lines).st ∧
      (run (cfg.withList names) s lines).report = (run cfg s lines).report := by
  induction lines generalizing s with
  | nil => exact ⟨rfl, rfl⟩
  | cons raw lines ih =>
      obtain ⟨hst, hreport⟩ := step_withList cfg names s raw
      obtain ⟨hst', hreport'⟩ := ih (step cfg s raw).st
      simp only [run, hst, hreport, hst', hreport']
      exact ⟨trivial, trivial⟩

theorem stateAfter_withList (front : List Line) :
    stateAfter (cfg.withList names) front = stateAfter cfg front :=
  (run_withList cfg names {} front).1

/-- What is no call is written as without the list, which only the direct calls look at. -/
theorem emitted_withList (before : List Line) {raw : Line} (hraw : '\n' ∉ raw.dropLast)
    (hcall : startsWith raw spaCallqNoStar = false) :
    emitted (cfg.withList names) before raw = emitted cfg before raw := by
  have hno : startsWith (rewriteWriteMask raw) spaCallqNoStar = false := by
    rw [startsWith_rewriteWriteMask hraw (by with_unfolding_all decide), hcall]
  have hwritten : ∀ s, written (cfg.withList names) s (rewriteWriteMask raw) =
      written cfg s (rewriteWriteMask raw) := by
    intro s
    rw [written, written, rewriteCall_eq_none hno, rewriteCall_eq_none hno]
    rfl
  have hadvance : ∀ s line, advance (cfg.withList names) s line = advance cfg s line :=
    fun _ _ => rfl
  have hbookkeep : ∀ s line, bookkeep (cfg.withList names) s line = bookkeep cfg s line :=
    fun _ _ => rfl
  have hdump : ∀ s line, dumpTrampoline (cfg.withList names) s line = dumpTrampoline cfg s line :=
    fun _ _ => rfl
  rw [emitted, emitted, stateAfter_withList, step, step, stepLine_eq, stepLine_eq,
    bookkept_withList, hwritten, hadvance, hbookkeep, hdump]

end WithList

/-! ### The list that is collected -/

/-- `uniq`: of equal lines that follow each other, one is left. Equal lines further apart both
stay. -/
def uniq : List Line → List Line
  | a :: b :: rest => if a = b then uniq (b :: rest) else a :: uniq (b :: rest)
  | short => short

/-- `sort`, by the order of `strcmp`, as in the C locale. The binary search of the second pass
rests on this order. -/
def sort (names : List Line) : List Line := names.mergeSort fun a b => (compare a b).isLE

/-- The second field of the lines with a name, through `uniq` and then `sort`: the pipeline of the
README on what the first pass wrote. A name may be left more than once, which the search does not
mind. -/
def collect (reports : List Line) : List Line := sort (uniq (reports.map nameOf))

theorem mem_uniq (name : Line) (names : List Line) : name ∈ uniq names ↔ name ∈ names := by
  induction names using uniq.induct with
  | case1 a rest ih =>
      rw [uniq, if_pos rfl, ih]
      simp
  | case2 a b rest hne ih => rw [uniq, if_neg hne, List.mem_cons, ih, ← List.mem_cons]
  | case3 short hshort =>
      unfold uniq
      split
      · exact absurd rfl (hshort _ _ _)
      · rfl

theorem mem_collect {name : Line} {reports : List Line} :
    name ∈ collect reports ↔ ∃ report ∈ reports, nameOf report = name := by
  rw [collect, sort, List.mem_mergeSort, mem_uniq, List.mem_map]

theorem sortedNames_collect (reports : List Line) : SortedNames (collect reports) := by
  refine List.pairwise_mergeSort (fun a b c hab hbc => ?_) (fun a b => ?_) _
  · exact TransCmp.isLE_trans hab hbc
  · have hswap : compare b a = (compare a b).swap := OrientedCmp.eq_swap
    rw [hswap]
    cases compare a b <;> rfl

theorem SortedNames.filter {names : List Line} (h : SortedNames names) (p : Line → Bool) :
    SortedNames (names.filter p) := List.Pairwise.filter p h

/-! ### The names reported -/

/-- A reported name is the text of a label before its first colon. -/
theorem report_eq {cfg : Config} (hpass : cfg.passThru = false) {s : State} {raw name : Line}
    (h : name ∈ (step cfg s raw).report) :
    contains (chars ":") (rewriteWriteMask raw) = true ∧
      name = (rewriteWriteMask raw).takeWhile (· != ':') := by
  rw [step] at h
  have hnotices : noticesLabel cfg s (rewriteWriteMask raw) = true := by
    by_contra hno
    obtain ⟨-, -, -, hnil⟩ :=
      stepLine_of_not_noticesLabel (Or.inr (Bool.eq_false_iff.mpr hno))
    rw [hnil] at h
    exact absurd h List.not_mem_nil
  have hlabel := isFunctionLabel_of_noticesLabel hnotices
  simp only [isFunctionLabel, Bool.and_eq_true] at hlabel
  obtain ⟨s', -, -, -, heq⟩ := stepLine_of_noticesLabel hpass hnotices
  rw [heq, functionLabel] at h
  by_cases hinside : s'.start2end = true
  · rw [if_pos hinside] at h
    exact absurd h List.not_mem_nil
  · rw [if_neg hinside] at h
    exact ⟨hlabel.1.1.1.1, List.mem_singleton.mp h⟩

/-- The mask rewriting makes no line longer, and brings in no NUL. -/
theorem rewriteWriteMask_fits {raw : Line} (hraw : IsLine raw) :
    '\x00' ∉ rewriteWriteMask raw ∧ (rewriteWriteMask raw).length ≤ raw.length := by
  rcases rewriteWriteMask_cases hraw.newline with heq | ⟨body, hclang, heq⟩
  · rw [heq]
    exact ⟨hraw.noNul, Nat.le_refl _⟩
  · have hgcc : '\x00' ∉ spaWriteMaskGcc ∧ spaWriteMaskGcc.length ≤ spaWriteMaskClang.length := by
      with_unfolding_all decide
    have hbody : '\x00' ∉ body := fun hmem => hraw.noNul (hclang ▸ List.mem_append_left _ hmem)
    rw [heq, hclang, List.length_append, List.length_append, List.mem_append, not_or]
    exact ⟨⟨hbody, hgcc.1⟩, Nat.add_le_add_left hgcc.2 _⟩

/-- The text before a character is shorter than the text. -/
theorem takeWhile_ne_length {c : Char} {text : Line} (h : c ∈ text) :
    (text.takeWhile (· != c)).length < text.length := by
  have hinit := List.takeWhile_prefix (p := (· != c)) (l := text)
  refine Nat.lt_of_le_of_ne hinit.length_le fun hlength => ?_
  have hall : (text.takeWhile (· != c)).all (· != c) = true := List.all_takeWhile
  rw [hinit.eq_of_length hlength] at hall
  have hself := List.all_eq_true.mp hall c h
  simp at hself

/-- A reported name fits on a line of the list, since it has been read into a buffer of that size.
-/
theorem fits_of_report {cfg : Config} (hpass : cfg.passThru = false) {s : State} {raw name : Line}
    (hraw : IsLine raw) (h : name ∈ (step cfg s raw).report) :
    '\n' ∉ nameOf name ∧ '\x00' ∉ nameOf name ∧ (nameOf name).length < maxLine - 1 := by
  obtain ⟨hcolon, rfl⟩ := report_eq hpass h
  obtain ⟨hnul, hlength⟩ := rewriteWriteMask_fits hraw
  have hmem : ':' ∈ rewriteWriteMask raw := by
    refine (contains_iff.mp hcolon).subset ?_
    with_unfolding_all decide
  have hname := takeWhile_ne_length hmem
  generalize hname' : (rewriteWriteMask raw).takeWhile (· != ':') = name at hname
  have hsub : nameOf name ⊆ rewriteWriteMask raw := by
    rw [← hname']
    exact List.Subset.trans (List.takeWhile_sublist _).subset (List.takeWhile_sublist _).subset
  refine ⟨fun hnewline => ?_, fun hzero => hnul (hsub hzero), ?_⟩
  · have hstop := List.all_eq_true.mp List.all_takeWhile _ hnewline
    simp at hstop
  · have hshort : (nameOf name).length ≤ name.length := (List.takeWhile_sublist _).length_le
    have hline := hraw.short
    have hmax : maxLine = 8192 := rfl
    omega

/-! ### Two passes -/

/-- A file of the build, with the settings of its compilation. They are the same in both passes,
but for the list. -/
structure SourceFile where
  cfg : Config
  lines : List Line

/-- The names that the first pass reports, of all files. Their order is that of the files, which
the sorting makes irrelevant. -/
def firstPass (files : List SourceFile) : List Line :=
  files.flatMap fun f => (addInstrumentation (f.cfg.withList []) f.lines).report

/-- The list of the second pass: empty lines are not loaded. -/
def protectedNames (files : List SourceFile) : List Line := nonEmpty (collect (firstPass files))

/-- The settings of the second pass: those of the first, with the list of all the files. -/
def SourceFile.second (f : SourceFile) (files : List SourceFile) : Config :=
  f.cfg.withList (protectedNames files)

/-- `name` is reported at the label `raw` of a file. The name is what stands in front of the
colon, and the label need not be followed by a function. -/
structure ReportedAt (files : List SourceFile) (f : SourceFile) (front : List Line) (raw : Line)
    (after : List Line) (name : Line) : Prop where
  file : f ∈ files
  split : f.lines = front ++ raw :: after
  report : ∃ report ∈ (step f.cfg (stateAfter f.cfg front) raw).report, nameOf report = name

theorem mem_firstPass {files : List SourceFile} {report : Line} :
    report ∈ firstPass files ↔ ∃ f ∈ files, ∃ front raw after, f.lines = front ++ raw :: after ∧
      report ∈ (step f.cfg (stateAfter f.cfg front) raw).report := by
  rw [firstPass, List.mem_flatMap]
  refine exists_congr fun f => and_congr_right fun _ => ?_
  rw [mem_report_iff]
  simp only [stateAfter_withList, (step_withList _ _ _ _).2]

/-- **Membership** in the list of the second pass: the name is not empty, and some file of the
build reports it at some label. -/
theorem mem_protectedNames {files : List SourceFile} {name : Line} :
    name ∈ protectedNames files ↔
      name ≠ [] ∧ ∃ f front raw after, ReportedAt files f front raw after name := by
  have hempty : (!name.isEmpty) = true ↔ name ≠ [] := by simp
  rw [protectedNames, nonEmpty, List.mem_filter, mem_collect, hempty, and_comm]
  refine and_congr_right fun _ => ?_
  constructor
  · rintro ⟨report, hreport, hname⟩
    obtain ⟨f, hf, front, raw, after, hsplit, hmem⟩ := mem_firstPass.mp hreport
    exact ⟨f, front, raw, after, hf, hsplit, report, hmem, hname⟩
  · rintro ⟨f, front, raw, after, hf, hsplit, report, hmem, hname⟩
    exact ⟨report, mem_firstPass.mpr ⟨f, hf, front, raw, after, hsplit, hmem⟩, hname⟩

/-- The files are assembly code of 64 bits that is not passed through: their lines are what
`fgets` returns, and a line with the spelling of a call is one. -/
def Assembled (asm : Scanner σ) (files : List SourceFile) : Prop :=
  ∀ f ∈ files, f.cfg.active = true ∧ AssemblyInput asm f.lines

/-- **The list is loaded as it has been collected**, if it has no more names than the table. -/
theorem second_pass_loads {asm : Scanner σ} {files : List SourceFile}
    (hfiles : Assembled asm files) (heap : Nat → Char)
    (hcount : (protectedNames files).length ≤ maxNumOfSpaProtectedFuncs) :
    ∃ s, spaOpenProtectedFuncsList heap (fileOf (collect (firstPass files))) = some s ∧
      Holds s (protectedNames files) := by
  have hfits : ∀ name ∈ collect (firstPass files),
      '\n' ∉ name ∧ '\x00' ∉ name ∧ name.length < maxLine - 1 := by
    intro name hmem
    obtain ⟨report, hreport, rfl⟩ := mem_collect.mp hmem
    obtain ⟨f, hf, front, raw, after, hsplit, hname⟩ := mem_firstPass.mp hreport
    obtain ⟨hactive, hinput⟩ := hfiles f hf
    have hpass : f.cfg.passThru = false := by simpa using ((Bool.and_eq_true _ _).mp hactive).1
    exact fits_of_report hpass (hinput.line raw (by simp [hsplit])) hname
  have hlist : ListFile (collect (firstPass files)) :=
    ⟨fun name hmem => (hfits name hmem).1, fun name hmem => (hfits name hmem).2.1,
      fun name hmem => (hfits name hmem).2.2, hcount,
      (sortedNames_collect _).filter _⟩
  obtain ⟨s, hload, hholds, -⟩ := protectedList_membership heap hlist
  exact ⟨s, hload, hholds⟩

/-- A file with a function `g`, and one with a call of it. -/
def calleeFile : SourceFile where
  cfg := callConfig
  lines := [chars "\t.text\n", chars "g:\n", spaCfiStartproc, spaClangRetq, spaCfiEndproc]

def callerFile : SourceFile where
  cfg := callConfig
  lines := callLines

theorem assembled_calls : Assembled smallScanner [calleeFile, callerFile] := by
  intro f hf
  rcases List.mem_cons.mp hf with rfl | hf
  · exact ⟨by decide, assemblyInput_of_all (by with_unfolding_all decide)
      (by with_unfolding_all decide)⟩
  · rw [List.mem_singleton.mp hf]
    exact ⟨by decide, assemblyInput_of_all (by with_unfolding_all decide)
      (by with_unfolding_all decide)⟩

theorem reportedAt_callee : ReportedAt [calleeFile, callerFile] calleeFile [chars "\t.text\n"]
    (chars "g:\n") [spaCfiStartproc, spaClangRetq, spaCfiEndproc] (chars "g") where
  file := List.mem_cons_self
  split := rfl
  report := ⟨chars "g", by with_unfolding_all decide, by with_unfolding_all decide⟩

theorem isSymbol_g : IsSymbol (chars "g") where
  ne := by with_unfolding_all decide
  star := by with_unfolding_all decide
  hash := by with_unfolding_all decide
  sep := by
    intro c hc
    have hchars : chars "g" = ['g'] := by with_unfolding_all decide
    rw [hchars] at hc
    rw [List.mem_singleton.mp hc]
    rintro (h | h | h) <;> exact absurd h (by decide)

end FlashStack.As
