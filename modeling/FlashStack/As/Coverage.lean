/-
Which functions of a compiler's output are protected.

The loop recognises functions and returns by the spelling of lines. What the lines mean to
an assembler is defined here on its own (`isReturn`, `inIntel`, `inApp`), with blanks,
prefixes and operands; the result compares the two, for files of the form that a compiler
writes.

* `emitted_prologue_iff`: a function has the prologue exactly if the last label noticed
  before its startproc line is in none of the three tables;
* `covered_iff`: a function has the prologue and none of its returns is left exactly if this
  holds, and if the returns are spelled and placed as the loop expects;
* `coverage_iff`: so all functions that are in no table are covered exactly when this holds
  of each of them; `repRet_not_covered` is a function with a return, `rep ret`, that stays.

The tables themselves are right by definition here: what is in one of them is not to be
protected. Returns in inline assembly and in Intel syntax are not counted, as the source
means them to be left.
-/

import FlashStack.As.Notice

namespace FlashStack.As

open Lib.CString Lib.Editor

/-! ### What the lines of an assembly file mean -/

def isBlank (c : Char) : Bool := c == ' ' || c == '\t'

/-- The line behind its indentation. An assembler reads a line from here on; the loop of the
source reads it from its first character. -/
def statement (line : Line) : Line := line.dropWhile isBlank

/-- The first word of a text, up to a blank, a tab, a separator of statements or the end of the
line. -/
def word (text : Line) : Line :=
  text.takeWhile fun c => !(isBlank c || c == '\n' || c == '#' || c == ';')

def isRetWord (text : Line) : Bool := text == chars "ret" || text == chars "retq"

def isRepWord (text : Line) : Bool := text == chars "rep" || text == chars "repz"

/-- A return instruction, with or without a prefix, whatever follows. It says nothing of how the
line is indented, or of an operand. -/
def isReturn (raw : Line) : Bool :=
  let text := statement raw
  isRetWord (word text) || isRepWord (word text) &&
    isRetWord (word ((text.drop (word text).length).dropWhile fun c => isBlank c || c == ';'))

/-- The last directive about the syntax selects the Intel syntax. The directive is looked for
where an assembler reads one, at the beginning of the statement. -/
def inIntel (part : List Line) : Bool :=
  (lastPlace (fun _ raw => word (statement raw) == intelSyntax || word (statement raw) == attSyntax)
    part).any fun place => word (statement place.2) == intelSyntax

/-- The last bound of an assembly block is the start of one. -/
def inApp (part : List Line) : Bool :=
  (lastPlace (fun _ raw => statement raw == chars "#APP\n" || statement raw == chars "#NO_APP\n")
    part).any fun place => statement place.2 == chars "#APP\n"

/-- A local label, a comment, a directive other than the two markers, or an empty line. -/
def isAside (raw : Line) : Bool :=
  !isMarker raw && ((statement raw).head?.all fun c => c == '.' || c == '#' || c == '\n')

/-- The file is one that a compiler writes: a call has no directive behind it. -/
structure CompilerOutput (cfg : Config) (lines : List Line) : Prop where
  line : ∀ raw ∈ lines, IsLine raw
  calls : ∀ raw ∈ lines, Quiet cfg raw

/-- A function of the file: its label, the lines up to the startproc line, and lines behind
that. -/
structure IsFunction (lines front : List Line) (label : Line) (between body : List Line) :
    Prop where
  split : ∃ rest, lines = front ++ label :: between ++ spaCfiStartproc :: (body ++ rest)
  label : isFunctionLabel label = true
  between : ∀ raw ∈ between, isAside raw = true
  body : ∀ raw ∈ body, isMarker raw = false

/-- The function has the prologue, and no return of its body is left: of every return outside
assembly blocks and Intel syntax, the line is not among those written for it. -/
structure Covered (cfg : Config) (before body : List Line) : Prop where
  entry : emitted cfg before spaCfiStartproc = spaCfiStartproc :: standardPrologue
  ret : ∀ part raw tail, body = part ++ raw :: tail → isReturn raw = true →
    inApp (before ++ spaCfiStartproc :: part) = false →
    inIntel (before ++ spaCfiStartproc :: part) = false →
    rewriteWriteMask raw ∉ emitted cfg (before ++ spaCfiStartproc :: part) raw

/-- The last label noticed before the function is in no table; its returns are one of the two
lines that are replaced, and no text before them looks like a start of what is skipped. -/
structure Visible (before body : List Line) : Prop where
  entry : tableAt isExempt false false before = false
  ret : ∀ part raw tail, body = part ++ raw :: tail → isReturn raw = true →
    inApp (before ++ spaCfiStartproc :: part) = false →
    inIntel (before ++ spaCfiStartproc :: part) = false →
    isRet raw = true ∧ skipsApp (before ++ spaCfiStartproc :: part) = false ∧
      skipsIntel (before ++ spaCfiStartproc :: part) = false

/-! ### Returns -/

theorem head_of_word {text rest : Line} {c : Char} (h : word text = c :: rest) :
    text.head? = some c := by
  cases text with
  | nil => exact absurd h (by simp [word])
  | cons d text =>
      have hpre : word (d :: text) <+: d :: text := List.takeWhile_prefix _
      rw [h] at hpre
      rw [List.head?_cons, (List.cons_prefix_cons.mp hpre).1]

/-- A return starts with its first letter, be it alone or behind `rep`. -/
theorem head_of_isReturn {raw : Line} (h : isReturn raw = true) :
    (statement raw).head? = some 'r' := by
  have hret : chars "ret" = 'r' :: chars "et" := by with_unfolding_all decide
  have hretq : chars "retq" = 'r' :: chars "etq" := by with_unfolding_all decide
  have hrep : chars "rep" = 'r' :: chars "ep" := by with_unfolding_all decide
  have hrepz : chars "repz" = 'r' :: chars "epz" := by with_unfolding_all decide
  simp only [isReturn, isRetWord, isRepWord, Bool.or_eq_true, Bool.and_eq_true, beq_iff_eq] at h
  rcases h with (h | h) | ⟨h | h, -⟩
  · exact head_of_word (h.trans hret)
  · exact head_of_word (h.trans hretq)
  · exact head_of_word (h.trans hrep)
  · exact head_of_word (h.trans hrepz)

/-- A line that starts with a tab and another letter is no return. -/
theorem not_isReturn_of_startsWith {raw pre : Line} {c : Char} (hc : isBlank c = false)
    (hr : c ≠ 'r') (h : startsWith raw ('\t' :: c :: pre) = true) : isReturn raw = false := by
  obtain ⟨rest, rfl⟩ := startsWith_iff.mp h
  refine Bool.eq_false_iff.mpr fun hreturn => ?_
  have hhead := head_of_isReturn hreturn
  have htab : isBlank '\t' = true := rfl
  rw [statement, List.cons_append, List.cons_append, List.dropWhile_cons_of_pos htab,
    List.dropWhile_cons_of_neg (by rw [hc]; exact Bool.false_ne_true), List.head?_cons] at hhead
  exact hr (Option.some.inj hhead)

theorem WrittenAs.mem {cfg : Config} {before : List Line} {raw line : Line}
    (h : WrittenAs cfg before raw [line]) : line ∈ emitted cfg before raw := by
  obtain ⟨front, back, hout, -⟩ := h
  rw [hout]
  simp

/-- Where the epilogue stands for it, nothing is left of a return. -/
theorem WrittenAs.not_mem {cfg : Config} {before : List Line} {raw : Line}
    (h : WrittenAs cfg before raw standardEpilogue) (hnewline : '\n' ∉ raw.dropLast)
    (hret : isRet raw = true) : raw ∉ emitted cfg before raw := by
  obtain ⟨front, back, hout, hcomments⟩ := h
  have hfixed : ∀ line ∈ [spaGccRet, spaClangRetq],
      isComment line = false ∧ line ∉ standardEpilogue := by with_unfolding_all decide
  obtain ⟨hcomment, hblock⟩ := hfixed raw (by
    rcases eq_of_isRet hnewline hret with rfl | rfl <;> simp)
  intro hmem
  rw [hout, List.mem_append, List.mem_append] at hmem
  have hnot : raw ∉ front ++ back := fun hmem => by
    rw [hcomments raw hmem] at hcomment
    exact Bool.false_ne_true hcomment.symm
  rcases hmem with (hmem | hmem) | hmem
  · exact hnot (List.mem_append_left _ hmem)
  · exact hblock hmem
  · exact hnot (List.mem_append_right _ hmem)

/-- A return that is spelled in another way is copied. -/
theorem writtenAs_other_return (cfg : Config) (before : List Line) {raw : Line}
    (h : '\n' ∉ raw.dropLast) (hreturn : isReturn raw = true) (hret : isRet raw = false) :
    WrittenAs cfg before raw [rewriteWriteMask raw] := by
  have hno : ∀ {c : Char} {pre : Line}, isBlank c = false → c ≠ 'r' →
      startsWith raw ('\t' :: c :: pre) = false := by
    intro c pre hc hr
    refine Bool.eq_false_iff.mpr fun hpre => ?_
    rw [not_isReturn_of_startsWith hc hr hpre] at hreturn
    exact Bool.false_ne_true hreturn
  have hstart : isStartproc raw = false := by
    have hsplit : spaCfiStartproc = '\t' :: '.' :: chars "cfi_startproc\n" := by
      with_unfolding_all decide
    rw [isStartproc, hsplit]
    exact hno (by decide) (by decide)
  have hcall : startsWith raw spaCallqNoStar = false := by
    have hsplit : spaCallqNoStar = '\t' :: 'c' :: chars "allq" := by with_unfolding_all decide
    rw [hsplit]
    exact hno (by decide) (by decide)
  obtain ⟨front, back, hout, hcomments⟩ :=
    stepLine_out cfg (stateAfter cfg before) (rewriteWriteMask raw)
  refine ⟨front, back, ?_, hcomments⟩
  have hcall' : startsWith (rewriteWriteMask raw) spaCallqNoStar = false :=
    (startsWith_rewriteWriteMask h (by with_unfolding_all decide)).trans hcall
  have hret' := (isRet_rewriteWriteMask h).trans hret
  have hwritten : written cfg (stateAfter cfg before) (rewriteWriteMask raw) =
      [rewriteWriteMask raw] := by
    rw [written, isStartproc_rewriteWriteMask h, hstart, rewriteCall_eq_none hcall',
      rewriteRet_eq_none hret']
    rfl
  rw [emitted, step, hout, hwritten]

/-! ### One function -/

/-- A function that is not taken for an exempt one stays so. -/
theorem region_not_exempt {cfg : Config} (hpass : cfg.passThru = false) {before part : List Line}
    (hbefore : ∀ raw ∈ before, IsLine raw) (hpart : ∀ raw ∈ part, IsLine raw)
    (hmarker : ∀ raw ∈ part, isMarker raw = false)
    (h : exempt (stateAfter cfg before) = false) :
    exempt (stateAfter cfg (before ++ spaCfiStartproc :: part)) = false := by
  induction part using List.reverseRecOn with
  | nil =>
      have hno : noticesLabel cfg (stateAfter cfg before) spaCfiStartproc = false := by
        refine Bool.eq_false_iff.mpr fun hyes => ?_
        have hform := isFunctionLabel_of_noticesLabel hyes
        have hnot : isFunctionLabel spaCfiStartproc = false := by with_unfolding_all decide
        rw [hnot] at hform
        exact Bool.false_ne_true hform
      rw [stateAfter_concat, step, rewriteWriteMask_startproc, stepLine_exempt hpass, hno,
        if_neg Bool.false_ne_true, h]
  | append_singleton part raw ih =>
      have hsplit : before ++ spaCfiStartproc :: (part ++ [raw]) =
          before ++ spaCfiStartproc :: part ++ [raw] := by simp
      have hmarker' : ∀ line ∈ part, isMarker line = false :=
        fun line hmem => hmarker line (List.mem_append_left _ hmem)
      have hinside : (stateAfter cfg (before ++ spaCfiStartproc :: part)).start2end = true := by
        rw [stateAfter_start2end cfg, inRegion_of_startproc before hmarker']
        intro line hmem
        simp only [List.mem_append, List.mem_cons] at hmem
        rcases hmem with hmem | rfl | hmem
        · exact hbefore line hmem
        · exact isLine_startproc
        · exact hpart line (List.mem_append_left _ hmem)
      rw [hsplit, stateAfter_concat, step, stepLine_exempt hpass, hinside, Bool.not_true,
        Bool.and_false, ih (fun line hmem => hpart line (List.mem_append_left _ hmem)) hmarker']
      split <;> rfl

/-- The prologue is written for a function that is not taken for an exempt one. -/
theorem emitted_prologue_iff {cfg : Config} (hactive : cfg.active = true) (before : List Line) :
    emitted cfg before spaCfiStartproc = spaCfiStartproc :: standardPrologue ↔
      exempt (stateAfter cfg before) = false := by
  rw [emitted_startproc hactive]
  constructor
  · intro heq
    refine Bool.eq_false_iff.mpr fun hyes => not_infix_functionEntry hyes ?_
    rw [heq]
    exact (List.suffix_cons _ _).isInfix
  · intro hno
    rw [functionEntry_of_not_exempt hno]

/-- That is, where the last label noticed is in no table. Both sides are about the lines before;
the startproc line itself changes nothing. -/
theorem entry_iff {cfg : Config} (hactive : cfg.active = true) {before : List Line}
    (hlines : ∀ raw ∈ before, IsLine raw ∧ Quiet cfg raw) :
    emitted cfg before spaCfiStartproc = spaCfiStartproc :: standardPrologue ↔
      tableAt isExempt false false before = false := by
  have hexempt : exempt (stateAfter cfg before) = tableAt isExempt false false before :=
    (run_tableAt (s := {}) hactive hlines rfl rfl rfl rfl).1
  rw [emitted_prologue_iff hactive, hexempt]

/-- **One function.** Its startproc line and its returns are looked at one by one; what the loop
knows at each of them is a property of the lines before. -/
theorem covered_iff {cfg : Config} (hactive : cfg.active = true) {before body : List Line}
    (hbefore : ∀ raw ∈ before, IsLine raw ∧ Quiet cfg raw)
    (hbody : ∀ raw ∈ body, IsLine raw ∧ Quiet cfg raw)
    (hmarker : ∀ raw ∈ body, isMarker raw = false) :
    Covered cfg before body ↔ Visible before body := by
  obtain ⟨hpass, h64⟩ := (Bool.and_eq_true _ _).mp hactive
  rw [Bool.not_eq_true'] at hpass
  -- A return of a function with the prologue goes when it is one of the two lines and is seen.
  have hreturn : tableAt isExempt false false before = false → ∀ part raw tail,
      body = part ++ raw :: tail → isReturn raw = true →
      (rewriteWriteMask raw ∉ emitted cfg (before ++ spaCfiStartproc :: part) raw ↔
        isRet raw = true ∧ skipsApp (before ++ spaCfiStartproc :: part) = false ∧
          skipsIntel (before ++ spaCfiStartproc :: part) = false) := by
    rintro hentry part raw tail rfl hreturn
    have hpart : ∀ line ∈ part, IsLine line ∧ Quiet cfg line :=
      fun line hmem => hbody line (by simp [hmem])
    have hpartMarker : ∀ line ∈ part, isMarker line = false :=
      fun line hmem => hmarker line (by simp [hmem])
    have hraw := (hbody raw (by simp)).1.newline
    have hplace : ∀ line ∈ before ++ spaCfiStartproc :: part, IsLine line ∧ Quiet cfg line := by
      intro line hmem
      simp only [List.mem_append, List.mem_cons] at hmem
      rcases hmem with hmem | rfl | hmem
      · exact hbefore line hmem
      · exact ⟨isLine_startproc, quiet_startproc cfg⟩
      · exact hpart line hmem
    by_cases hret : isRet raw = true
    · have hwritten := writtenAs_ret cfg (before ++ spaCfiStartproc :: part) hraw hret
      have hexempt : exempt (stateAfter cfg (before ++ spaCfiStartproc :: part)) = false := by
        refine region_not_exempt hpass (fun line hmem => (hbefore line hmem).1)
          (fun line hmem => (hpart line hmem).1) hpartMarker ?_
        exact (run_tableAt (s := {}) hactive hbefore rfl rfl rfl rfl).1.trans hentry
      obtain ⟨-, -, hintel, happ⟩ := run_mode (s := {}) hactive hplace rfl rfl rfl
      have hinside : (stateAfter cfg (before ++ spaCfiStartproc :: part)).start2end = true := by
        rw [stateAfter_start2end cfg fun line hmem => (hplace line hmem).1,
          inRegion_of_startproc before hpartMarker]
      have hrets : retsRewritten cfg (stateAfter cfg (before ++ spaCfiStartproc :: part)) =
          (!skipsIntel (before ++ spaCfiStartproc :: part) &&
            !skipsApp (before ++ spaCfiStartproc :: part)) := by
        rw [retsRewritten, hpass, h64, hinside, stateAfter, hintel, happ, Bool.and_true,
          Bool.and_true, Bool.not_false, Bool.true_and]
      rw [hrets, hexempt] at hwritten
      rw [rewriteWriteMask_ret hraw hret]
      by_cases hskips : skipsApp (before ++ spaCfiStartproc :: part) = false ∧
          skipsIntel (before ++ spaCfiStartproc :: part) = false
      · rw [hskips.1, hskips.2] at hwritten
        exact ⟨fun _ => ⟨hret, hskips⟩, fun _ => hwritten.not_mem hraw hret⟩
      · have hcopied : WrittenAs cfg (before ++ spaCfiStartproc :: part) raw [raw] := by
          cases happ' : skipsApp (before ++ spaCfiStartproc :: part) <;>
            cases hintel' : skipsIntel (before ++ spaCfiStartproc :: part) <;>
            simp_all
        exact ⟨fun h => absurd hcopied.mem h, fun h => absurd h.2 hskips⟩
    · have hcopied := writtenAs_other_return cfg (before ++ spaCfiStartproc :: part) hraw hreturn
        (Bool.eq_false_iff.mpr hret)
      exact ⟨fun h => absurd hcopied.mem h, fun h => absurd h.1 hret⟩
  constructor
  · intro hcovered
    have hentry := (entry_iff hactive hbefore).mp hcovered.entry
    exact ⟨hentry, fun part raw tail hsplit hret happ hintel =>
      (hreturn hentry part raw tail hsplit hret).mp
        (hcovered.ret part raw tail hsplit hret happ hintel)⟩
  · intro hvisible
    exact ⟨(entry_iff hactive hbefore).mpr hvisible.entry,
      fun part raw tail hsplit hret happ hintel =>
        (hreturn hvisible.entry part raw tail hsplit hret).mpr
          (hvisible.ret part raw tail hsplit hret happ hintel)⟩

/-! ### All functions -/

/-- **Coverage.** Every function that is in no table is covered exactly when each of them is
visible. Here a line is what one `fgets` returns; a line of the file that is longer than the buffer
is several of them, and the words of each piece count for themselves, as they do in the loop. -/
theorem coverage_iff {cfg : Config} (hactive : cfg.active = true) {lines : List Line}
    (h : CompilerOutput cfg lines) :
    (∀ front label between body, IsFunction lines front label between body →
        isExempt label = false → Covered cfg (front ++ label :: between) body) ↔
      ∀ front label between body, IsFunction lines front label between body →
        isExempt label = false → Visible (front ++ label :: between) body := by
  have hone : ∀ front label between body, IsFunction lines front label between body →
      (Covered cfg (front ++ label :: between) body ↔
        Visible (front ++ label :: between) body) := by
    intro front label between body hfunction
    obtain ⟨rest, hsplit⟩ := hfunction.split
    have hline : ∀ raw ∈ lines, IsLine raw ∧ Quiet cfg raw :=
      fun raw hmem => ⟨h.line raw hmem, h.calls raw hmem⟩
    refine covered_iff hactive (fun raw hmem => hline raw ?_) (fun raw hmem => hline raw ?_)
      hfunction.body
    · rw [hsplit]
      exact List.mem_append_left _ hmem
    · rw [hsplit]
      exact List.mem_append_right _ (List.mem_cons_of_mem _ (List.mem_append_left _ hmem))
  constructor
  · intro hcovered front label between body hfunction hlabel
    exact (hone front label between body hfunction).mp
      (hcovered front label between body hfunction hlabel)
  · intro hvisible front label between body hfunction hlabel
    exact (hone front label between body hfunction).mpr
      (hvisible front label between body hfunction hlabel)

/-- Decided on concrete lines, since each of the conditions is about one line. -/
theorem compilerOutput_of_all {cfg : Config} {lines : List Line}
    (hline : (lines.all fun raw => !raw.isEmpty && !raw.dropLast.contains '\n' &&
      !raw.contains '\x00' && decide (raw.length < 8192)) = true)
    (hcalls : (lines.all fun raw => !startsWith raw spaCallqNoStar || !mentions raw) = true) :
    CompilerOutput cfg lines where
  line := isLine_of_all hline
  calls raw hmem _ hcall := by
    have hraw := List.all_eq_true.mp hcalls raw hmem
    rw [hcall] at hraw
    simpa using hraw

theorem coverage_iff_callLines :
    (∀ front label between body, IsFunction callLines front label between body →
        isExempt label = false → Covered callConfig (front ++ label :: between) body) ↔
      ∀ front label between body, IsFunction callLines front label between body →
        isExempt label = false → Visible (front ++ label :: between) body :=
  coverage_iff (by decide)
    (compilerOutput_of_all (by with_unfolding_all decide) (by with_unfolding_all decide))

/-! ### A return with a prefix -/

/-- Startproc and endproc lines alternate, the first of them being a startproc line. That is what
compilers write. -/
def Alternating (lines : List Line) : Prop :=
  ∀ before raw after, lines = before ++ raw :: after → isMarker raw = true →
    isStartproc raw = !inRegion before

def repLines : List Line :=
  [chars "\t.text\n", chars "f:\n", spaCfiStartproc, chars "\trep ret\n", spaCfiEndproc]

/-- The return of `f` stays in the output. -/
theorem repRet_not_covered :
    CompilerOutput callConfig repLines ∧ Alternating repLines ∧
      ¬ ∀ front label between body, IsFunction repLines front label between body →
        isExempt label = false → Covered callConfig (front ++ label :: between) body := by
  have hfunction : IsFunction repLines [chars "\t.text\n"] (chars "f:\n") []
      [chars "\trep ret\n"] := by
    refine ⟨⟨[spaCfiEndproc], rfl⟩, by with_unfolding_all decide, by simp, ?_⟩
    with_unfolding_all decide
  have houtput : CompilerOutput callConfig repLines :=
    compilerOutput_of_all (by with_unfolding_all decide) (by with_unfolding_all decide)
  refine ⟨houtput, ?_, fun h => ?_⟩
  · rintro before raw after hsplit hmarker
    have hall : ((List.range repLines.length).all fun i =>
        !isMarker (repLines.getD i []) ||
          isStartproc (repLines.getD i []) == !inRegion (repLines.take i)) = true := by
      with_unfolding_all decide
    have hplace := List.all_eq_true.mp hall before.length (List.mem_range.mpr (by simp [hsplit]))
    rw [hsplit, List.take_left] at hplace
    simpa [hmarker] using hplace
  · have hcovered := h _ _ _ _ hfunction (by with_unfolding_all decide)
    refine hcovered.ret [] (chars "\trep ret\n") [] rfl (by with_unfolding_all decide)
      (by with_unfolding_all decide) (by with_unfolding_all decide) ?_
    exact (writtenAs_other_return callConfig _ (by with_unfolding_all decide)
      (by with_unfolding_all decide) (by with_unfolding_all decide)).mem

end FlashStack.As
