/-
A function gets the prologue and its epilogues, or neither.

The prologue stores the return address in the shadow slot and the epilogue jumps to what is
there, so a function with one and not the other either crashes or returns unprotected. The
loop decides about both from the same three flags, once at the startproc line and once at
each return; what must be shown is that no line in between changes them.

* `emitted_startproc`, `writtenAs_ret`: what stands for a startproc line and for a return;
* `region_state`: inside a function, no line changes what was decided at its startproc line,
  by induction on the lines of the body;
* `pairing`: so the prologue and the epilogues go together, and no other line is given the
  prologue.

The body must not hold the label of another function (`NoInnerLabel`), which is where the
flags are set. Returns in a skipped assembly block or in Intel syntax are copied in both
cases; `Protected` says so. That the same function has been noticed at all is the subject of
coverage.
-/

import FlashStack.As.Conservation
import FlashStack.As.Tracking

namespace FlashStack.As

open Lib.CString Lib.Editor

/-! ### The lines of a function -/

/-- A startproc or an endproc line, as the function tells them: with the newline behind. -/
def isMarker (raw : Line) : Bool := isStartproc raw || isEndproc raw

/-- The line behind `before` is in a function: the last marker is a startproc line. -/
def inRegion (before : List Line) : Bool :=
  (lastPlace (fun _ raw => isMarker raw) before).any fun place => isStartproc place.2

/-- No label of a function stands in a function. The loop would take its flags from such a label,
and the returns behind it would be treated by them. -/
def NoInnerLabel (lines : List Line) : Prop :=
  ∀ before raw after, lines = before ++ raw :: after → inRegion before = true →
    isFunctionLabel raw = false

/-- The iteration of `raw` behind `before` writes `block`, between comments. The comments are
those of the draws, and may be none. -/
def WrittenAs (cfg : Config) (before : List Line) (raw : Line) (block : List Line) : Prop :=
  ∃ front back, emitted cfg before raw = front ++ block ++ back ∧
    ∀ text ∈ front ++ back, isComment text = true

/-- The function has the prologue, and its returns are epilogues where no assembly block and
no Intel syntax is being skipped. -/
structure Protected (cfg : Config) (before body : List Line) : Prop where
  prologue : emitted cfg before spaCfiStartproc = spaCfiStartproc :: standardPrologue
  epilogue : ∀ front raw back, body = front ++ raw :: back → isRet raw = true →
    (stateAfter cfg (before ++ spaCfiStartproc :: front)).skipApp = false →
    (stateAfter cfg (before ++ spaCfiStartproc :: front)).skipIntel = false →
    WrittenAs cfg (before ++ spaCfiStartproc :: front) raw standardEpilogue

/-- The function has no prologue, and its returns are copied, so that it returns by the address on
its stack as without the instrumentation. -/
structure Unprotected (cfg : Config) (before body : List Line) : Prop where
  entry : ¬ standardPrologue <:+: emitted cfg before spaCfiStartproc
  prologue : ∀ front raw back, body = front ++ raw :: back →
    ¬ standardPrologue <:+: emitted cfg (before ++ spaCfiStartproc :: front) raw
  ret : ∀ front raw back, body = front ++ raw :: back → isRet raw = true →
    WrittenAs cfg (before ++ spaCfiStartproc :: front) raw [raw]

/-! ### What stands for the two ends of a function -/

/-- The settings under which functions are protected: a 64-bit file that is not passed through.
The option for calls is another one. -/
def Config.active (cfg : Config) : Bool := !cfg.passThru && cfg.use64bit

theorem functionEntry_of_not_exempt {s : State} (h : exempt s = false) :
    functionEntry s = standardPrologue := by
  simp only [exempt, Bool.or_eq_false_iff] at h
  simp [functionEntry, h]

theorem rewriteRet_eq (cfg : Config) (s : State) (line : Line) :
    rewriteRet cfg s line = if retsRewritten cfg s && isRet line then
      some (if exempt s then [line] else standardEpilogue) else none := by
  unfold rewriteRet exempt
  cases s.inCustomizedFunc <;> cases s.inNoInstrFunc <;> cases s.onStackHandler <;> rfl

theorem emitted_startproc {cfg : Config} (h : cfg.active = true) (before : List Line) :
    emitted cfg before spaCfiStartproc =
      spaCfiStartproc :: functionEntry (stateAfter cfg before) := by
  obtain ⟨hpass, h64⟩ := (Bool.and_eq_true _ _).mp h
  have hstart : isStartproc spaCfiStartproc = true := by with_unfolding_all decide
  have hbook : bookkept cfg (stateAfter cfg before) spaCfiStartproc = false := by
    simp [bookkept, hstart, h64]
  have htrampoline : (dumpTrampoline cfg (stateAfter cfg before) spaCfiStartproc).2 = [] := by
    have halpha : (charAt spaCfiStartproc 1).isAlpha = false := by with_unfolding_all decide
    simp [dumpTrampoline, halpha]
  rw [emitted, step, rewriteWriteMask_startproc, stepLine_eq, hbook, if_neg Bool.false_ne_true,
    htrampoline, written, hstart, hpass, h64]
  rfl

theorem isRet_not_marker {raw : Line} (h : isRet raw = true) :
    isStartproc raw = false ∧ isEndproc raw = false := by
  have hone : charAt raw 1 ≠ '.' := fun hdot => by
    rw [isRet_false_of_dot hdot] at h
    exact Bool.false_ne_true h
  exact ⟨isStartproc_false hone, isEndproc_false hone⟩

theorem rewriteWriteMask_ret {raw : Line} (h : '\n' ∉ raw.dropLast) (hret : isRet raw = true) :
    rewriteWriteMask raw = raw := by
  have hgcc : rewriteWriteMask spaGccRet = spaGccRet := by with_unfolding_all decide
  have hclang : rewriteWriteMask spaClangRetq = spaClangRetq := by with_unfolding_all decide
  rcases eq_of_isRet h hret with rfl | rfl
  · exact hgcc
  · exact hclang

/-- **Returns.** The epilogue stands for a return of a function that is not exempt, where
returns are replaced. -/
theorem writtenAs_ret (cfg : Config) (before : List Line) {raw : Line} (h : '\n' ∉ raw.dropLast)
    (hret : isRet raw = true) :
    WrittenAs cfg before raw
      (if retsRewritten cfg (stateAfter cfg before) && !exempt (stateAfter cfg before) then
        standardEpilogue else [raw]) := by
  obtain ⟨front, back, hout, hcomments⟩ := stepLine_out cfg (stateAfter cfg before) raw
  refine ⟨front, back, ?_, hcomments⟩
  have hcall : startsWith raw spaCallqNoStar = false := by
    have hgcc : startsWith spaGccRet spaCallqNoStar = false := by with_unfolding_all decide
    have hclang : startsWith spaClangRetq spaCallqNoStar = false := by with_unfolding_all decide
    rcases eq_of_isRet h hret with rfl | rfl
    · exact hgcc
    · exact hclang
  have hwritten : written cfg (stateAfter cfg before) raw =
      if retsRewritten cfg (stateAfter cfg before) && !exempt (stateAfter cfg before) then
        standardEpilogue else [raw] := by
    simp only [written, (isRet_not_marker hret).1, rewriteCall_eq_none hcall, rewriteRet_eq, hret,
      Bool.and_true, Bool.false_and, Bool.false_eq_true, if_false, Option.getD_none]
    cases retsRewritten cfg (stateAfter cfg before) <;> cases exempt (stateAfter cfg before) <;> rfl
  rw [emitted, step, rewriteWriteMask_ret h hret, hout, hwritten]

/-! ### From the startproc line to the last return -/

theorem inRegion_concat (before : List Line) (raw : Line) :
    inRegion (before ++ [raw]) = if isMarker raw then isStartproc raw else inRegion before := by
  rw [inRegion, lastPlace_concat]
  split <;> rfl

/-- The variable `start2end` tells whether the line is in a function. The last marker decides,
whatever else stands there. -/
theorem run_start2end (cfg : Config) {s : State} {part : List Line}
    (h : ∀ raw ∈ part, IsLine raw) (hs : s.start2end = false) :
    (run cfg s part).st.start2end = inRegion part := by
  induction part using List.reverseRecOn with
  | nil => exact hs
  | append_singleton part raw ih =>
      have hraw := (h raw (by simp)).newline
      rw [run_concat, step, stepLine_start2end, inRegion_concat,
        ih fun line hmem => h line (List.mem_append_left _ hmem),
        isStartproc_rewriteWriteMask hraw, isEndproc_rewriteWriteMask hraw, isMarker]
      by_cases hstart : isStartproc raw = true
      · simp [hstart, isEndproc_of_isStartproc hstart]
      · rw [Bool.not_eq_true] at hstart
        cases hend : isEndproc raw <;> simp [hstart]

theorem stateAfter_start2end (cfg : Config) {before : List Line} (h : ∀ raw ∈ before, IsLine raw) :
    (stateAfter cfg before).start2end = inRegion before := run_start2end cfg h rfl

/-- **Inside a function** the exemption stays as it was at the startproc line. -/
theorem region_state {cfg : Config} (hpass : cfg.passThru = false) {before front : List Line}
    (hlines : ∀ raw ∈ front, IsLine raw) (hlabels : ∀ raw ∈ front, isFunctionLabel raw = false) :
    exempt (stateAfter cfg (before ++ spaCfiStartproc :: front)) =
      exempt (stateAfter cfg before) := by
  have hone : ∀ before raw, IsLine raw → isFunctionLabel raw = false →
      exempt (stateAfter cfg (before ++ [raw])) = exempt (stateAfter cfg before) := by
    intro before raw hraw hlabel
    have hno : noticesLabel cfg (stateAfter cfg before) (rewriteWriteMask raw) = false := by
      refine Bool.eq_false_iff.mpr fun hyes => ?_
      have hform := isFunctionLabel_of_noticesLabel hyes
      rw [isFunctionLabel_rewriteWriteMask hraw.newline, hlabel] at hform
      exact Bool.false_ne_true hform
    rw [stateAfter_concat, step, stepLine_exempt hpass, hno, if_neg Bool.false_ne_true]
  induction front using List.reverseRecOn with
  | nil => exact hone before _ isLine_startproc (by with_unfolding_all decide)
  | append_singleton front raw ih =>
      have hsplit : before ++ spaCfiStartproc :: (front ++ [raw]) =
          before ++ spaCfiStartproc :: front ++ [raw] := by simp
      rw [hsplit, hone _ raw (hlines raw (by simp)) (hlabels raw (by simp))]
      exact ih (fun line hmem => hlines line (List.mem_append_left _ hmem))
        fun line hmem => hlabels line (List.mem_append_left _ hmem)

/-! ### No other line is given the prologue -/

theorem not_isComment_standardPrologue : ∀ text ∈ standardPrologue, ¬ isComment text = true := by
  with_unfolding_all decide

/-- A line that differs from the first of the run is passed over. -/
theorem infix_of_head_ne {x y : Line} {xs ys : List Line} (hne : x ≠ y)
    (h : x :: xs <:+: y :: ys) : x :: xs <:+: ys :=
  (List.infix_cons_iff.mp h).resolve_left fun hpre => hne (List.cons_prefix_cons.mp hpre).1

/-- So is a line before one that differs from the second. -/
theorem infix_of_second_ne {x x' y y' : Line} {xs ys : List Line} (hne : x' ≠ y')
    (h : x :: x' :: xs <:+: y :: y' :: ys) : x :: x' :: xs <:+: y' :: ys :=
  (List.infix_cons_iff.mp h).resolve_left fun hpre =>
    hne (List.cons_prefix_cons.mp (List.cons_prefix_cons.mp hpre).2).1

theorem not_infix_callBlock {line : Line} {block : List Line} (h : IsCallBlock line block) :
    ¬ standardPrologue <:+: block := by
  intro hin
  cases h with
  | direct =>
      have htail := infix_of_second_ne (by with_unfolding_all decide) <|
        infix_of_head_ne (by with_unfolding_all decide) <|
        infix_of_head_ne (by with_unfolding_all decide) <|
        infix_of_head_ne (by with_unfolding_all decide) hin
      have hshort := htail.length_le
      exact absurd hshort (by with_unfolding_all decide)
  | indirect =>
      have htail := infix_of_second_ne (by with_unfolding_all decide) hin
      exact absurd htail (by with_unfolding_all decide)

theorem not_infix_functionEntry {s : State} (h : exempt s = true) :
    ¬ standardPrologue <:+: spaCfiStartproc :: functionEntry s := by
  have hnone : ¬ standardPrologue <:+: [spaCfiStartproc] := by with_unfolding_all decide
  have hhandler : ¬ standardPrologue <:+:
      spaCfiStartproc :: entryCall (chars "unsw_inc_asm_js_crash_cnt") := by
    with_unfolding_all decide
  have hcustomized : ¬ standardPrologue <:+:
      spaCfiStartproc :: entryCall (chars "init_main_shadow_stack") := by with_unfolding_all decide
  unfold functionEntry
  split
  · exact hnone
  · split
    · exact hhandler
    · split
      · exact hcustomized
      · simp_all [exempt]

/-- The prologue is written for a startproc line only. -/
theorem not_infix_emitted (cfg : Config) (before : List Line) {raw : Line}
    (h : '\n' ∉ raw.dropLast)
    (hentry : cfg.active = true → isStartproc raw = true → exempt (stateAfter cfg before) = true) :
    ¬ standardPrologue <:+: emitted cfg before raw := by
  intro hin
  by_cases hstart : cfg.active = true ∧ isStartproc raw = true
  · obtain rfl := eq_of_isStartproc h hstart.2
    rw [emitted_startproc hstart.1] at hin
    exact not_infix_functionEntry (hentry hstart.1 hstart.2) hin
  · obtain ⟨front, back, hout, hcomments⟩ :=
      stepLine_out cfg (stateAfter cfg before) (rewriteWriteMask raw)
    rw [emitted, step, hout] at hin
    have hpiece := infix_of_infix_between not_isComment_standardPrologue
      (by with_unfolding_all decide) hcomments hin
    have hstands := stands_written cfg (stateAfter cfg before) h
    generalize written cfg (stateAfter cfg before) (rewriteWriteMask raw) = piece
      at hpiece hstands
    cases hstands with
    | copied =>
        have hlength : standardPrologue.length = 3 := by with_unfolding_all decide
        have hshort := hpiece.length_le
        rw [hlength, List.length_singleton] at hshort
        omega
    | entered hpass h64 hraw _ =>
        refine hstart ⟨by simp [Config.active, hpass, h64], ?_⟩
        rw [hraw]
        with_unfolding_all decide
    | returned => exact absurd hpiece (by with_unfolding_all decide)
    | called _ _ _ _ hblock => exact not_infix_callBlock hblock hpiece

/-! ### Pairing -/

theorem inRegion_of_startproc (before : List Line) {front : List Line}
    (h : ∀ raw ∈ front, isMarker raw = false) :
    inRegion (before ++ spaCfiStartproc :: front) = true := by
  have hmarker : isMarker spaCfiStartproc = true := by with_unfolding_all decide
  have hstart : isStartproc spaCfiStartproc = true := by with_unfolding_all decide
  induction front using List.reverseRecOn with
  | nil => rw [inRegion_concat, if_pos hmarker, hstart]
  | append_singleton front raw ih =>
      have hsplit : before ++ spaCfiStartproc :: (front ++ [raw]) =
          before ++ spaCfiStartproc :: front ++ [raw] := by simp
      rw [hsplit, inRegion_concat, h raw (by simp), if_neg Bool.false_ne_true]
      exact ih fun line hmem => h line (List.mem_append_left _ hmem)

/-- Without the settings that protect functions, no return is replaced. -/
theorem retsRewritten_of_not_active {cfg : Config} (h : cfg.active = false) (s : State) :
    retsRewritten cfg s = false := by
  unfold Config.active at h
  unfold retsRewritten
  cases hpass : cfg.passThru <;> cases h64 : cfg.use64bit <;> simp_all

/-- **Pairing.** A function is protected at its entry and at its returns, or at neither; no
return outside every function is replaced. -/
theorem pairing (cfg : Config) {lines : List Line} (hlines : ∀ raw ∈ lines, IsLine raw)
    (hlabels : NoInnerLabel lines) :
    (∀ before body rest, lines = before ++ spaCfiStartproc :: (body ++ rest) →
      (∀ raw ∈ body, isMarker raw = false) →
        Protected cfg before body ∨ Unprotected cfg before body) ∧
      ∀ before raw after, lines = before ++ raw :: after → isRet raw = true →
        inRegion before = false → WrittenAs cfg before raw [raw] := by
  constructor
  · intro before body rest hsplit hbody
    -- What holds at every place of the function.
    have hplace : ∀ front raw back, body = front ++ raw :: back → IsLine raw ∧
        inRegion (before ++ spaCfiStartproc :: front) = true ∧
        (∀ line ∈ before ++ spaCfiStartproc :: front, IsLine line) ∧
        ∀ line ∈ front, isFunctionLabel line = false := by
      rintro front raw back rfl
      have hregion : ∀ part, (∃ tail, front = part ++ tail) →
          inRegion (before ++ spaCfiStartproc :: part) = true := by
        rintro part ⟨tail, rfl⟩
        exact inRegion_of_startproc before fun line hmem => hbody line (by simp [hmem])
      refine ⟨hlines raw (by simp [hsplit]), hregion front ⟨[], by simp⟩, ?_, ?_⟩
      · intro line hmem
        refine hlines line ?_
        rw [hsplit]
        simp only [List.mem_append, List.mem_cons] at hmem ⊢
        tauto
      · intro line hmem
        obtain ⟨part, tail, rfl⟩ := List.append_of_mem hmem
        exact hlabels (before ++ spaCfiStartproc :: part) line (tail ++ raw :: back ++ rest)
          (by rw [hsplit]; simp) (hregion part ⟨_, rfl⟩)
    by_cases hactive : cfg.active = true ∧ exempt (stateAfter cfg before) = false
    · obtain ⟨hactive, hexempt⟩ := hactive
      obtain ⟨hpass, h64⟩ := (Bool.and_eq_true _ _).mp hactive
      rw [Bool.not_eq_true'] at hpass
      refine Or.inl ⟨?_, ?_⟩
      · rw [emitted_startproc hactive, functionEntry_of_not_exempt hexempt]
      · intro front raw back hcut hret happ hintel
        obtain ⟨hraw, hinside, hbefore, hnone⟩ := hplace front raw back hcut
        have hfront : ∀ line ∈ front, IsLine line := fun line hmem => hbefore line (by simp [hmem])
        have hwritten := writtenAs_ret cfg (before ++ spaCfiStartproc :: front) hraw.newline hret
        have hrets : retsRewritten cfg (stateAfter cfg (before ++ spaCfiStartproc :: front)) =
            true := by
          rw [retsRewritten, hpass, h64, happ, hintel, stateAfter_start2end cfg hbefore, hinside]
          rfl
        rwa [hrets, region_state hpass hfront hnone, hexempt] at hwritten
    · have hentry : cfg.active = true → exempt (stateAfter cfg before) = true :=
        fun h => by simpa using fun hno => hactive ⟨h, hno⟩
      refine Or.inr ⟨?_, ?_, ?_⟩
      · exact not_infix_emitted cfg before isLine_startproc.newline fun h _ => hentry h
      · intro front raw back hcut
        refine not_infix_emitted cfg _ (hplace front raw back hcut).1.newline fun _ hstart => ?_
        have hno := hbody raw (by simp [hcut])
        rw [isMarker, hstart] at hno
        exact absurd hno (by simp)
      · intro front raw back hcut hret
        obtain ⟨hraw, -, hbefore, hnone⟩ := hplace front raw back hcut
        have hfront : ∀ line ∈ front, IsLine line := fun line hmem => hbefore line (by simp [hmem])
        have hwritten := writtenAs_ret cfg (before ++ spaCfiStartproc :: front) hraw.newline hret
        by_cases h : cfg.active = true
        · have hpass : cfg.passThru = false := by simpa using ((Bool.and_eq_true _ _).mp h).1
          rwa [region_state hpass hfront hnone, hentry h, Bool.not_true, Bool.and_false] at hwritten
        · rwa [retsRewritten_of_not_active (Bool.eq_false_iff.mpr h)] at hwritten
  · intro before raw after hsplit hret hinside
    have hwritten := writtenAs_ret cfg before (hlines raw (by simp [hsplit])).newline hret
    have hbefore : ∀ line ∈ before, IsLine line :=
      fun line hmem => hlines line (by simp [hsplit, hmem])
    have hrets : retsRewritten cfg (stateAfter cfg before) = false := by
      rw [retsRewritten, stateAfter_start2end cfg hbefore, hinside, Bool.and_false]
    rwa [hrets] at hwritten

/-- Decided on concrete lines. -/
theorem noInnerLabel_of_all {lines : List Line}
    (h : ((List.range lines.length).all fun i =>
      !inRegion (lines.take i) || !isFunctionLabel (lines.getD i [])) = true) :
    NoInnerLabel lines := by
  rintro before raw after rfl hinside
  have hplace := List.all_eq_true.mp h before.length (List.mem_range.mpr (by simp))
  rw [List.take_left, hinside] at hplace
  simpa using hplace

theorem pairing_callLines :
    (∀ before body rest, callLines = before ++ spaCfiStartproc :: (body ++ rest) →
      (∀ raw ∈ body, isMarker raw = false) →
        Protected callConfig before body ∨ Unprotected callConfig before body) ∧
      ∀ before raw after, callLines = before ++ raw :: after → isRet raw = true →
        inRegion before = false → WrittenAs callConfig before raw [raw] :=
  pairing callConfig (isLine_of_all (by with_unfolding_all decide))
    (noInnerLabel_of_all (by with_unfolding_all decide))

end FlashStack.As
