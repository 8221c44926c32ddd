/-
Which of the reported names are labels of code that starts with the prologue.

The names go to the second pass, which lets calls skip the prologue: `callq NAME+19`. That enters
the function behind its prologue only if the assembler takes the reported text for a label, and
if the first bytes behind the label, in the section of the label, are those of the prologue. Which
lines define labels, add bytes or change the section is the assembler's business, and a parameter
here (`Scanner`): an open block comment, a condition that does not hold, data and padding are in
it. `Assembles` says what is relied on for the lines that the function writes itself.

* `report_cases`: a name is reported at a label line outside every function;
* `after_emitted`, `fills_emitted`: where a line leaves the assembler, and which bytes it adds,
  once the function has been through it;
* `entersPrologue_iff`: the code behind the label starts with the prologue when the name is a
  label, a startproc line comes before the first bytes, and no table has the last label noticed
  before it;
* `handler_reported`: the name of a signal handler is reported, and has no prologue.

Not said here: that the assembler accepts the file, and that the name is defined once.
-/

import FlashStack.As.Coverage
import FlashStack.Lib.Sections

namespace FlashStack.As

open Lib.CString Lib.Editor Lib.Sections

variable {σ : Type}

/-! ### The assembler -/

/-- The line is a call for the assembler, and no more than that: it adds bytes to the section of
the place, and the state stays as it is. -/
structure IsCallAt (asm : Scanner σ) (s : σ) (line : Line) : Prop where
  reads : asm.reads s = true
  next : asm.next s line = s
  emits : ∀ sect, asm.emits s line sect = (asm.place s == sect)

/-- What the assembler makes of the lines that the function writes: its comments and the
startproc line add no bytes, what it inserts is code, and the blocks for a call are code where
the call was. The mask normalisation makes no difference. -/
structure Assembles (asm : Scanner σ) : Prop where
  comment : ∀ text ∈ insertedComments, asm.IsNote text
  startproc : asm.IsNote spaCfiStartproc
  mask : ∀ line, IsLine line → ∀ s, asm.next s (rewriteWriteMask line) = asm.next s line ∧
    asm.emits s (rewriteWriteMask line) = asm.emits s line ∧
    asm.defines s (rewriteWriteMask line) = asm.defines s line
  entry : ∀ block, IsEntryBlock block → ∀ text ∈ block, asm.IsCode text
  ret : asm.IsCode spaGccRet ∧ asm.IsCode spaClangRetq
  epilogue : ∀ text ∈ standardEpilogue, asm.IsCode text
  call : ∀ s line block, startsWith line spaCallqNoStar = true → IsCallAt asm s line →
    IsCallBlock line block →
      asm.after s block = s ∧ ∀ sect, asm.fills s block sect = (asm.place s == sect)

/-- The lines are lines, and one that starts with `callq` is a call, with no directive
behind it. -/
structure AssemblyInput (asm : Scanner σ) (lines : List Line) : Prop where
  line : ∀ raw ∈ lines, IsLine raw
  call : ∀ front raw after, lines = front ++ raw :: after → startsWith raw spaCallqNoStar = true →
    IsCallAt asm (asm.after asm.start front) raw ∧ mentions raw = false

/-- Where the assembler is behind what is written for the lines `front`. It has read the output of
the second pass, not the input. -/
def scanned (asm : Scanner σ) (cfg : Config) (front : List Line) : σ :=
  asm.after asm.start (run cfg {} front).out

/-- `callq name+19` enters at the first original instruction: the label line `raw` defines the
name, and the first bytes behind it in its section are those of the prologue that is written at
a startproc line. `front` and `after` are the lines before and behind `raw`. -/
structure EntersPrologue (cfg : Config) (asm : Scanner σ) (front : List Line) (raw : Line)
    (after : List Line) (name : Line) : Prop where
  entry : ∃ sect, asm.EndsAt (scanned asm cfg front) (emitted cfg front raw) name sect ∧
    ∃ between tail, after = between ++ spaCfiStartproc :: tail ∧
      (∀ part line rest, between = part ++ line :: rest →
        asm.fills (scanned asm cfg (front ++ raw :: part))
          (emitted cfg (front ++ raw :: part) line) sect = false) ∧
      asm.reads (scanned asm cfg (front ++ raw :: between)) = true ∧
      asm.place (scanned asm cfg (front ++ raw :: between)) = sect ∧
      emitted cfg (front ++ raw :: between) spaCfiStartproc = spaCfiStartproc :: standardPrologue

/-- The line adds nothing to the section: neither bytes of its own nor, at a startproc line that
is read there, those of an entry. -/
structure AddsNothing (asm : Scanner σ) (s : σ) (line sect : Line) (noEntry : Bool) : Prop where
  emits : asm.emits s line sect = false
  entry : isStartproc line = true → asm.reads s = true → asm.place s = sect → noEntry = true

/-- In the input, the name is a label at `raw`, in front of a startproc line of the same section
with nothing in between that adds bytes there, and the last label noticed before that line is in
no table. A startproc line of a function without any entry may come before. -/
structure Agrees (asm : Scanner σ) (front : List Line) (raw : Line) (after : List Line)
    (name : Line) : Prop where
  label : asm.defines (asm.after asm.start front) raw name = true
  entry : ∃ sect, asm.place (asm.after asm.start front) = sect ∧
    asm.emits (asm.after asm.start front) raw sect = false ∧
    ∃ between tail, after = between ++ spaCfiStartproc :: tail ∧
      (∀ part line rest, between = part ++ line :: rest →
        AddsNothing asm (asm.after asm.start (front ++ raw :: part)) line sect
          (tableAt isNoInstrFunc (isNoInstrFunc raw) true part)) ∧
      asm.reads (asm.after asm.start (front ++ raw :: between)) = true ∧
      asm.place (asm.after asm.start (front ++ raw :: between)) = sect ∧
      tableAt isExempt (isExempt raw) true between = false

/-! ### What a line adds -/

theorem functionEntry_eq_nil_iff {s : State} :
    functionEntry s = [] ↔ s.inNoInstrFunc = true := by
  unfold functionEntry
  cases s.inNoInstrFunc <;> cases s.onStackHandler <;> cases s.inCustomizedFunc <;>
    simp [entryCall, standardPrologue]

theorem IsEntryBlock.ne_nil {block : List Line} (h : IsEntryBlock block) : block ≠ [] := by
  cases h with
  | standard => exact List.cons_ne_nil _ _
  | handler => exact List.cons_ne_nil _ _
  | customized => exact List.cons_ne_nil _ _

/-- A startproc line adds the bytes of its entry, where it is read. -/
theorem fills_startproc {asm : Scanner σ} (hasm : Assembles asm) {cfg : Config}
    (hactive : cfg.active = true) (before : List Line) (s : σ) (sect : Line) :
    asm.after s (emitted cfg before spaCfiStartproc) = s ∧
      asm.fills s (emitted cfg before spaCfiStartproc) sect =
        (!(stateAfter cfg before).inNoInstrFunc && (asm.reads s && asm.place s == sect)) := by
  rw [emitted_startproc hactive, Scanner.after_cons, Scanner.fills, hasm.startproc.next,
    hasm.startproc.emits, Bool.false_or]
  rcases functionEntry_cases (stateAfter cfg before) with hnil | hblock
  · rw [functionEntry_eq_nil_iff.mp hnil, hnil]
    exact ⟨rfl, rfl⟩
  · have hsome : (stateAfter cfg before).inNoInstrFunc = false :=
      Bool.eq_false_iff.mpr fun h => hblock.ne_nil (functionEntry_eq_nil_iff.mpr h)
    rw [hsome, Scanner.after_code (hasm.entry _ hblock),
      Scanner.fills_code hblock.ne_nil (hasm.entry _ hblock)]
    exact ⟨rfl, rfl⟩

theorem IsCallAt.normalised {asm : Scanner σ} (hasm : Assembles asm) {s : σ} {raw : Line}
    (hraw : IsLine raw) (h : IsCallAt asm s raw) : IsCallAt asm s (normalised raw) := by
  obtain ⟨hnext, hemits, -⟩ := hasm.mask raw hraw s
  rw [← rewriteWriteMask_eq_normalised hraw.newline]
  exact ⟨h.reads, hnext.trans h.next, fun sect => (congrFun hemits sect).trans (h.emits sect)⟩

/-- **A line that is no startproc line** leaves the assembler where it would be without the
function, and adds bytes where it would add some. -/
theorem fills_other {asm : Scanner σ} (hasm : Assembles asm) (cfg : Config) (before : List Line)
    {raw : Line} (hraw : IsLine raw) (hstart : isStartproc raw = false) (s : σ)
    (hcall : startsWith raw spaCallqNoStar = true → IsCallAt asm s raw) (sect : Line) :
    asm.after s (emitted cfg before raw) = asm.next s raw ∧
      asm.fills s (emitted cfg before raw) sect = asm.emits s raw sect := by
  obtain ⟨front, back, hout, hnotes⟩ :=
    stepLine_inserted cfg (stateAfter cfg before) (rewriteWriteMask raw)
  have hfront : ∀ text ∈ front, asm.IsNote text :=
    fun text hmem => hasm.comment text (hnotes text (List.mem_append_left _ hmem))
  have hback : ∀ text ∈ back, asm.IsNote text :=
    fun text hmem => hasm.comment text (hnotes text (List.mem_append_right _ hmem))
  rw [emitted, step, hout, Scanner.after_between hfront hback, Scanner.fills_between hfront hback]
  obtain ⟨hnext, hemits, -⟩ := hasm.mask raw hraw s
  have hstands := stands_written cfg (stateAfter cfg before) hraw.newline
  generalize written cfg (stateAfter cfg before) (rewriteWriteMask raw) = piece at hstands
  cases hstands with
  | copied =>
      rw [← rewriteWriteMask_eq_normalised hraw.newline, Scanner.after_cons, Scanner.fills, hnext,
        hemits]
      exact ⟨rfl, Bool.or_false _⟩
  | entered _ _ heq _ =>
      rw [heq] at hstart
      exact absurd hstart (by with_unfolding_all decide)
  | returned _ _ hret =>
      have hcode : asm.IsCode raw := by
        rcases hret with rfl | rfl
        · exact hasm.ret.1
        · exact hasm.ret.2
      have hne : standardEpilogue ≠ [] := List.cons_ne_nil _ _
      rw [Scanner.after_code hasm.epilogue, Scanner.fills_code hne hasm.epilogue, hcode.next,
        hcode.emits]
      exact ⟨rfl, rfl⟩
  | called _ _ _ hcallq hblock =>
      have hat := hcall hcallq
      have hcallq' : startsWith (normalised raw) spaCallqNoStar = true := by
        rw [← rewriteWriteMask_eq_normalised hraw.newline,
          startsWith_rewriteWriteMask hraw.newline (by with_unfolding_all decide)]
        exact hcallq
      obtain ⟨hafter, hfills⟩ := hasm.call s _ _ hcallq' (hat.normalised hasm hraw) hblock
      rw [hafter, hfills, hat.next, hat.emits]
      exact ⟨rfl, rfl⟩

/-- **What an iteration adds**: the bytes of its line, and those of an entry. -/
theorem fills_emitted {asm : Scanner σ} (hasm : Assembles asm) {cfg : Config}
    (hactive : cfg.active = true) (before : List Line) {raw : Line} (hraw : IsLine raw) (s : σ)
    (hcall : startsWith raw spaCallqNoStar = true → IsCallAt asm s raw) (sect : Line) :
    asm.after s (emitted cfg before raw) = asm.next s raw ∧
      (asm.fills s (emitted cfg before raw) sect = false ↔
        AddsNothing asm s raw sect (stateAfter cfg before).inNoInstrFunc) := by
  by_cases hstart : isStartproc raw = true
  · obtain rfl := eq_of_isStartproc hraw.newline hstart
    obtain ⟨hafter, hfills⟩ := fills_startproc hasm hactive before s sect
    refine ⟨hafter.trans (hasm.startproc.next s).symm, ?_⟩
    rw [hfills]
    constructor
    · intro h
      refine ⟨hasm.startproc.emits s sect, fun _ hreads hplace => ?_⟩
      simpa [hreads, hplace] using h
    · intro h
      have hentry := h.entry hstart
      cases hreads : asm.reads s with
      | false => simp
      | true =>
          by_cases hplace : asm.place s = sect
          · simp [hentry hreads hplace]
          · simp [hplace]
  · rw [Bool.not_eq_true] at hstart
    obtain ⟨hafter, hfills⟩ := fills_other hasm cfg before hraw hstart s hcall sect
    refine ⟨hafter, ?_⟩
    rw [hfills]
    exact ⟨fun h => ⟨h, fun hyes => by simp [hstart] at hyes⟩, fun h => h.emits⟩

/-- **The loop** leaves the assembler where the input does: behind the same lines of both it is in
the same state, by induction on the lines. -/
theorem behind_eq {asm : Scanner σ} (hasm : Assembles asm) {cfg : Config}
    (hactive : cfg.active = true) {lines : List Line} (hinput : AssemblyInput asm lines)
    {front back : List Line} (hsplit : lines = front ++ back) :
    scanned asm cfg front = asm.after asm.start front := by
  induction front using List.reverseRecOn generalizing back with
  | nil => rfl
  | append_singleton front raw ih =>
      have hcut : lines = front ++ raw :: back := by simp [hsplit]
      have hraw := hinput.line raw (by simp [hcut])
      have hcall := fun h => (hinput.call front raw back hcut h).1
      have hout : (run cfg {} (front ++ [raw])).out =
          (run cfg {} front).out ++ emitted cfg front raw := by
        rw [run_append]
        simp [run, emitted, stateAfter]
      have hbehind := ih hcut
      rw [scanned] at hbehind
      rw [scanned, hout, Scanner.after_append, hbehind,
        (fills_emitted hasm hactive front hraw _ hcall []).1]
      simp

/-! ### The variables behind a reported label -/

/-- The function reports what its iterations report, and its trailer reports nothing. -/
theorem mem_report_iff {cfg : Config} {lines : List Line} {name : Line} :
    name ∈ (addInstrumentation cfg lines).report ↔
      ∃ front raw after, lines = front ++ raw :: after ∧
        name ∈ (step cfg (stateAfter cfg front) raw).report := by
  change name ∈ (run cfg {} lines).report ↔ _
  induction lines using List.reverseRecOn with
  | nil => simp [run]
  | append_singleton lines raw ih =>
      have hlast : (run cfg {} (lines ++ [raw])).report =
          (run cfg {} lines).report ++ (step cfg (stateAfter cfg lines) raw).report := by
        rw [run_append]
        simp [run, stateAfter]
      rw [hlast, List.mem_append, ih]
      constructor
      · rintro (⟨front, other, after, rfl, hname⟩ | hname)
        · exact ⟨front, other, after ++ [raw], by simp, hname⟩
        · exact ⟨lines, raw, [], rfl, hname⟩
      · rintro ⟨front, other, after, hsplit, hname⟩
        cases after using List.reverseRecOn with
        | nil =>
            obtain ⟨rfl, hraw⟩ := List.append_inj' hsplit rfl
            obtain rfl := (List.cons.inj hraw).1
            exact Or.inr hname
        | append_singleton after last =>
            rw [← List.cons_append, ← List.append_assoc] at hsplit
            exact Or.inl ⟨front, other, after, (List.append_inj' hsplit rfl).1, hname⟩

/-- **Reports.** A name is reported at a label outside every function; then no text is being
skipped, and the tables decide about that label. -/
theorem report_cases {cfg : Config} (hactive : cfg.active = true) {front : List Line} {raw : Line}
    (hraw : IsLine raw) {name : Line}
    (hreport : name ∈ (step cfg (stateAfter cfg front) raw).report) :
    isFunctionLabel raw = true ∧
      let s := stateAfter cfg (front ++ [raw])
      s.instrOk = true ∧ s.skipCsect = false ∧ s.skipIntel = false ∧ s.skipApp = false ∧
        s.start2end = false ∧ exempt s = isExempt raw ∧ s.inNoInstrFunc = isNoInstrFunc raw := by
  have hpass : cfg.passThru = false := by simpa using ((Bool.and_eq_true _ _).mp hactive).1
  rw [stateAfter_concat]
  rw [step] at hreport ⊢
  have hnotices : noticesLabel cfg (stateAfter cfg front) (rewriteWriteMask raw) = true := by
    by_contra hno
    obtain ⟨-, -, -, hnil⟩ :=
      stepLine_of_not_noticesLabel (Or.inr (Bool.eq_false_iff.mpr hno))
    rw [hnil] at hreport
    exact absurd hreport List.not_mem_nil
  have hlabel := isFunctionLabel_of_noticesLabel hnotices
  rw [isFunctionLabel_rewriteWriteMask hraw.newline] at hlabel
  obtain ⟨s', -, hskipped, hst, heq⟩ := stepLine_of_noticesLabel hpass hnotices
  rw [heq, functionLabel] at hreport
  have houtside : s'.start2end = false := by
    by_contra hinside
    rw [Bool.not_eq_false] at hinside
    rw [hinside] at hreport
    exact absurd hreport List.not_mem_nil
  simp only [isSkipped, Bool.or_eq_false_iff, Bool.not_eq_false'] at hskipped
  obtain ⟨⟨⟨⟨⟨hintel, happ⟩, hcsect⟩, hok⟩, -⟩, -⟩ := hskipped
  rw [hst]
  refine ⟨hlabel, hok, hcsect, hintel, happ, houtside, ?_, ?_⟩
  · rw [← isExempt_rewriteWriteMask hraw.newline]
    simp [exempt, functionLabel, isExempt, houtside]
  · have hsame : isNoInstrFunc (rewriteWriteMask raw) = isNoInstrFunc raw :=
      isTargetFunc_rewriteWriteMask hraw.newline (by with_unfolding_all decide)
    simp [functionLabel, houtside, hsame]

/-! ### Agreement -/

/-- The label line is written as it is, between comments, so it is a label of the output too. -/
theorem emitted_label (cfg : Config) (front : List Line) {raw : Line} (hraw : IsLine raw)
    (hlabel : isFunctionLabel raw = true) :
    ∃ before behind, emitted cfg front raw = before ++ rewriteWriteMask raw :: behind ∧
      (∀ text ∈ before, text ∈ insertedComments) ∧ ∀ text ∈ behind, text ∈ insertedComments := by
  have hno : ∀ {pre : Line}, charAt pre 0 = '\t' → 0 < pre.length → startsWith raw pre = false :=
    fun hpre hne => startsWith_of_isFunctionLabel hlabel hpre hne
  have hnot : ∀ line ∈ [spaCfiStartproc, spaGccRet, spaClangRetq], raw ≠ line := by
    intro line hmem heq
    have hfixed : ∀ line ∈ [spaCfiStartproc, spaGccRet, spaClangRetq],
        charAt line 0 = '\t' ∧ 0 < line.length := by with_unfolding_all decide
    obtain ⟨hzero, hne⟩ := hfixed line hmem
    have hself := hno hzero hne
    rw [heq, startsWith_iff.mpr (List.prefix_refl line)] at hself
    exact Bool.false_ne_true hself.symm
  obtain ⟨before, behind, hout, hnotes⟩ :=
    stepLine_inserted cfg (stateAfter cfg front) (rewriteWriteMask raw)
  have hstands := stands_written cfg (stateAfter cfg front) hraw.newline
  generalize written cfg (stateAfter cfg front) (rewriteWriteMask raw) = piece at hstands hout
  have hpiece : piece = [rewriteWriteMask raw] := by
    cases hstands with
    | copied => rw [rewriteWriteMask_eq_normalised hraw.newline]
    | entered _ _ heq _ => exact absurd heq (hnot _ (by simp))
    | returned _ _ hret => rcases hret with h | h <;> exact absurd h (hnot _ (by simp))
    | called _ _ _ hcallq _ =>
        rw [hno (by with_unfolding_all decide) (by with_unfolding_all decide)] at hcallq
        exact absurd hcallq Bool.false_ne_true
  refine ⟨before, behind, ?_, fun text hmem => hnotes text (List.mem_append_left _ hmem),
    fun text hmem => hnotes text (List.mem_append_right _ hmem)⟩
  rw [emitted, step, hout, hpiece, List.append_assoc]
  rfl

/-- What the tables say behind a label at which a name is reported. -/
theorem tables_behind {cfg : Config} (hactive : cfg.active = true) {front : List Line} {raw : Line}
    (hraw : IsLine raw) {report : Line}
    (hreport : report ∈ (step cfg (stateAfter cfg front) raw).report) {part : List Line}
    (hpart : ∀ line ∈ part, IsLine line ∧ Quiet cfg line) :
    exempt (stateAfter cfg (front ++ raw :: part)) = tableAt isExempt (isExempt raw) true part ∧
      (stateAfter cfg (front ++ raw :: part)).inNoInstrFunc =
        tableAt isNoInstrFunc (isNoInstrFunc raw) true part := by
  obtain ⟨-, hok, hcsect, hintel, happ, houtside, hexempt, hnoInstr⟩ :=
    report_cases hactive hraw hreport
  have hrun : stateAfter cfg (front ++ raw :: part) =
      (run cfg (stateAfter cfg (front ++ [raw])) part).st := by
    have hcut : front ++ raw :: part = front ++ [raw] ++ part := by simp
    rw [hcut, stateAfter, run_append]
    rfl
  have htables := run_tableAt hactive hpart hcsect hintel happ houtside
  rwa [← hrun, hok, hexempt, hnoInstr] at htables

/-- Both are about the same places of the input: what the function adds is no label and changes no
section. -/
theorem entersPrologue_iff_agrees {asm : Scanner σ} (hasm : Assembles asm) {cfg : Config}
    (hactive : cfg.active = true) {lines : List Line} (hinput : AssemblyInput asm lines)
    {front : List Line} {raw : Line} {after : List Line} (hsplit : lines = front ++ raw :: after)
    {report : Line} (hreport : report ∈ (step cfg (stateAfter cfg front) raw).report)
    (name : Line) :
    EntersPrologue cfg asm front raw after name ↔ Agrees asm front raw after name := by
  have hraw : IsLine raw := hinput.line raw (by simp [hsplit])
  have hlabel := (report_cases hactive hraw hreport).1
  have hbehind := behind_eq hasm hactive hinput hsplit
  -- The label line defines in the output what it defines in the input.
  obtain ⟨before, behind, hemitted, hbefore, hbehindNotes⟩ := emitted_label cfg front hraw hlabel
  have hends : ∀ sect, asm.EndsAt (scanned asm cfg front) (emitted cfg front raw) name sect ↔
      asm.place (asm.after asm.start front) = sect ∧
        asm.defines (asm.after asm.start front) raw name = true ∧
        asm.emits (asm.after asm.start front) raw sect = false := by
    intro sect
    obtain ⟨-, hemits, hdefines⟩ := hasm.mask raw hraw (asm.after asm.start front)
    rw [hemitted, hbehind, Scanner.endsAt_between_iff
      (fun text hmem => hasm.comment text (hbefore text hmem))
      (fun text hmem => hasm.comment text (hbehindNotes text hmem)), hemits, hdefines]
  -- So do the lines up to a startproc line, and the tables say what is written there.
  have hbetween : ∀ between tail, after = between ++ spaCfiStartproc :: tail →
      (∀ sect, (∀ part line rest, between = part ++ line :: rest →
          asm.fills (scanned asm cfg (front ++ raw :: part))
            (emitted cfg (front ++ raw :: part) line) sect = false) ↔
        ∀ part line rest, between = part ++ line :: rest →
          AddsNothing asm (asm.after asm.start (front ++ raw :: part)) line sect
            (tableAt isNoInstrFunc (isNoInstrFunc raw) true part)) ∧
      scanned asm cfg (front ++ raw :: between) =
        asm.after asm.start (front ++ raw :: between) ∧
      (emitted cfg (front ++ raw :: between) spaCfiStartproc =
          spaCfiStartproc :: standardPrologue ↔
        tableAt isExempt (isExempt raw) true between = false) := by
    rintro between tail rfl
    have hquiet : ∀ line ∈ between, IsLine line ∧ Quiet cfg line := by
      intro line hmem
      obtain ⟨part, rest, rfl⟩ := List.append_of_mem hmem
      have hcut : lines = (front ++ raw :: part) ++ line :: (rest ++ spaCfiStartproc :: tail) := by
        simp [hsplit]
      exact ⟨hinput.line line (by simp [hcut]), fun _ h => (hinput.call _ line _ hcut h).2⟩
    refine ⟨fun sect => forall_congr' fun part => forall_congr' fun line =>
      forall_congr' fun rest =>
      forall_congr' ?_, ?_, ?_⟩
    · rintro rfl
      have hcut : lines = (front ++ raw :: part) ++ line :: (rest ++ spaCfiStartproc :: tail) := by
        simp [hsplit]
      have hline := hinput.line line (by simp [hcut])
      have hcall := fun h => (hinput.call _ line _ hcut h).1
      have hpart : ∀ other ∈ part, IsLine other ∧ Quiet cfg other :=
        fun other hmem => hquiet other (by simp [hmem])
      have htables := (tables_behind hactive hraw hreport hpart).2
      rw [behind_eq hasm hactive hinput hcut,
        (fills_emitted hasm hactive _ hline _ hcall sect).2, htables]
    · exact behind_eq hasm hactive hinput
        (show lines = (front ++ raw :: between) ++ spaCfiStartproc :: tail by simp [hsplit])
    · rw [emitted_prologue_iff hactive, (tables_behind hactive hraw hreport hquiet).1]
  constructor
  · rintro ⟨sect, hlabelEnds, between, tail, hcut, hnothing, hreads, hplace, hentry⟩
    obtain ⟨hadds, hstate, hprologue⟩ := hbetween between tail hcut
    obtain ⟨hsect, hdefines, hemits⟩ := (hends sect).mp hlabelEnds
    rw [hstate] at hreads hplace
    exact ⟨hdefines, sect, hsect, hemits, between, tail, hcut, (hadds sect).mp hnothing, hreads,
      hplace, hprologue.mp hentry⟩
  · rintro ⟨hdefines, sect, hsect, hemits, between, tail, hcut, hnothing, hreads, hplace, htable⟩
    obtain ⟨hadds, hstate, hprologue⟩ := hbetween between tail hcut
    rw [← hstate] at hreads hplace
    exact ⟨sect, (hends sect).mpr ⟨hsect, hdefines, hemits⟩, between, tail, hcut,
      (hadds sect).mpr hnothing, hreads, hplace, hprologue.mpr htable⟩

/-- The test of the function itself for a line with an instruction: a tab and a letter. It does
not ask whether the letters name one. -/
def isInstruction (line : Line) : Bool := charAt line 0 == '\t' && (charAt line 1).isAlpha

/-- An assembler that knows two sections and data of one byte; its state is the section. -/
def smallScanner : Scanner Line where
  start := chars ".text"
  next sect line :=
    if startsWith line (chars "\t.text") then chars ".text"
    else if startsWith line (chars "\t.data") then chars ".data" else sect
  reads _ := true
  place sect := sect
  emits sect line other :=
    (isInstruction line || startsWith line (chars "\t.byte")) && sect == other
  defines _ line name := !name.contains '\x7d' && startsWith line (name ++ chars ":")

theorem not_startsWith_of_isInstruction {line : Line} (h : isInstruction line = true) (pre : Line) :
    startsWith line (chars "\t." ++ pre) = false := by
  have hdot : chars "\t." = ['\t', '.'] := by with_unfolding_all decide
  refine startsWith_eq_false 1 (by simp [hdot]) fun hone => ?_
  have hpoint : charAt (chars "\t." ++ pre) 1 = '.' := by rw [hdot]; rfl
  rw [isInstruction, hone, hpoint] at h
  simp at h

theorem isCode_smallScanner {text : Line} (h : isInstruction text = true) :
    smallScanner.IsCode text := by
  have htext := not_startsWith_of_isInstruction h (chars "text")
  have hdata := not_startsWith_of_isInstruction h (chars "data")
  rw [show chars "\t." ++ chars "text" = chars "\t.text" by with_unfolding_all decide] at htext
  rw [show chars "\t." ++ chars "data" = chars "\t.data" by with_unfolding_all decide] at hdata
  exact ⟨fun s => by simp [smallScanner, htext, hdata], fun s sect => by simp [smallScanner, h]⟩

/-- A line without bytes, and without a section. -/
def isSilent (line : Line) : Bool :=
  !isInstruction line && !startsWith line (chars "\t.byte") && !startsWith line (chars "\t.text") &&
    !startsWith line (chars "\t.data")

theorem smallScanner_isSilent {text : Line} (h : isSilent text = true) :
    (∀ s, smallScanner.next s text = s) ∧ ∀ s sect, smallScanner.emits s text sect = false := by
  simp only [isSilent, Bool.and_eq_true, Bool.not_eq_true'] at h
  obtain ⟨⟨⟨hinstr, hbyte⟩, htext⟩, hdata⟩ := h
  exact ⟨fun s => by simp [smallScanner, htext, hdata],
    fun s sect => by simp [smallScanner, hinstr, hbyte]⟩

theorem isNote_smallScanner {text : Line} (h : isSilent text = true)
    (hlabel : text.contains ':' = false) : smallScanner.IsNote text := by
  obtain ⟨hnext, hemits⟩ := smallScanner_isSilent h
  refine ⟨hnext, hemits, fun s name => ?_⟩
  have hcolon : ':' ∉ text := fun hmem => by
    rw [List.contains_iff_mem.mpr hmem] at hlabel
    exact Bool.false_ne_true hlabel.symm
  have hno : startsWith text (name ++ chars ":") = false := by
    refine Bool.eq_false_iff.mpr fun hpre => hcolon ((startsWith_iff.mp hpre).subset ?_)
    exact List.mem_append_right _ (by with_unfolding_all decide)
  simp [smallScanner, hno]

/-- What is left of a call begins as the call does. -/
theorem isInstruction_stripComment {line : Line} (h : startsWith line spaCallqNoStar = true)
    (rest : Line) : isInstruction (stripComment line ++ rest) = true := by
  obtain ⟨tail, hline, htail⟩ := cutAtComment_stripComment line
  obtain ⟨back, hback⟩ := startsWith_iff.mp h
  have hcallq : spaCallqNoStar = '\t' :: 'c' :: 'a' :: 'l' :: chars "lq" := by
    with_unfolding_all decide
  have hfront : ∃ text, line.dropLast = '\t' :: 'c' :: 'a' :: text := by
    rw [← hback, hcallq]
    exact ⟨('l' :: (chars "lq" ++ back)).dropLast, rfl⟩
  obtain ⟨text, htext⟩ := hfront
  rw [hline] at htext
  generalize stripComment line = cut at htext
  match cut with
  | [] =>
      rcases htail with rfl | ⟨c, tail', -, rfl⟩
      · exact absurd htext (List.cons_ne_nil _ _).symm
      · exact absurd (List.cons.inj (List.cons.inj htext).2).1 (by decide)
  | [c] =>
      rcases htail with rfl | ⟨d, tail', -, rfl⟩
      · exact absurd (List.cons.inj htext).2 (List.cons_ne_nil _ _).symm
      · exact absurd (List.cons.inj (List.cons.inj (List.cons.inj htext).2).2).1 (by decide)
  | c :: d :: cut =>
      obtain ⟨rfl, hrest⟩ := List.cons.inj htext
      obtain ⟨rfl, -⟩ := List.cons.inj hrest
      rfl

/-- Lines of code, and lines without bytes. -/
theorem smallScanner_fills {block : List Line}
    (h : ∀ text ∈ block, isInstruction text = true ∨ isSilent text = true)
    (hcode : ∃ text ∈ block, isInstruction text = true) (s : Line) :
    smallScanner.after s block = s ∧
      ∀ sect, smallScanner.fills s block sect = (smallScanner.place s == sect) := by
  have hkeeps : ∀ text ∈ block, ∀ s, smallScanner.next s text = s := by
    intro text hmem
    rcases h text hmem with htext | htext
    · exact (isCode_smallScanner htext).next
    · exact (smallScanner_isSilent htext).1
  refine ⟨Scanner.after_of_keeps hkeeps, fun sect => ?_⟩
  rw [Scanner.fills_of_keeps hkeeps]
  obtain ⟨text, hmem, htext⟩ := hcode
  cases hplace : smallScanner.place s == sect with
  | false =>
      rw [List.any_eq_false]
      intro other hother
      have hsect : (s == sect) = false := hplace
      simp [smallScanner, hsect]
  | true =>
      rw [List.any_eq_true]
      exact ⟨text, hmem, ((isCode_smallScanner htext).emits s sect).trans hplace⟩

theorem assembles_smallScanner : Assembles smallScanner where
  comment text hmem := by
    have hall : (insertedComments.all fun text => isSilent text && !text.contains ':') = true := by
      with_unfolding_all decide
    have htext := List.all_eq_true.mp hall text hmem
    rw [Bool.and_eq_true, Bool.not_eq_true'] at htext
    exact isNote_smallScanner htext.1 htext.2
  startproc := isNote_smallScanner (by with_unfolding_all decide) (by with_unfolding_all decide)
  mask line hline s := by
    have hpre : ∀ {pre : Line}, '\x7d' ∉ pre →
        startsWith (rewriteWriteMask line) pre = startsWith line pre :=
      fun hbrace => startsWith_rewriteWriteMask hline.newline hbrace
    have hinstr : isInstruction (rewriteWriteMask line) = isInstruction line := by
      rcases rewriteWriteMask_cases hline.newline with heq | ⟨body, hraw, heq⟩
      · rw [heq]
      · have hclang : spaWriteMaskClang = '\x7d' :: chars " \x7bz\x7d\n" := by
          with_unfolding_all decide
        have hgcc : spaWriteMaskGcc = '\x7d' :: chars "\x7bz\x7d\n" := by
          with_unfolding_all decide
        rw [heq, hraw, hclang, hgcc]
        match body with
        | [] => rfl
        | [c] => rfl
        | c :: d :: rest => rfl
    refine ⟨?_, ?_, ?_⟩
    · simp only [smallScanner]
      rw [hpre (by with_unfolding_all decide), hpre (by with_unfolding_all decide)]
    · funext sect
      simp only [smallScanner]
      rw [hinstr, hpre (by with_unfolding_all decide)]
    · funext name
      simp only [smallScanner]
      by_cases hbrace : '\x7d' ∈ name
      · simp [hbrace]
      · have hcolon : '\x7d' ∉ name ++ chars ":" := by
          rw [List.mem_append, not_or]
          exact ⟨hbrace, by with_unfolding_all decide⟩
        rw [hpre hcolon]
  entry block h text hmem := by
    have hall : (block.all isInstruction) = true := by
      cases h with
      | standard => with_unfolding_all decide
      | handler => with_unfolding_all decide
      | customized => with_unfolding_all decide
    exact isCode_smallScanner (List.all_eq_true.mp hall text hmem)
  ret := ⟨isCode_smallScanner (by with_unfolding_all decide),
    isCode_smallScanner (by with_unfolding_all decide)⟩
  epilogue text hmem := by
    have hall : (standardEpilogue.all isInstruction) = true := by with_unfolding_all decide
    exact isCode_smallScanner (List.all_eq_true.mp hall text hmem)
  call s line block hcallq _ hblock := by
    cases hblock with
    | direct =>
        refine smallScanner_fills (fun text hmem => ?_) ⟨_, List.mem_cons_self, ?_⟩ s
        · simp only [List.mem_cons, List.not_mem_nil, or_false] at hmem
          rcases hmem with rfl | rfl | rfl | rfl | rfl
          · exact .inl (by with_unfolding_all decide)
          · exact .inl (by with_unfolding_all decide)
          · exact .inl (by with_unfolding_all decide)
          · exact .inl (isInstruction_stripComment hcallq _)
          · exact .inr (by with_unfolding_all decide)
        · with_unfolding_all decide
    | indirect =>
        refine smallScanner_fills (fun text hmem => ?_) ⟨_, List.mem_cons_self, ?_⟩ s
        · have hfirst : ∀ op,
              isInstruction (chars "\tmovq\t" ++ op ++ chars ", %rax\n") = true := by
            intro op
            have hmov : chars "\tmovq\t" = '\t' :: 'm' :: chars "ovq\t" := by
              with_unfolding_all decide
            rw [hmov]
            rfl
          have hfixed : ∀ text ∈ (indirectCallBlock []).tail,
              isInstruction text = true ∨ isSilent text = true := by with_unfolding_all decide
          rcases List.mem_cons.mp hmem with rfl | hmem
          · exact .inl (hfirst _)
          · exact hfixed text hmem
        · have hmov : chars "\tmovq\t" = '\t' :: 'm' :: chars "ovq\t" := by
            with_unfolding_all decide
          rw [hmov]
          rfl

/-- Decided on concrete lines. -/
theorem assemblyInput_of_all {lines : List Line}
    (hline : (lines.all fun raw => !raw.isEmpty && !raw.dropLast.contains '\n' &&
      !raw.contains '\x00' && decide (raw.length < 8192)) = true)
    (hcalls : (lines.all fun raw => !startsWith raw spaCallqNoStar || !mentions raw) = true) :
    AssemblyInput smallScanner lines where
  line := isLine_of_all hline
  call front raw after hsplit hcall := by
    have hmentions := List.all_eq_true.mp hcalls raw (by simp [hsplit])
    have hinstr : isInstruction raw = true := by
      obtain ⟨rest, rfl⟩ := startsWith_iff.mp hcall
      have hcallq : spaCallqNoStar = '\t' :: 'c' :: chars "allq" := by with_unfolding_all decide
      rw [hcallq]
      rfl
    have hcode := isCode_smallScanner hinstr
    refine ⟨⟨rfl, hcode.next _, fun sect => hcode.emits _ sect⟩, ?_⟩
    rw [hcall] at hmentions
    simpa using hmentions

/-- A signal handler that is compiled as any other function. -/
def handlerLines : List Line :=
  [chars "_Z15WasmTrapHandleriP9siginfo_tPv:\n", spaCfiStartproc, spaClangRetq, spaCfiEndproc]

end FlashStack.As
