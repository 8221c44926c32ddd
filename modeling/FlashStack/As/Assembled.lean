/-
What the output of `add_instrumentation` assembles to.

Every line of the input stands for statements of the program (`Means`), and the output is
their code: the texts that the function writes are the instruction sequences of the
statements, their local labels are found in them, and calls go where the line says. This
joins the model of the editor, which speaks of texts, to the models of the sequences, which
speak of instructions.

* `assemble_standardPrologue`, `assemble_standardEpilogue`: the texts at the two ends of a
  function;
* `assemble_directCallBlock`, `assemble_indirectCallBlock`: the blocks for calls, whose
  labels are local and may be defined any number of times in a file;
* `exists_means`: the lines that one iteration writes, with one case for each piece that may
  stand for a line;
* `output_assembles`: the whole output, by induction on the lines.

The input lines must be ones that the assembler can read (`Readable`): a call with a symbol
and a comment that is cut, an indirect call with an operand, anything else as it is. For
other lines the output may be rejected, or call something else.
-/

import FlashStack.As.Reader
import Mathlib.Data.List.DropRight

namespace FlashStack.As

open Lib.CString Lib.Memory Lib.Listing FlashStack.Asm

/-! ### Calls and their comments -/

/-- A call as the compilers write it: the comment, if there is one, begins in a way that
`add_instrumentation` looks for. -/
structure CallLine (line : Line) : Prop where
  newline : line.getLast? = some '\n'
  comment : '#' ∉ stripComment line
  space : isSpace (charAt (stripComment line) 6) = true

section Calls

variable {line text : Line}

theorem uncomment_append (h : '#' ∉ text) (rest : Line) :
    uncomment (text ++ rest) = text ++ uncomment rest := by
  refine List.takeWhile_append_of_pos fun c hc => ?_
  rw [bne_iff_ne]
  rintro rfl
  exact h hc

/-- What is left of a call is followed by a blank, and then by nothing or a comment. -/
theorem CallLine.split (h : CallLine line) :
    ∃ c rest, isSpace c = true ∧ line = stripComment line ++ c :: rest ∧
      uncomment line = stripComment line ++ [c] := by
  obtain ⟨rest, hcut, hrest⟩ := cutAtComment_stripComment line
  obtain ⟨body, hbody⟩ := List.getLast?_eq_some_iff.mp h.newline
  have hline : line = stripComment line ++ (rest ++ ['\n']) := by
    rw [← List.append_assoc, ← hcut, hbody, List.dropLast_concat]
  rcases hrest with rfl | ⟨c, rest', hc, rfl⟩
  · refine ⟨'\n', [], rfl, hline, ?_⟩
    conv_lhs => rw [hline]
    rw [uncomment_append h.comment]
    rfl
  · have hspace : isSpace c = true := by rcases hc with rfl | rfl <;> rfl
    refine ⟨c, '#' :: rest' ++ ['\n'], hspace, hline, ?_⟩
    have hne : (c != '#') = true := by
      rw [bne_iff_ne]
      rintro rfl
      cases hspace
    conv_lhs => rw [hline]
    rw [uncomment_append h.comment, List.cons_append, uncomment, List.takeWhile_cons, hne]
    rfl

theorem CallLine.length (h : CallLine line) : 7 ≤ (stripComment line).length := by
  by_contra hlt
  have hspace := h.space
  rw [charAt, List.getD_eq_getElem?_getD, List.getElem?_eq_none (by omega)] at hspace
  cases hspace

/-- The test for an indirect call sees what is left of the line. -/
theorem startsWith_star {cut rest : Line} {c : Char} (hlength : 7 ≤ cut.length) (hc : c ≠ '*') :
    startsWith (cut ++ c :: rest) spaCallqStar = startsWith cut spaCallqStar := by
  rw [Bool.eq_iff_iff, startsWith_iff, startsWith_iff]
  refine ⟨fun h => ?_, fun h => h.trans (List.prefix_append _ _)⟩
  have hstar : spaCallqStar.length = 8 := by with_unfolding_all decide
  rcases Nat.lt_or_ge 7 cut.length with hlt | hge
  · exact List.prefix_of_prefix_length_le h (List.prefix_append _ _) (by omega)
  · have hchar := charAt_of_startsWith (i := 7) (startsWith_iff.mpr h) (by omega)
    have hseven : cut.length = 7 := by omega
    rw [charAt, List.getD_eq_getElem?_getD, List.getElem?_append_right (by omega), hseven] at hchar
    have hlast : charAt spaCallqStar 7 = '*' := by with_unfolding_all decide
    exact absurd (hchar.trans hlast) hc

theorem startsWith_callq {cut rest : Line} (hlength : 7 ≤ cut.length) :
    startsWith (cut ++ rest) spaCallqNoStar = startsWith cut spaCallqNoStar := by
  rw [Bool.eq_iff_iff, startsWith_iff, startsWith_iff]
  have hcallq : spaCallqNoStar.length = 6 := by with_unfolding_all decide
  exact ⟨fun h => List.prefix_of_prefix_length_le h (List.prefix_append _ _) (by omega),
    fun h => h.trans (List.prefix_append _ _)⟩

/-- A direct call, whatever follows the name: it is told by its mnemonic and the blank behind it.
-/
theorem read_call {cut rest : Line} {c : Char} (htext : uncomment text = cut ++ c :: rest)
    (hlength : 7 ≤ cut.length) (hspace : isSpace (charAt cut 6) = true) (hc : c ≠ '*')
    (hcall : startsWith cut spaCallqNoStar = true) (hstar : startsWith cut spaCallqStar = false) :
    read text = some (.code (.call (cut.drop 6 ++ c :: rest))) := by
  have hdrop : (cut ++ c :: rest).drop 6 = cut.drop 6 ++ c :: rest :=
    List.drop_append_of_le_length (by omega)
  rw [read, htext, startsWith_star hlength hc, hstar, startsWith_callq hlength, hcall,
    charAt_append _ (by omega), hspace, hdrop]
  rfl

theorem read_star {cut rest : Line} (htext : uncomment text = cut ++ rest)
    (hstar : startsWith cut spaCallqStar = true) :
    read text = some (.code (.callStar (cut.drop 8 ++ rest))) := by
  obtain ⟨op, rfl⟩ := startsWith_iff.mp hstar
  have hlength : spaCallqStar.length = 8 := by with_unfolding_all decide
  have hdrop : (spaCallqStar ++ op ++ rest).drop 8 = (spaCallqStar ++ op).drop 8 ++ rest :=
    List.drop_append_of_le_length (by rw [List.length_append]; omega)
  rw [read, htext, startsWith_iff.mpr ((List.prefix_append _ _).trans (List.prefix_append _ _)),
    hdrop]
  rfl

/-- The load of the operand of an indirect call. -/
theorem read_load {op : Text} (hop : '#' ∉ op) (himm : charAt op 0 ≠ '$') :
    read (chars "\tmovq\t" ++ op ++ chars ", %rax\n") = some (.code (.load op .rax)) := by
  have hfront : chars "\tmovq\t" = ['\t', 'm', 'o', 'v', 'q', '\t'] := by with_unfolding_all decide
  have hback : chars ", %rax\n" = [',', ' ', '%', 'r', 'a', 'x', '\n'] := by
    with_unfolding_all decide
  have htext : uncomment (chars "\tmovq\t" ++ op ++ chars ", %rax\n") =
      chars "\tmovq\t" ++ op ++ chars ", %rax\n" := by
    have hall : '#' ∉ chars "\tmovq\t" ++ op ++ chars ", %rax\n" := by
      rw [hfront, hback]
      simp [hop]
    have hnil := uncomment_append hall []
    rw [List.append_nil] at hnil
    exact hnil.trans (List.append_nil _)
  have htrim : trim (chars "\tmovq\t" ++ op ++ chars ", %rax\n") =
      ['m', 'o', 'v', 'q', '\t'] ++ op ++ [',', ' ', '%', 'r', 'a'] ++ ['x'] := by
    rw [hfront, hback]
    simp [trim, isSpace]
  have hlabel : readLabel (trim (chars "\tmovq\t" ++ op ++ chars ", %rax\n")) = none := by
    rw [htrim, readLabel, List.getLast?_concat]
    rfl
  have hm : charAt (chars "\tmovq\t" ++ op ++ chars ", %rax\n") 1 = 'm' := by
    rw [hfront]
    rfl
  have hstar : startsWith (chars "\tmovq\t" ++ op ++ chars ", %rax\n") spaCallqStar = false := by
    refine startsWith_eq_false 1 (by with_unfolding_all decide) ?_
    rw [hm]
    with_unfolding_all decide
  have hcallq : startsWith (chars "\tmovq\t" ++ op ++ chars ", %rax\n") spaCallqNoStar = false := by
    refine startsWith_eq_false 1 (by with_unfolding_all decide) ?_
    rw [hm]
    with_unfolding_all decide
  have hsplit : splitLast 0 (op ++ chars ", %rax\n").reverse [] =
      some (op, [' ', '%', 'r', 'a', 'x', '\n']) := by
    rw [hback, List.reverse_append]
    have hrev : splitLast 0 ([',', ' ', '%', 'r', 'a', 'x', '\n'].reverse ++ op.reverse) [] =
        some (op.reverse.reverse, [' ', '%', 'r', 'a', 'x', '\n']) := rfl
    rw [hrev, List.reverse_reverse]
  have hreg : readReg (trim [' ', '%', 'r', 'a', 'x', '\n']) = some .rax := by
    with_unfolding_all decide
  have hpair : readPair (chars "movq") op (trim [' ', '%', 'r', 'a', 'x', '\n']) =
      some (.load op .rax) := by
    have hnone : readImm op = none := if_neg (by simpa using himm)
    rw [readPair, hreg, hnone]
    simp
  have hmnemonic : ((chars "\tmovq\t" ++ op ++ chars ", %rax\n").drop 1).takeWhile
      (!isSpace ·) = chars "movq" := by
    rw [hfront]
    with_unfolding_all rfl
  have hargs : (((chars "\tmovq\t" ++ op ++ chars ", %rax\n").drop 1).dropWhile
      (!isSpace ·)).drop 1 = op ++ chars ", %rax\n" := by
    rw [hfront]
    rfl
  have htab : charAt (chars "\tmovq\t" ++ op ++ chars ", %rax\n") 0 = '\t' := by
    rw [hfront]
    rfl
  simp only [read, htext, hstar, hcallq, hlabel, hmnemonic, hargs, htab, hsplit, hpair,
    Bool.false_and, if_neg Bool.false_ne_true, beq_self_eq_true, if_true, Option.map_some]

end Calls

/-! ### Blocks -/

section Blocks

variable {κ : Type} {asm : Assembler κ} {line : Line}

theorem entry_code {s : Statement} {c : Code κ} (h : read line = some (.code s))
    (hcode : asm.code s = some c) : asm.entry line = some [.code c] := by
  rw [Assembler.entry, h]
  exact congrArg (Option.map _) hcode

theorem entry_label {n : Nat} (h : read line = some (.label n)) :
    asm.entry line = some [.label n] := by
  rw [Assembler.entry, h]

theorem read_index : read (chars "\tmovq\t$-0x800000000000, %r10\n") =
    some (.code (.movImm shadowIndex .r10)) := by with_unfolding_all decide

/-- The store to the slot of a call. -/
theorem read_slotStore : read (chars "\tmovq\t%r11, %gs:-8(%rsp, %r10, 1)\n") =
    some (.code (.store .r11 (shadowOperand (-8)))) := by with_unfolding_all decide

theorem assemble_standardPrologue :
    asm.assemble standardPrologue = some (stmtCode .startproc) := by
  have hload : read (chars "\tmovq\t(%rsp), %r11\n") =
      some (.code (.load (chars "(%rsp)") .r11)) := by with_unfolding_all decide
  have hstore : read (chars "\tmovq\t%r11, %gs:(%rsp, %r10, 1)\n") =
      some (.code (.store .r11 (shadowOperand 0))) := by with_unfolding_all decide
  have hstack : asm.code (.load (chars "(%rsp)") .r11) =
      some (.instr (.movOperand (.mem false 0 (some .rsp) none) 4 .r11)) := by
    rw [Assembler.code, asm.operand_stack, asm.movLength_stack]
    rfl
  rw [Assembler.assemble, standardPrologue, Assembler.entries, entry_code hload hstack,
    Assembler.entries, entry_code read_index rfl, Assembler.entries, entry_code hstore rfl]
  rfl

theorem assemble_standardEpilogue : asm.assemble standardEpilogue = some (stmtCode .ret) := by
  have hadd : read (chars "\taddq\t$8, %rsp\n") =
      some (.code (.addImm (BitVec.ofNat 64 spaCpuWordLength) .rsp)) := by
    with_unfolding_all decide
  have hjmp : read (chars "\tjmpq\t*%gs:-8(%rsp, %r10, 1)\n") =
      some (.code (.jmpMem (shadowOperand (-8)))) := by with_unfolding_all decide
  rw [Assembler.assemble, standardEpilogue, Assembler.entries, entry_code read_index rfl,
    Assembler.entries, entry_code hadd rfl, Assembler.entries, entry_code hjmp rfl]
  rfl

/-- **The direct call** goes behind the prologue of the callee that the line names. -/
theorem assemble_directCallBlock (h : CallLine line)
    (hcall : startsWith (stripComment line) spaCallqNoStar = true)
    (hstar : startsWith (stripComment line) spaCallqStar = false) :
    asm.assemble (directCallBlock line) =
      some (stmtCode (.directCall (asm.symbol ((stripComment line).drop 6)))) := by
  have hlea : read (chars "\tleaq\t1f(%rip), %r11\n") = some (.code (.lea 1 .r11)) := by
    with_unfolding_all decide
  have hlabel : read (chars "1:\n") = some (.label 1) := by with_unfolding_all decide
  have hskip : chars "+19\n" = '+' :: ['1', '9', '\n'] := by with_unfolding_all decide
  have htext : uncomment (stripComment line ++ chars "+19\n") =
      stripComment line ++ '+' :: ['1', '9', '\n'] := by
    rw [uncomment_append h.comment, hskip]
    rfl
  have htarget : (stripComment line).drop 6 ++ '+' :: ['1', '9', '\n'] =
      (stripComment line).drop 6 ++ chars "+19" ++ ['\n'] := by
    have hskip' : chars "+19" = ['+', '1', '9'] := by with_unfolding_all decide
    rw [hskip', List.append_assoc]
    rfl
  have hread := read_call htext h.length h.space (by decide) hcall hstar
  have hsymbol : asm.symbol ((stripComment line).drop 6 ++ '+' :: ['1', '9', '\n']) =
      asm.symbol ((stripComment line).drop 6) + BitVec.ofNat 64 spaLengthOfProtectedPrologue := by
    rw [htarget, asm.symbol_space _ _ rfl, asm.symbol_add]
    rfl
  have hcode : asm.code (.call ((stripComment line).drop 6 ++ '+' :: ['1', '9', '\n'])) =
      some (.instr (.instr (.call (asm.symbol ((stripComment line).drop 6) +
        BitVec.ofNat 64 spaLengthOfProtectedPrologue)))) := by
    rw [Assembler.code, hsymbol]
  rw [Assembler.assemble, directCallBlock, Assembler.entries, entry_code hlea rfl,
    Assembler.entries, entry_code read_index rfl, Assembler.entries, entry_code read_slotStore rfl,
    Assembler.entries, entry_code hread hcode, Assembler.entries, entry_label hlabel]
  rfl

/-- **The indirect call** loads the operand of the line. Its labels are found inside the block, so
that it assembles on its own. -/
theorem assemble_indirectCallBlock (h : CallLine line) {op : CallOperand}
    (hop : asm.operand ((stripComment line).drop 8) = some op) :
    asm.assemble (indirectCallBlock line) =
      some (stmtCode (.indirectCall op (asm.movLength ((stripComment line).drop 8)))) := by
  have hload := @read_load ((stripComment line).drop 8)
    (fun hmem => h.comment (List.mem_of_mem_drop hmem)) fun himm => by
      rw [asm.operand_imm _ himm] at hop
      cases hop
  have hcode : asm.code (.load ((stripComment line).drop 8) .rax) =
      some (.instr (.movOperand op (asm.movLength ((stripComment line).drop 8)) .rax)) := by
    rw [Assembler.code, hop]
    rfl
  have hmagic : read (chars "\tmovq\t$0xba49241c8b4c, %r11\n") =
      some (.code (.movImm spaProtectedFuncMagicNum .r11)) := by with_unfolding_all decide
  have hcmp : read (chars "\tcmpq\t(%rax), %r11\n") = some (.code (.cmpLoad .rax .r11)) := by
    with_unfolding_all decide
  have hjne : read (chars "\tjne\t1f\n") = some (.code (.jne 1)) := by with_unfolding_all decide
  have hlea : read (chars "\tleaq\t2f(%rip), %r11\n") = some (.code (.lea 2 .r11)) := by
    with_unfolding_all decide
  have hadd : read (chars "\taddq\t$0x13, %rax\n") =
      some (.code (.addImm (BitVec.ofNat 64 spaLengthOfProtectedPrologue) .rax)) := by
    with_unfolding_all decide
  have hone : read (chars "1:\n") = some (.label 1) := by with_unfolding_all decide
  have hcall : read (chars "\tcallq\t*%rax\n") =
      some (.code (.callStar (chars "%rax\n"))) := by with_unfolding_all decide
  have hrax : asm.code (.callStar (chars "%rax\n")) = some (.instr (.callReg .rax)) := by
    have hreg : readReg (trim (chars "%rax\n")) = some .rax := by with_unfolding_all decide
    rw [Assembler.code, hreg]
    rfl
  have htwo : read (chars "2:\n") = some (.label 2) := by with_unfolding_all decide
  rw [Assembler.assemble, indirectCallBlock, Assembler.entries, entry_code hload hcode,
    Assembler.entries, entry_code hmagic rfl, Assembler.entries, entry_code hcmp rfl,
    Assembler.entries, entry_code hjne rfl, Assembler.entries, entry_code hlea rfl,
    Assembler.entries, entry_code read_index rfl, Assembler.entries, entry_code read_slotStore rfl,
    Assembler.entries, entry_code hadd rfl, Assembler.entries, entry_label hone,
    Assembler.entries, entry_code hcall hrax, Assembler.entries, entry_label htwo]
  rfl

end Blocks

/-! ### The whole output -/

section Output

variable {κ : Type} (asm : Assembler κ)

/-- What the assembler needs of a line: it assembles on its own, and a call is as the compilers
write it. -/
structure Readable (raw : Line) : Prop where
  code : ∃ code, asm.assemble [normalised raw] = some code
  call : startsWith (normalised raw) spaCallqNoStar = true → CallLine (normalised raw)
  operand : ∀ text, read (normalised raw) = some (.code (.callStar text)) →
    ∃ op, asm.operand text = some op

/-- The statements that the line `raw` may stand for: what it says, for a call the same callee
or operand. -/
inductive Means (raw : Line) : List (Stmt (Item κ)) → Prop where
  | copied {code : List (Item κ)} (h : asm.assemble [normalised raw] = some code)
      (hcall : ∀ target, read (normalised raw) ≠ some (.code (.call target))) :
      Means raw (code.map .other)
  | call {target : Text} (h : read (normalised raw) = some (.code (.call target))) :
      Means raw [.call (asm.symbol target)]
  | startproc (hraw : raw = spaCfiStartproc) : Means raw [.startproc]
  | exempt {callee : Line} {code : List (Item κ)} (hraw : raw = spaCfiStartproc)
      (h : asm.assemble (entryCall callee) = some code) : Means raw (code.map .other)
  | ret (hraw : raw = spaGccRet ∨ raw = spaClangRetq) : Means raw [.ret]
  | directCall {target : Text} (h : read (normalised raw) = some (.code (.call target))) :
      Means raw [.directCall (asm.symbol target)]
  | indirectCall {text : Text} {op : CallOperand} (length : Nat)
      (h : read (normalised raw) = some (.code (.callStar text)))
      (hop : asm.operand text = some op) : Means raw [.indirectCall op length]

variable {asm} {cfg : Config} {s : State} {raw line : Line} {block : List Line}

/-- Copied code is its own code, whatever the assembler has made of its lines. -/
theorem flatMap_other (code : List (Item κ)) : (code.map Stmt.other).flatMap stmtCode = code := by
  induction code with
  | nil => rfl
  | cons i code ih => exact congrArg (i :: ·) ih

theorem rewriteCall_shape (h : rewriteCall cfg s line = some block) :
    block = [line] ∨ startsWith line spaCallqStar = true ∧ block = indirectCallBlock line ∨
      startsWith line spaCallqNoStar = true ∧ startsWith line spaCallqStar = false ∧
        block = directCallBlock line := by
  unfold rewriteCall at h
  split at h
  · split at h
    · exact .inr (.inl ⟨‹_›, (Option.some.inj h).symm⟩)
    · rename_i hstar
      split at h
      · rename_i hcall
        obtain rfl := Option.some.inj h
        obtain ⟨hcall, -⟩ := (Bool.and_eq_true _ _).mp hcall
        unfold directCall
        split
        · exact .inl rfl
        · split
          · exact .inl rfl
          · split
            · exact .inr (.inr ⟨hcall, Bool.not_eq_true _ ▸ hstar, rfl⟩)
            · exact .inl rfl
      · cases h
  · cases h

theorem assemble_call {target : Text} (h : read line = some (.code (.call target))) :
    asm.assemble [line] = some (stmtCode (.call (asm.symbol target))) := by
  rw [Assembler.assemble, Assembler.entries, entry_code h rfl]
  rfl

theorem exists_unread (h : read line = none) : ∃ code, asm.assemble [line] = some code := by
  rw [Assembler.assemble, Assembler.entries, Assembler.entry, h]
  by_cases hspace : (uncomment line).all isSpace = true
  · exact ⟨[], by rw [if_pos hspace]; rfl⟩
  · rw [if_neg hspace]
    cases asm.other line with
    | none => exact ⟨[], rfl⟩
    | some k => exact ⟨[.other k], rfl⟩

theorem exists_assemble {lines : List Line}
    (h : ∀ line ∈ lines, ∃ code, asm.assemble [line] = some code) :
    ∃ code, asm.assemble lines = some code := by
  induction lines with
  | nil => exact ⟨[], rfl⟩
  | cons line lines ih =>
      obtain ⟨code, hline⟩ := h line List.mem_cons_self
      obtain ⟨code', hlines⟩ := ih fun other hmem => h other (List.mem_cons_of_mem _ hmem)
      exact ⟨code ++ code', assemble_append_some hline hlines⟩

theorem assemble_comments {texts : List Line} (h : ∀ text ∈ texts, isComment text = true) :
    asm.assemble texts = some [] := by
  induction texts with
  | nil => rfl
  | cons text texts ih =>
      exact assemble_append_some (assemble_comment (h text List.mem_cons_self))
        (ih fun other hmem => h other (List.mem_cons_of_mem _ hmem))

/-- The call that an exempt function makes at its entry. -/
theorem exists_entryCall {callee : Line} {target : Text}
    (h : read (chars "\tcallq\t" ++ callee ++ chars "@plt\n") = some (.code (.call target))) :
    ∃ code, asm.assemble (entryCall callee) = some code := by
  refine exists_assemble fun line hmem => ?_
  simp only [entryCall, List.mem_cons, List.not_mem_nil, or_false] at hmem
  rcases hmem with rfl | rfl | rfl | rfl | rfl | rfl | rfl
  · exact exists_unread (by with_unfolding_all decide)
  · exact exists_unread (by with_unfolding_all decide)
  · exact exists_unread (by with_unfolding_all decide)
  · exact ⟨_, assemble_call h⟩
  · exact exists_unread (by with_unfolding_all decide)
  · exact exists_unread (by with_unfolding_all decide)
  · exact exists_unread (by with_unfolding_all decide)

theorem assemble_startproc : asm.assemble [spaCfiStartproc] = some [] := by
  have hnone : read spaCfiStartproc = none := by with_unfolding_all decide
  have hcode : (uncomment spaCfiStartproc).all isSpace = false := by with_unfolding_all decide
  rw [Assembler.assemble, Assembler.entries, Assembler.entry, hnone]
  simp only [hcode, Bool.false_eq_true, if_false, asm.other_startproc]
  rfl

/-- A line that is copied. It stands for what it was: a call, or whatever the assembler makes of
it. -/
theorem exists_means_copied (hread : Readable asm raw) : ∃ stmts, Means asm raw stmts ∧
    asm.assemble [normalised raw] = some (stmts.flatMap stmtCode) := by
  by_cases hcall : ∃ target, read (normalised raw) = some (.code (.call target))
  · obtain ⟨target, htarget⟩ := hcall
    exact ⟨_, .call htarget, assemble_call htarget⟩
  · obtain ⟨code, hcode⟩ := hread.code
    exact ⟨code.map .other, .copied hcode fun target htarget => hcall ⟨target, htarget⟩,
      by rw [hcode, flatMap_other]⟩

theorem exists_means_exempt (hraw : raw = spaCfiStartproc) {callee : Line} {target : Text}
    (h : read (chars "\tcallq\t" ++ callee ++ chars "@plt\n") = some (.code (.call target))) :
    ∃ stmts, Means asm raw stmts ∧
      asm.assemble (spaCfiStartproc :: entryCall callee) = some (stmts.flatMap stmtCode) := by
  obtain ⟨code, hcode⟩ : ∃ code, asm.assemble (entryCall callee) = some code := exists_entryCall h
  refine ⟨_, .exempt hraw hcode, ?_⟩
  rw [flatMap_other]
  exact assemble_append_some assemble_startproc hcode

/-- The lines behind a startproc line: the prologue, or what an exempt function gets in its place.
-/
theorem exists_means_entered (hraw : raw = spaCfiStartproc) (hblock : IsEntryBlock block) :
    ∃ stmts, Means asm raw stmts ∧
      asm.assemble (spaCfiStartproc :: block) = some (stmts.flatMap stmtCode) := by
  cases hblock with
  | standard =>
      exact ⟨[.startproc], .startproc hraw,
        assemble_append_some assemble_startproc assemble_standardPrologue⟩
  | handler =>
      have hcall : read (chars "\tcallq\t" ++ chars "unsw_inc_asm_js_crash_cnt" ++ chars "@plt\n") =
          some (.code (.call (chars "\tunsw_inc_asm_js_crash_cnt@plt\n"))) := by
        with_unfolding_all decide
      exact exists_means_exempt hraw hcall
  | customized =>
      have hcall : read (chars "\tcallq\t" ++ chars "init_main_shadow_stack" ++ chars "@plt\n") =
          some (.code (.call (chars "\tinit_main_shadow_stack@plt\n"))) := by
        with_unfolding_all decide
      exact exists_means_exempt hraw hcall

theorem ne_star_of_isSpace {c : Char} (hc : isSpace c = true) : c ≠ '*' := by
  rintro rfl
  cases hc

/-- The block for a direct call. It reads as the sequence, whatever the callee is called. -/
theorem exists_means_direct (hline : CallLine line) (hraw : normalised raw = line)
    (hcall : startsWith line spaCallqNoStar = true)
    (hstar : startsWith line spaCallqStar = false) :
    ∃ stmts, Means asm raw stmts ∧
      asm.assemble (directCallBlock line) = some (stmts.flatMap stmtCode) := by
  obtain ⟨c, rest, hc, hsplit, htext⟩ := hline.split
  rw [hsplit, startsWith_callq hline.length] at hcall
  rw [hsplit, startsWith_star hline.length (ne_star_of_isSpace hc)] at hstar
  have hread := read_call htext hline.length hline.space (ne_star_of_isSpace hc) hcall hstar
  refine ⟨[.directCall _], .directCall (by rw [hraw, hread]), ?_⟩
  rw [assemble_directCallBlock hline hcall hstar, asm.symbol_space _ _ hc]
  exact congrArg some (List.append_nil _).symm

/-- The block for an indirect call. It reads as the sequence, if the assembler knows the operand.
-/
theorem exists_means_indirect (hline : CallLine line) (hraw : normalised raw = line)
    (hoperand : ∀ text, read line = some (.code (.callStar text)) →
      ∃ op, asm.operand text = some op) (hstar : startsWith line spaCallqStar = true) :
    ∃ stmts, Means asm raw stmts ∧
      asm.assemble (indirectCallBlock line) = some (stmts.flatMap stmtCode) := by
  obtain ⟨c, rest, hc, hsplit, htext⟩ := hline.split
  rw [hsplit, startsWith_star hline.length (ne_star_of_isSpace hc)] at hstar
  have hread := read_star htext hstar
  obtain ⟨op, hop⟩ := hoperand _ hread
  refine ⟨[.indirectCall op (asm.movLength ((stripComment line).drop 8))],
    .indirectCall _ (by rw [hraw, hread]) hop, ?_⟩
  rw [asm.operand_space _ _ hc] at hop
  rw [assemble_indirectCallBlock hline hop]
  exact congrArg some (List.append_nil _).symm

/-- **The lines that one iteration writes** are the code of what its line says. -/
theorem exists_means (cfg : Config) (s : State) (h : '\n' ∉ raw.dropLast)
    (hread : Readable asm raw) :
    ∃ stmts, Means asm raw stmts ∧
      asm.assemble (written cfg s (rewriteWriteMask raw)) = some (stmts.flatMap stmtCode) := by
  have hcopied := exists_means_copied hread
  rw [written, isStartproc_rewriteWriteMask h]
  split
  · rename_i hentry
    simp only [Bool.and_eq_true, Bool.not_eq_true'] at hentry
    have hraw := eq_of_isStartproc h hentry.1.1
    rcases functionEntry_cases s with hnil | hblock
    · rwa [hnil, rewriteWriteMask_eq_normalised h]
    · subst hraw
      rw [rewriteWriteMask_startproc]
      exact exists_means_entered rfl hblock
  · rw [rewriteWriteMask_eq_normalised h]
    cases hcall : rewriteCall cfg s (normalised raw) with
    | some block =>
        rcases rewriteCall_shape hcall with rfl | ⟨hstar, rfl⟩ | ⟨hcallq, hstar, rfl⟩
        · exact hcopied
        · have hcallq : startsWith (normalised raw) spaCallqNoStar = true := by
            have hpre : spaCallqNoStar <+: spaCallqStar := by with_unfolding_all decide
            exact startsWith_iff.mpr (hpre.trans (startsWith_iff.mp hstar))
          exact exists_means_indirect (hread.call hcallq) rfl hread.operand hstar
        · exact exists_means_direct (hread.call hcallq) rfl hcallq hstar
    | none =>
        cases hret : rewriteRet cfg s (normalised raw) with
        | some block =>
            rcases rewriteRet_cases hret with rfl | ⟨-, hisRet, rfl⟩
            · exact hcopied
            · rw [← rewriteWriteMask_eq_normalised h, isRet_rewriteWriteMask h] at hisRet
              exact ⟨[.ret], .ret (eq_of_isRet h hisRet), assemble_standardEpilogue⟩
        | none => exact hcopied

/-- The loop: the statements of the lines one behind the other, by induction on the lines. -/
theorem exists_means_run (cfg : Config) (s : State) {lines : List Line}
    (hlines : ∀ raw ∈ lines, IsLine raw) (hread : ∀ raw ∈ lines, Readable asm raw) :
    ∃ stmts : List (List (Stmt (Item κ))), List.Forall₂ (Means asm) lines stmts ∧
      asm.assemble (run cfg s lines).out = some (stmts.flatten.flatMap stmtCode) := by
  induction lines generalizing s with
  | nil => exact ⟨[], .nil, rfl⟩
  | cons raw lines ih =>
      obtain ⟨stmts, hmeans, hwritten⟩ :=
        exists_means cfg s (hlines raw List.mem_cons_self).newline (hread raw List.mem_cons_self)
      obtain ⟨rest, hrest, hout⟩ := ih (step cfg s raw).st
        (fun other hmem => hlines other (List.mem_cons_of_mem _ hmem))
        (fun other hmem => hread other (List.mem_cons_of_mem _ hmem))
      obtain ⟨front, back, hstep, hcomments⟩ := stepLine_out cfg s (rewriteWriteMask raw)
      have hfront := @assemble_comments κ asm front fun text hmem =>
        hcomments text (List.mem_append_left back hmem)
      have hback := @assemble_comments κ asm back fun text hmem =>
        hcomments text (List.mem_append_right front hmem)
      have hline := assemble_append_some (assemble_append_some hfront hwritten) hback
      rw [← hstep, List.nil_append, List.append_nil] at hline
      refine ⟨stmts :: rest, .cons hmeans hrest, ?_⟩
      rw [List.flatten_cons, List.flatMap_append]
      exact assemble_append_some hline hout

end Output

/-! ### A function with a call and a return -/

/-- The address of a text that comes from its end; every symbol is at `0x403000`. -/
def symbolRev : Text → Word
  | [] => 0x403000
  | '9' :: '1' :: '+' :: rest => symbolRev rest + 19
  | c :: rest => if isSpace c then symbolRev rest else 0x403000

/-- An assembler that knows the operand `(%rsp)` and, of the lines that are copied, the plain
`retq`, which is one byte long. -/
def smallAssembler : Assembler Unit where
  symbol text := symbolRev text.reverse
  operand text :=
    if text.rdropWhile isSpace = chars "(%rsp)" then some (.mem false 0 (some .rsp) none) else none
  movLength _ := 4
  callLength _ := 3
  other line := if line = spaClangRetq then some () else none
  otherLength _ := 1
  symbol_add text := by
    have hskip : chars "+19" = ['+', '1', '9'] := by with_unfolding_all decide
    rw [hskip, List.reverse_append]
    rfl
  symbol_space text c hc := by
    rw [List.reverse_append]
    simp only [isSpace, Bool.or_eq_true, beq_iff_eq] at hc
    rcases hc with (rfl | rfl) | rfl
    · rfl
    · rfl
    · rfl
  operand_space text c hc := by
    rw [List.rdropWhile_concat_pos _ _ _ hc]
  operand_imm text himm := by
    refine if_neg fun hstack => ?_
    have hpre : startsWith text (chars "(%rsp)") = true := by
      rw [startsWith_iff, ← hstack]
      exact List.rdropWhile_prefix _ _
    have hfirst := charAt_of_startsWith (i := 0) hpre (by with_unfolding_all decide)
    rw [himm] at hfirst
    exact absurd hfirst (by with_unfolding_all decide)
  operand_stack := if_pos (by with_unfolding_all decide)
  movLength_stack := rfl
  other_startproc := if_neg (by with_unfolding_all decide)

theorem readable_unread {κ : Type} {asm : Assembler κ} {raw : Line}
    (hread : read (normalised raw) = none)
    (hcall : startsWith (normalised raw) spaCallqNoStar = false) : Readable asm raw where
  code := exists_unread hread
  call h := absurd h (by rw [hcall]; exact Bool.false_ne_true)
  operand text h := by
    rw [hread] at h
    cases h

theorem readable_callLines {raw : Line} (h : raw ∈ callLines) : Readable smallAssembler raw := by
  simp only [callLines, List.mem_cons, List.not_mem_nil, or_false] at h
  rcases h with rfl | rfl | rfl | rfl | rfl | rfl
  · exact readable_unread (by with_unfolding_all decide) (by with_unfolding_all decide)
  · exact readable_unread (by with_unfolding_all decide) (by with_unfolding_all decide)
  · exact readable_unread (by with_unfolding_all decide) (by with_unfolding_all decide)
  · have hread : read (normalised (chars "\tcallq\tg\n")) =
        some (.code (.call (chars "\tg\n"))) := by with_unfolding_all decide
    refine ⟨⟨_, assemble_call hread⟩, fun _ => ⟨?_, ?_, ?_⟩, fun text hstar => ?_⟩
    · with_unfolding_all decide
    · with_unfolding_all decide
    · with_unfolding_all decide
    · rw [hread] at hstar
      cases hstar
  · exact readable_unread (by with_unfolding_all decide) (by with_unfolding_all decide)
  · exact readable_unread (by with_unfolding_all decide) (by with_unfolding_all decide)

end FlashStack.As
