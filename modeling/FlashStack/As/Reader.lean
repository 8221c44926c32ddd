/-
An assembler's reading of the lines that `add_instrumentation` writes.

The lines are in AT&T syntax. Those that the function adds, and calls, are read in full:
mnemonics, registers, immediates, memory operands with segment, base and index, local labels
with their forward references. What the assembler makes of a symbol, of an operand that the
compiler wrote and of any other line is a parameter, `Assembler`; few equations are asked of
it, about blanks behind a text, a sum with 19, an immediate and the operand `(%rsp)`, each
of them true of any assembler of this syntax.

* `read`: one line, from its text behind the comment is cut off;
* `assemble`: the code of a part of a file, with its local labels resolved (`Lib.Listing`);
* `stmtCode`: the code of a statement, as sequences of instructions;
* `assemble_append`: a part that assembles on its own may be followed by anything.

Encodings are left out: an instruction has a length, not bytes. The bytes of the two
sequences that the binary rewriter looks for are the subject of that module.
-/

import FlashStack.As.Conservation
import FlashStack.Asm.Programs
import FlashStack.Lib.Listing

namespace FlashStack.As

open Lib.CString Lib.Memory Lib.Listing FlashStack.Asm

deriving instance DecidableEq for Operand

/-! ### Words -/

def isSpace (c : Char) : Bool := c == ' ' || c == '\t' || c == '\n'

/-- The text without the blanks around it, which mean nothing to an assembler there. -/
def trim (text : Text) : Text :=
  ((text.dropWhile isSpace).reverse.dropWhile isSpace).reverse

/-- The line without its comment, which the first `#` begins. -/
def uncomment (line : Line) : Line := line.takeWhile (· != '#')

def registers : List (Text × Reg) :=
  [(chars "%rax", .rax), (chars "%rbx", .rbx), (chars "%rcx", .rcx), (chars "%rdx", .rdx),
    (chars "%rsi", .rsi), (chars "%rdi", .rdi), (chars "%rbp", .rbp), (chars "%rsp", .rsp),
    (chars "%r8", .r8), (chars "%r9", .r9), (chars "%r10", .r10), (chars "%r11", .r11),
    (chars "%r12", .r12), (chars "%r13", .r13), (chars "%r14", .r14), (chars "%r15", .r15)]

def readReg (text : Text) : Option Reg := registers.lookup text

/-- The registers that need no prefix byte in a call through them, which makes the call one byte
shorter. -/
def lowRegs : List Reg := [.rax, .rbx, .rcx, .rdx, .rsi, .rdi, .rbp, .rsp]

def digit (c : Char) : Option Nat :=
  if c.isDigit then some (c.toNat - 48)
  else if 'a' ≤ c && c ≤ 'f' then some (c.toNat - 87)
  else none

def readDigits (base : Nat) (text : Text) : Option Nat :=
  if text.isEmpty then none
  else text.foldlM (fun n c => (digit c).bind fun d =>
    if d < base then some (n * base + d) else none) 0

def readNat (text : Text) : Option Nat :=
  if startsWith text (chars "0x") then readDigits 16 (text.drop 2) else readDigits 10 text

def readInt (text : Text) : Option Int :=
  if charAt text 0 == '-' then (readNat (text.drop 1)).map fun n => -(n : Int)
  else (readNat text).map Int.ofNat

/-- `$v`, an immediate operand that is a number. Symbols are not read. -/
def readImm (text : Text) : Option Int :=
  if charAt text 0 == '$' then readInt (text.drop 1) else none

/-- `nf`, the next local label `n` ahead of the line. -/
def readAhead (text : Text) : Option Nat :=
  if text.getLast? == some 'f' then readDigits 10 text.dropLast else none

/-- `n:`, the definition of a local label. It may be defined again later. -/
def readLabel (text : Text) : Option Nat :=
  if text.getLast? == some ':' then readDigits 10 text.dropLast else none

/-- `disp(base)` or `disp(base, index, 1)`, behind `%gs:` or nothing. Other scales do not occur.
-/
def readMem (text : Text) : Option Operand :=
  let gs := startsWith text (chars "%gs:")
  let body := if gs then text.drop 4 else text
  let front := body.takeWhile (· != '(')
  let inner := ((body.dropWhile (· != '(')).drop 1).takeWhile (· != ')')
  let disp := if front.isEmpty then some 0 else readInt front
  match (inner.splitOn ',').map trim with
  | [base] =>
      disp.bind fun v => (readReg base).map fun r => ⟨gs, BitVec.ofInt 64 v, r, none⟩
  | [base, index, scale] =>
      if scale == ['1'] then
        disp.bind fun v => (readReg base).bind fun r => (readReg index).map fun i =>
          ⟨gs, BitVec.ofInt 64 v, r, some i⟩
      else none
  | _ => none

/-- The two sides of the last comma outside parentheses; the text comes from its end. -/
def splitLast : Nat → Text → Text → Option (Text × Text)
  | _, [], _ => none
  | depth, c :: rest, back =>
      if c == ',' && depth == 0 then some (rest.reverse, back)
      else if c == ')' then splitLast (depth + 1) rest (c :: back)
      else if c == '(' then splitLast (depth - 1) rest (c :: back)
      else splitLast depth rest (c :: back)

/-! ### Lines -/

inductive Statement where
  | movImm (v : Word) (dst : Reg)
  | load (src : Text) (dst : Reg)
  | store (src : Reg) (dst : Operand)
  | addImm (v : Word) (dst : Reg)
  | lea (n : Nat) (dst : Reg)
  | cmpLoad (src dst : Reg)
  | jne (n : Nat)
  | jmpMem (src : Operand)
  | call (target : Text)
  | callStar (op : Text)
deriving DecidableEq

/-- An instruction with two arguments. The immediate of a `movq` does not fit 32 bits, that of
an `addq` fits 8. -/
def readPair (mnemonic src dst : Text) : Option Statement :=
  if mnemonic == chars "movq" then
    match readReg dst, readImm src with
    | some r, some v =>
        if -0x80000000 ≤ v ∧ v < 0x80000000 then none
        else some (.movImm (BitVec.ofInt 64 v) r)
    | some r, none => some (.load src r)
    | none, _ => (readReg src).bind fun r => (readMem dst).map (.store r ·)
  else if mnemonic == chars "addq" then
    (readImm src).bind fun v => (readReg dst).bind fun r =>
      if -128 ≤ v ∧ v < 128 then some (.addImm (BitVec.ofInt 64 v) r) else none
  else if mnemonic == chars "leaq" then
    if (chars "(%rip)").isSuffixOf src then
      (readAhead (src.take (src.length - 6))).bind fun n => (readReg dst).map (.lea n ·)
    else none
  else if mnemonic == chars "cmpq" then
    (readMem src).bind fun o => (readReg dst).bind fun r =>
      if o = ⟨false, 0, o.base, none⟩ ∧ o.base ≠ .rsp then some (.cmpLoad o.base r) else none
  else none

def readOne (mnemonic arg : Text) : Option Statement :=
  if mnemonic == chars "jne" then (readAhead arg).map .jne
  else if mnemonic == chars "jmpq" then
    if charAt arg 0 == '*' then (readMem (arg.drop 1)).map .jmpMem else none
  else none

/-- A label, an instruction of the kinds above, or `none`. A line that is none of these is left to
the rest of the assembler. -/
def read (line : Line) : Option (Entry Statement) :=
  let text := uncomment line
  if startsWith text spaCallqStar then some (.code (.callStar (text.drop 8)))
  else if startsWith text spaCallqNoStar && isSpace (charAt text 6) then
    some (.code (.call (text.drop 6)))
  else
    match readLabel (trim text) with
    | some n => some (.label n)
    | none =>
        let body := text.drop 1
        let mnemonic := body.takeWhile (!isSpace ·)
        let args := (body.dropWhile (!isSpace ·)).drop 1
        if charAt text 0 == '\t' then
          match splitLast 0 args.reverse [] with
          | some (src, dst) => (readPair mnemonic src (trim dst)).map .code
          | none => (readOne mnemonic (trim args)).map .code
        else none

/-! ### Code -/

/-- The rest of the assembler: the addresses of symbols, the operands of the compiler, and all
other lines. `κ` names what the latter become. -/
structure Assembler (κ : Type) where
  /-- The address that a text names. -/
  symbol : Text → Word
  operand : Text → Option CallOperand
  /-- The sizes of a `movq` and of a `callq *` with an operand. -/
  movLength : Text → Nat
  callLength : Text → Nat
  other : Line → Option κ
  otherLength : κ → Nat
  symbol_add : ∀ text, symbol (text ++ chars "+19") = symbol text + 19
  symbol_space : ∀ text c, isSpace c = true → symbol (text ++ [c]) = symbol text
  operand_space : ∀ text c, isSpace c = true → operand (text ++ [c]) = operand text
  /-- An immediate is no address. -/
  operand_imm : ∀ text, charAt text 0 = '$' → operand text = none
  operand_stack : operand (chars "(%rsp)") = some (.mem false 0 (some .rsp) none)
  movLength_stack : movLength (chars "(%rsp)") = 4
  /-- A directive is no code. -/
  other_startproc : other spaCfiStartproc = none

/-- An instruction, before its local label is resolved. Everything but the distance of that label
is known from its line. -/
inductive Code (κ : Type) where
  | instr (i : CallInstr)
  | lea (n : Nat) (dst : Reg)
  | jne (n : Nat)
  | other (k : κ)

inductive Item (κ : Type) where
  | instr (i : CallInstr)
  | other (k : κ)

def callInstrLength : CallInstr → Nat
  | .instr i => i.length
  | .movOperand _ length _ => length
  | .cmpLoad _ _ => 3
  | .jne _ => 2
  | .callReg _ => 2
  | .callOperand _ length => length

/-! ### Assembling -/

section Assembling

variable {κ : Type} (asm : Assembler κ)

def Assembler.code : Statement → Option (Code κ)
  | .movImm v dst => some (.instr (.instr (.movImm v dst)))
  | .load src dst =>
      (asm.operand src).map fun op => .instr (.movOperand op (asm.movLength src) dst)
  | .store src dst => some (.instr (.instr (.movStore src dst)))
  | .addImm v dst => some (.instr (.instr (.addImm v dst)))
  | .lea n dst => some (.lea n dst)
  | .cmpLoad src dst => some (.instr (.cmpLoad src dst))
  | .jne n => some (.jne n)
  | .jmpMem src => some (.instr (.instr (.jmpMem src)))
  | .call target => some (.instr (.instr (.call (asm.symbol target))))
  | .callStar op =>
      match readReg (trim op) with
      | some r => some (.instr (if r ∈ lowRegs then .callReg r else .callOperand (.reg r) 3))
      | none => (asm.operand op).map fun o => .instr (.callOperand o (asm.callLength op))

/-- What a line adds to the listing: a label, code, or nothing if it is blank or a comment. -/
def Assembler.entry (line : Line) : Option (List (Entry (Code κ))) :=
  match read line with
  | some (.label n) => some [.label n]
  | some (.code s) => (asm.code s).map ([.code ·])
  | none =>
      if (uncomment line).all isSpace then some []
      else some ((asm.other line).toList.map fun k => .code (.other k))

def Assembler.entries : List Line → Option (List (Entry (Code κ)))
  | [] => some []
  | line :: lines => (asm.entry line).bind fun es => (entries lines).map (es ++ ·)

/-- The encoding; the two instructions that refer to a label take seven and two bytes. -/
def Assembler.encoding : Encoding (Code κ) (Item κ) where
  size
    | .instr i => callInstrLength i
    | .lea _ _ => 7
    | .jne _ => 2
    | .other k => asm.otherLength k
  target
    | .lea n _ => some n
    | .jne n => some n
    | _ => none
  resolve
    | .instr i, _ => .instr i
    | .lea _ dst, d => .instr (.instr (.leaRip (BitVec.ofNat 64 d) dst))
    | .jne _, d => .instr (.jne d)
    | .other k, _ => .other k

/-- The code of a part of a file; `none` where a label or an operand is missing. -/
def Assembler.assemble (lines : List Line) : Option (List (Item κ)) :=
  (asm.entries lines).bind asm.encoding.link

/-- The code of a statement, as a list of items: what a part of the output assembles to, wherever
it stands. -/
def stmtCode : Stmt (Item κ) → List (Item κ)
  | .startproc =>
      .instr (.movOperand (.mem false 0 (some .rsp) none) 4 .r11) ::
        (Asm.prologue.drop 1).map fun i => .instr (.instr i)
  | .ret => Asm.epilogue.map fun i => .instr (.instr i)
  | .call g => [.instr (.instr (.call g))]
  | .directCall g => (Asm.directCall g).map fun i => .instr (.instr i)
  | .indirectCall op length =>
      [.instr (.movOperand op length .rax),
        .instr (.instr (.movImm spaProtectedFuncMagicNum .r11)),
        .instr (.cmpLoad .rax .r11),
        .instr (.jne (codeLength skipPrologue))] ++
      (skipPrologue.map fun i => .instr (.instr i)) ++ [.instr (.callReg .rax)]
  | .other i => [i]

variable {asm} {front back : List Line} {code code' : List (Item κ)} {line : Line}

theorem entries_append {es : List (Entry (Code κ))} (h : asm.entries front = some es) :
    asm.entries (front ++ back) = (asm.entries back).map (es ++ ·) := by
  induction front generalizing es with
  | nil =>
      obtain rfl := Option.some.inj h
      exact Option.map_id'.symm
  | cons line front ih =>
      obtain ⟨es₁, hline, h⟩ := Option.bind_eq_some_iff.mp h
      obtain ⟨es₂, hfront, rfl⟩ := Option.map_eq_some_iff.mp h
      rw [List.cons_append, Assembler.entries, hline, ih hfront]
      cases asm.entries back with
      | none => rfl
      | some es => exact congrArg some (List.append_assoc ..).symm

/-- **A part that assembles on its own** may be followed by anything. Its local references stay
inside it, and later labels do not disturb them. -/
theorem assemble_append (h : asm.assemble front = some code) :
    asm.assemble (front ++ back) = (asm.assemble back).map (code ++ ·) := by
  obtain ⟨es, hes, hlink⟩ := Option.bind_eq_some_iff.mp h
  rw [Assembler.assemble, Assembler.assemble, entries_append hes]
  cases asm.entries back with
  | none => rfl
  | some es' => exact Encoding.link_append hlink

theorem assemble_append_some (h : asm.assemble front = some code)
    (h' : asm.assemble back = some code') :
    asm.assemble (front ++ back) = some (code ++ code') := by
  rw [assemble_append h, h']
  rfl

/-- Comments are no code. -/
theorem assemble_comment (h : isComment line = true) : asm.assemble [line] = some [] := by
  obtain ⟨rest, rfl⟩ := startsWith_iff.mp h
  have htext : uncomment (chars "###SPA" ++ rest) = [] := by
    have hhead : chars "###SPA" = '#' :: chars "##SPA" := by with_unfolding_all decide
    rw [hhead]
    rfl
  have hread : read (chars "###SPA" ++ rest) = none := by
    unfold read
    rw [htext]
    with_unfolding_all decide
  rw [Assembler.assemble, Assembler.entries, Assembler.entry, hread, htext]
  rfl

end Assembling

end FlashStack.As
