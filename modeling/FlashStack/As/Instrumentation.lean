/-
`add_instrumentation` of `afl-as.c`, built with `USE_SPA_GS_RSP`.

The function reads the compiler's assembly line by line and writes an edited copy. One
iteration of its loop is `step`, and `run` is the loop. A line is a C string; the buffer is
edited in place only after its last use or before the copy, so the edits are values here.
Each branch of the loop body is a definition under the source's words, in the order of the
source: the deferred trampoline, the startproc and endproc lines, calls, returns, and the
bookkeeping about sections, syntax and labels.

The tables `libc_names` and `libcxx_names`, the flags that the command line and the
environment set, and the values of `random()` are a parameter, `Config`. The two functions
that search the tables search each other's table, as in the source.

Left out are the texts of the other builds, the opening and closing of files, and the C
integers of the counters, which are natural numbers here: they are printed and compared with
each other, and a file with `2^31` lines is not considered. A line is what one `fgets`
returns; how a file falls into such lines is the business of `Lib.CString` and of the
results that speak of files.
-/

import FlashStack.Lib.CString
import FlashStack.Lib.Search

namespace FlashStack.As

open Lib.CString Lib.Search

abbrev Line := Text

/-- `MAX_LINE`: the size of the buffer for a line. `fgets` reads at most two characters less and a
newline, so a longer line comes in pieces. -/
def maxLine : Nat := 8192

/-! ### Texts -/

def spaCfiStartproc : Line := chars "\t.cfi_startproc\n"
def spaCfiEndproc : Line := chars "\t.cfi_endproc\n"
def spaClangRetq : Line := chars "\tretq\n"
def spaGccRet : Line := chars "\tret\n"
def spaCallqStar : Line := chars "\tcallq\t*"
def spaCallqNoStar : Line := chars "\tcallq"
def spaWriteMaskClang : Line := chars "\x7d \x7bz\x7d\n"
def spaWriteMaskGcc : Line := chars "\x7d\x7bz\x7d\n"

/-- The prologue that the startproc handling emits: the return address goes to the slot of the
stack pointer. It uses `%r10` and `%r11`, and saves neither. -/
def standardPrologue : List Line :=
  [chars "\tmovq\t(%rsp), %r11\n",
    chars "\tmovq\t$-0x800000000000, %r10\n",
    chars "\tmovq\t%r11, %gs:(%rsp, %r10, 1)\n"]

def standardEpilogue : List Line :=
  [chars "\tmovq\t$-0x800000000000, %r10\n",
    chars "\taddq\t$8, %rsp\n",
    chars "\tjmpq\t*%gs:-8(%rsp, %r10, 1)\n"]

/-- A call of a runtime function at the entry of an exempt function; it saves the first
three arguments. -/
def entryCall (callee : Line) : List Line :=
  [chars "\tpushq\t%rdi\n", chars "\tpushq\t%rsi\n", chars "\tpushq\t%rdx\n",
    chars "\tcallq\t" ++ callee ++ chars "@plt\n",
    chars "\tpopq\t%rdx\n", chars "\tpopq\t%rsi\n", chars "\tpopq\t%rdi\n"]

/-! ### Tables -/

def customizedLibcFuncs : List Line :=
  [chars "malloc:", chars "free:", chars "malloc_usable_size:", chars "pvalloc:",
    chars "valloc:", chars "calloc:", chars "realloc:", chars "aligned_alloc:",
    chars "memalign:", chars "posix_memalign:"]

def noInstrFuncs : List Line := [chars "flash.stack.no_instr_funcs.place.holder:"]

def onStackHandlers : List Line :=
  [chars "_ZL15WasmTrapHandleriP9siginfo_tPv:", chars "_Z15WasmTrapHandleriP9siginfo_tPv:",
    chars "spa_demo_blackbox_handler:"]

/-- `is_target_func`: one of the names is a prefix of the text. The first match ends the search in
the source, which makes no difference to the answer. -/
def isTargetFunc (line : Line) (funcs : List Line) : Bool := funcs.any (startsWith line)

def isCustomizedLibcFunc (line : Line) : Bool := isTargetFunc line customizedLibcFuncs
def isNoInstrFunc (line : Line) : Bool := isTargetFunc line noInstrFuncs
def isOnStackHandler (line : Line) : Bool := isTargetFunc line onStackHandlers

/-! ### Settings and state -/

structure Config where
  passThru : Bool
  use64bit : Bool
  clangMode : Bool
  with64BitCmdOption : Bool
  /-- `ENABLE_GS_RSP_CALL_INSTRUMENTED` is defined. -/
  callInstrumented : Bool
  beQuiet : Bool
  instRatio : Nat
  inputFile : Line
  /-- `spa_protected_funcs`, as loaded. -/
  protectedFuncs : List Line
  libcNames : List Line
  libcxxNames : List Line
  /-- The successive values of `random()`. -/
  random : Nat → Nat

/-- The local variables that live across the loop. The C counters are `u32`; they are only
printed, and compared with each other at the end. -/
structure State where
  instrOk : Bool := false
  skipCsect : Bool := false
  skipNextLabel : Bool := false
  inMain : Bool := false
  isMainExe : Bool := false
  skipIntel : Bool := false
  skipApp : Bool := false
  instrumentNext : Bool := false
  start2end : Bool := false
  onStackHandler : Bool := false
  inCustomizedFunc : Bool := false
  inNoInstrFunc : Bool := false
  insLines : Nat := 0
  nStart : Nat := 0
  nEnd : Nat := 0
  /-- The number of values of `random()` used up. -/
  drawn : Nat := 0

/-- What an iteration leaves: the variables, the lines written to the output file, and the
names reported on `stderr`. -/
structure Effect where
  st : State
  out : List Line := []
  report : List Line := []

/-! ### The parts of one iteration -/

/-- The write mask at the end of a line loses its blank. The source copies over the first
occurrence, so that what stood behind it is cut off. -/
def rewriteWriteMask (line : Line) : Line :=
  if contains spaWriteMaskClang line then before spaWriteMaskClang line ++ spaWriteMaskGcc
  else line

/-- The deferred trampoline: before the first instruction behind a label that was marked for it.
Only comments are left of the code that this once wrote. -/
def dumpTrampoline (cfg : Config) (s : State) (line : Line) : State × List Line :=
  if !cfg.passThru && !s.skipIntel && !s.skipApp && !s.skipCsect && s.instrOk &&
      s.instrumentNext && charAt line 0 == '\t' && (charAt line 1).isAlpha then
    ({ s with instrumentNext := false, insLines := s.insLines + 1 },
      (if cfg.use64bit then chars "###SPA## trampoline_fmt_64\n"
        else chars "###SPA## trampoline_fmt_32\n") ::
      if s.inMain && !cfg.passThru && cfg.use64bit then
        [chars "###SPA### the entry of main().\n"] else [])
  else (s, [])

def isStartproc (line : Line) : Bool := startsWith line spaCfiStartproc

def isEndproc (line : Line) : Bool := startsWith line spaCfiEndproc

/-- What follows a startproc line. An exempt function calls a function of the runtime or gets
nothing; every other one gets the prologue. -/
def functionEntry (s : State) : List Line :=
  if s.inNoInstrFunc then []
  else if s.onStackHandler then entryCall (chars "unsw_inc_asm_js_crash_cnt")
  else if s.inCustomizedFunc then entryCall (chars "init_main_shadow_stack")
  else standardPrologue

/-- The newline and the comment of a call are cut off. The four patterns are tried one after the
other, each on what the one before has left. -/
def stripComment (line : Line) : Line :=
  before (chars "\t# ") (before (chars " #\t") (before (chars "\t#\t")
    (before (chars " # ") line.dropLast)))

/-- The indirect call. Label `1` is the plain call of the target, label `2` stands behind it; the
length of the prologue that is skipped is `0x13`. -/
def indirectCallBlock (line : Line) : List Line :=
  [chars "\tmovq\t" ++ (stripComment line).drop 8 ++ chars ", %rax\n",
    chars "\tmovq\t$0xba49241c8b4c, %r11\n",
    chars "\tcmpq\t(%rax), %r11\n",
    chars "\tjne\t1f\n",
    chars "\tleaq\t2f(%rip), %r11\n",
    chars "\tmovq\t$-0x800000000000, %r10\n",
    chars "\tmovq\t%r11, %gs:-8(%rsp, %r10, 1)\n",
    chars "\taddq\t$0x13, %rax\n",
    chars "1:\n",
    chars "\tcallq\t*%rax\n",
    chars "2:\n"]

/-- The direct call. The return address, which is label `1`, goes to the slot of the word that the
`callq` pushes; the length of the prologue that is skipped is 19. -/
def directCallBlock (line : Line) : List Line :=
  [chars "\tleaq\t1f(%rip), %r11\n",
    chars "\tmovq\t$-0x800000000000, %r10\n",
    chars "\tmovq\t%r11, %gs:-8(%rsp, %r10, 1)\n",
    stripComment line ++ chars "+19\n",
    chars "1:\n"]

/-- `is_libc_func_called`; the source looks in the table of the other library. As both tables are
asked, one behind the other, nothing depends on this. -/
def isLibcFuncCalled (cfg : Config) (line : Line) : Bool := isTargetFunc line cfg.libcxxNames

def isLibcxxFuncCalled (cfg : Config) (line : Line) : Bool := isTargetFunc line cfg.libcNames

/-- The characters before the first separator. On a text without one the source runs on
behind the terminator, but compares the same name. -/
def nameOf (line : Line) : Line := line.takeWhile fun c => c != '\n' && c != ' ' && c != '\t'

/-- `is_protected_function`: the binary search for the name of the callee, by `strcmp`, in the
list that the build has collected before. -/
def isProtectedFunction (cfg : Config) (line : Line) : Bool :=
  search (fun mid => compare (nameOf line) (cfg.protectedFuncs.getD mid []))
    0 ((cfg.protectedFuncs.length : Int) - 1)

/-- The direct calls that stay as they are, whatever their callee is protected by. -/
def isOtherModuleCall (line : Line) : Bool :=
  contains (chars "@PLT") line || contains (chars "@plt") line ||
    contains (chars "__tls_get_addr") line

/-- The lines written for a direct call. The name of the callee begins at character 7, behind the
tab, `callq` and another tab. -/
def directCall (cfg : Config) (line : Line) : List Line :=
  if isOtherModuleCall line then [line]
  else if isLibcxxFuncCalled cfg (line.drop 7) || isLibcFuncCalled cfg (line.drop 7) then [line]
  else if isProtectedFunction cfg (line.drop 7) then directCallBlock line
  else [line]

/-- Calls are rewritten here: inside a function, in a text section, in AT&T syntax and outside
assembly blocks, for a 64-bit file whose options say so. -/
def callsRewritten (cfg : Config) (s : State) : Bool :=
  cfg.callInstrumented && !cfg.passThru && !s.skipIntel && !s.skipApp && !s.skipCsect &&
    s.instrOk && cfg.use64bit && s.start2end && cfg.with64BitCmdOption

/-- The lines written for a call; `none` where the line is not treated as one. -/
def rewriteCall (cfg : Config) (s : State) (line : Line) : Option (List Line) :=
  if callsRewritten cfg s then
    if startsWith line spaCallqStar then some (indirectCallBlock line)
    else if startsWith line spaCallqNoStar && charAt line 6 != '*' then
      some (directCall cfg line)
    else none
  else none

def isRet (line : Line) : Bool := startsWith line spaGccRet || startsWith line spaClangRetq

/-- Returns are replaced here. Unlike for calls, it is not asked whether the section is one of
text, nor for the width of the code. -/
def retsRewritten (cfg : Config) (s : State) : Bool :=
  !cfg.passThru && !s.skipIntel && !s.skipApp && cfg.use64bit && s.start2end

/-- The lines written for a return; `none` where the line is not treated as one. The exempt
functions keep their returns, as they have no prologue. -/
def rewriteRet (cfg : Config) (s : State) (line : Line) : Option (List Line) :=
  if retsRewritten cfg s && isRet line then
    some (if s.inCustomizedFunc || s.inNoInstrFunc then [line]
      else if s.onStackHandler then [line]
      else standardEpilogue)
  else none

def isTextSection (line : Line) : Bool :=
  startsWith (line.drop 2) (chars "text\n") ||
    startsWith (line.drop 2) (chars "section\t.text") ||
    startsWith (line.drop 2) (chars "section\t__TEXT,__text") ||
    startsWith (line.drop 2) (chars "section __TEXT,__text")

def isOtherSection (line : Line) : Bool :=
  startsWith (line.drop 2) (chars "section\t") ||
    startsWith (line.drop 2) (chars "section ") ||
    startsWith (line.drop 2) (chars "bss\n") ||
    startsWith (line.drop 2) (chars "data\n")

/-- A directive that may change the section: a tab and a dot. Which directives are looked at is
decided by the text from the third character on. -/
def isDotted (line : Line) : Bool := charAt line 0 == '\t' && charAt line 1 == '.'

/-- The jump tables of OpenBSD: an alignment of this form in the text section announces one, and
the next label that would be marked is not. -/
def isJumpTableAlign (cfg : Config) (s : State) (line : Line) : Bool :=
  isDotted line && !cfg.clangMode && s.instrOk && startsWith (line.drop 2) (chars "p2align ") &&
    (charAt line 10).isDigit && charAt line 11 == '\n'

/-- The flags `skip_csect`, `skip_intel` and `skip_app`. The texts are searched anywhere in the
line, in comments and strings too; where two of them are in one line the later test wins. -/
def trackSyntax (cfg : Config) (s : State) (line : Line) : State :=
  let s := if contains (chars ".code") line && contains (chars ".code32") line then
      { s with skipCsect := cfg.use64bit } else s
  let s := if contains (chars ".code") line && contains (chars ".code64") line then
      { s with skipCsect := !cfg.use64bit } else s
  let s := if contains (chars ".intel_syntax") line then { s with skipIntel := true } else s
  let s := if contains (chars ".att_syntax") line then { s with skipIntel := false } else s
  let asm := charAt line 0 == '#' || charAt line 1 == '#'
  let s := if asm && contains (chars "#APP") line then { s with skipApp := true } else s
  if asm && contains (chars "#NO_APP") line then { s with skipApp := false } else s

/-- `R(100) < inst_ratio`: the next value of `random()`. Every call of it uses up one value,
whatever the answer is. -/
def drawBelowRatio (cfg : Config) (s : State) : Bool := cfg.random s.drawn % 100 < cfg.instRatio

/-- A line that starts with a tab. A jump other than `jmp` uses up a draw, and may be followed by
a comment; for any other line nothing happens. -/
def conditionalBranch (cfg : Config) (s : State) (line : Line) : Effect :=
  if charAt line 1 == 'j' && charAt line 2 != 'm' then
    if drawBelowRatio cfg s then
      { st := { s with drawn := s.drawn + 1, insLines := s.insLines + 1 },
        out := [if cfg.use64bit then chars "###SPA### trampoline_fmt_64\n"
          else chars "###SPA### trampoline_fmt_32\n"] }
    else { st := { s with drawn := s.drawn + 1 } }
  else { st := s }

/-- A label that starts with a dot. A label of the compiler may have the trampoline deferred to
the next instruction, unless it belongs to a jump table. -/
def localLabel (cfg : Config) (s : State) (line : Line) : State :=
  if (charAt line 2).isDigit || (cfg.clangMode && startsWith (line.drop 1) (chars "LBB")) then
    if drawBelowRatio cfg s then
      if !s.skipNextLabel then { s with drawn := s.drawn + 1, instrumentNext := true }
      else { s with drawn := s.drawn + 1, skipNextLabel := false }
    else { s with drawn := s.drawn + 1 }
  else s

/-- Any other label. Outside of functions it decides which of the tables the next function is in,
and its name is reported on `stderr`. -/
def functionLabel (s : State) (line : Line) : Effect where
  st := { s with
    instrumentNext := true
    inMain := startsWith line (chars "main:") && !s.start2end
    isMainExe := s.isMainExe || (startsWith line (chars "main:") && !s.start2end)
    inCustomizedFunc := isCustomizedLibcFunc line && !s.start2end
    inNoInstrFunc := isNoInstrFunc line && !s.start2end
    onStackHandler := isOnStackHandler line && !s.start2end }
  report := if s.start2end then [] else [line.takeWhile (· != ':')]

/-- A line that starts with anything but a tab, a blank or `#`. -/
def label (cfg : Config) (s : State) (line : Line) : Effect :=
  if contains (chars ":") line then
    if charAt line 0 == '.' then { st := localLabel cfg s line } else functionLabel s line
  else { st := s }

/-- The line is not looked at for instrumentation. The flags for the syntax have been updated by
this line before they are asked. -/
def isSkipped (s : State) (line : Line) : Bool :=
  s.skipIntel || s.skipApp || s.skipCsect || !s.instrOk || charAt line 0 == '#' ||
    charAt line 0 == ' '

/-- The iteration after the line is written, when it is not passed through; `out` is what
follows the line. -/
def bookkeep (cfg : Config) (s : State) (line : Line) : Effect :=
  let s := if isJumpTableAlign cfg s line then { s with skipNextLabel := true } else s
  if isDotted line && isTextSection line then { st := { s with instrOk := true } }
  else if isDotted line && isOtherSection line then { st := { s with instrOk := false } }
  else
    let s := trackSyntax cfg s line
    if isSkipped s line then { st := s }
    else if charAt line 0 == '\t' then conditionalBranch cfg s line
    else label cfg s line

/-! ### The loop -/

/-- One iteration, once the write mask is rewritten. The branches are in the order of the source,
and each `continue` of it ends the iteration here. -/
def stepLine (cfg : Config) (s : State) (line : Line) : Effect :=
  let trampoline := (dumpTrampoline cfg s line).2
  let s := (dumpTrampoline cfg s line).1
  let s := if isStartproc line then { s with start2end := true, nStart := s.nStart + 1 } else s
  if isStartproc line && !cfg.passThru && cfg.use64bit then
    { st := s, out := trampoline ++ line :: functionEntry s }
  else
    let s := if isEndproc line then { s with start2end := false, nEnd := s.nEnd + 1 } else s
    if isEndproc line && !cfg.passThru then { st := s, out := trampoline ++ [line] }
    else match rewriteCall cfg s line with
      | some block => { st := s, out := trampoline ++ block }
      | none => match rewriteRet cfg s line with
        | some block => { st := s, out := trampoline ++ block }
        | none =>
            if cfg.passThru then { st := s, out := trampoline ++ [line] }
            else
              let e := bookkeep cfg s line
              { st := e.st, out := trampoline ++ line :: e.out, report := e.report }

/-- One iteration of the loop of `add_instrumentation`. -/
def step (cfg : Config) (s : State) (raw : Line) : Effect := stepLine cfg s (rewriteWriteMask raw)

/-- The loop. The variables are passed on from line to line; what is written and what is reported
follows the order of the lines. -/
def run (cfg : Config) (s : State) : List Line → Effect
  | [] => { st := s }
  | raw :: rest =>
      let e := step cfg s raw
      let r := run cfg e.st rest
      { st := r.st, out := e.out ++ r.out, report := e.report ++ r.report }

/-- What is written behind the last line: comments with the counts of the file, among them one
that is there only if a comment of the draws was written. -/
def trailer (cfg : Config) (s : State) : List Line :=
  (if s.isMainExe then [chars "###SPA### this module contains main().\n"] else []) ++
  (if s.insLines ≠ 0 then
    [if cfg.use64bit then chars "###SPA### main_payload_64\n"
      else chars "###SPA### main_payload_32\n"] else []) ++
  [chars "###SPA### " ++ cfg.inputFile ++ chars ":  cfi_startproc = " ++
    chars (toString s.nStart) ++ chars ", cfi_endproc = " ++ chars (toString s.nEnd) ++
    chars ", pass_thru = " ++ (if cfg.passThru then ['1'] else ['0']) ++ chars " \n"]

/-- What `add_instrumentation` leaves: the output file, the reported names, and whether it
ends in the fatal error about unequal numbers of startproc and endproc lines. -/
structure Outcome where
  out : List Line
  report : List Line
  fatal : Bool

def addInstrumentation (cfg : Config) (lines : List Line) : Outcome :=
  let r := run cfg {} lines
  { out := r.out ++ trailer cfg r.st, report := r.report,
    fatal := !cfg.beQuiet && !cfg.passThru && r.st.nStart != r.st.nEnd }

end FlashStack.As
