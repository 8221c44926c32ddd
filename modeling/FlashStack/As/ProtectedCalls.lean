/-
Which direct calls `add_instrumentation` rewrites.

A call of a function that is known to start with the prologue skips it: the return address
goes to the shadow slot from a register, and the call enters at `NAME+19`. The decision is
made on the text of the line: first a text of the linkage table or of thread-local storage
anywhere in it, and then the two tables of library names, by prefix, leave the call as it
is; at last a binary search looks for the name in the list of protected functions.

* `isProtectedFunction_iff`: on a sorted list, the binary search decides membership of the
  callee's name;
* `directCall_rewritten_iff`: the call is rewritten when its callee is on the list and no
  library name is a prefix of the text from the callee on;
* `stripComment_callLine_iff`: the comment behind the call is cut in four spellings; in any
  other the `+19` lands in the comment;
* `directCall_exact_iff`: so the rewriting is as the tables mean it unless a library name is
  a proper prefix of a protected name, or a comment is not cut; `readConfig_not_rewritten`
  is a call of `read_config` that keeps its window open because `read` is in a table.

The overrun of a callee without a separator behind it is left to the module on the list
itself.
-/

import FlashStack.As.Lines

namespace FlashStack.As

open Lib.CString Lib.Search Std

/-! ### The protected list -/

/-- The list is sorted by `strcmp`. Equal names may follow each other, which the search does not
mind. -/
def SortedNames (names : List Line) : Prop := names.Pairwise fun a b => (compare a b).isLE = true

theorem SortedNames.getD_le {names : List Line} (h : SortedNames names) {i j : Nat}
    (hij : i ≤ j) (hj : j < names.length) :
    (compare (names.getD i []) (names.getD j [])).isLE = true := by
  have hi : i < names.length := Nat.lt_of_le_of_lt hij hj
  rw [List.getD_eq_getElem?_getD, List.getD_eq_getElem?_getD, List.getElem?_eq_getElem hi,
    List.getElem?_eq_getElem hj]
  rcases Nat.lt_or_eq_of_le hij with hlt | rfl
  · exact List.pairwise_iff_getElem.mp h i j hi hj hlt
  · have hrefl : compare (names.get ⟨i, hi⟩) (names.get ⟨i, hi⟩) = .eq := ReflCmp.compare_self
    exact congrArg Ordering.isLE hrefl

theorem SortedNames.ordered {names : List Line} (h : SortedNames names) (name : Line) :
    Ordered (fun mid => compare name (names.getD mid [])) names.length where
  above i j hij hj hgt := by
    have hle := h.getD_le hij hj
    rw [OrientedCmp.gt_iff_lt] at hgt ⊢
    exact TransCmp.lt_of_isLE_of_lt hle hgt
  below i j hij hj hlt := TransCmp.lt_of_lt_of_isLE hlt (h.getD_le hij hj)

/-- **Membership.** On a sorted list the search finds the name of the callee exactly if it is
there. Anything behind the name is not compared. -/
theorem isProtectedFunction_iff {cfg : Config} (h : SortedNames cfg.protectedFuncs) (line : Line) :
    isProtectedFunction cfg line = true ↔ nameOf line ∈ cfg.protectedFuncs := by
  rw [isProtectedFunction, search_iff (h.ordered (nameOf line)), List.mem_iff_getElem]
  constructor
  · rintro ⟨i, hi, heq⟩
    have hname := LawfulEqCmp.compare_eq_iff_eq.mp heq
    rw [List.getD_eq_getElem?_getD, List.getElem?_eq_getElem hi] at hname
    exact ⟨i, hi, hname.symm⟩
  · rintro ⟨i, hi, heq⟩
    refine ⟨i, hi, LawfulEqCmp.compare_eq_iff_eq.mpr ?_⟩
    rw [List.getD_eq_getElem?_getD, List.getElem?_eq_getElem hi, heq]
    rfl

theorem isTargetFunc_iff {line : Line} {funcs : List Line} :
    isTargetFunc line funcs = true ↔ ∃ entry ∈ funcs, entry <+: line := by
  rw [isTargetFunc, List.any_eq_true]
  simp only [startsWith_iff]

/-! ### Direct calls -/

/-- The line of a direct call; `tail` is what follows the callee, up to and with the newline:
blanks, a comment, or nothing else. -/
def callLine (name tail : Line) : Line := chars "\tcallq\t" ++ name ++ tail

def IsSeparator (c : Char) : Prop := c = '\n' ∨ c = ' ' ∨ c = '\t'

/-- The name of a callee. A star would make the call an indirect one, and a hash would begin a
comment. -/
structure IsSymbol (name : Line) : Prop where
  ne : name ≠ []
  star : name.head? ≠ some '*'
  hash : '#' ∉ name
  sep : ∀ c ∈ name, ¬ IsSeparator c

/-- Blanks, and behind a blank a comment, up to the end of the line. -/
structure IsTail (tail : Line) : Prop where
  split : ∃ blanks text, tail = blanks ++ text ++ ['\n'] ∧ (∀ c ∈ blanks, c = ' ' ∨ c = '\t') ∧
    '\n' ∉ text ∧ (text = [] ∨ blanks ≠ [] ∧ text.head? = some '#')

theorem IsTail.head {tail : Line} (h : IsTail tail) :
    ∃ c rest, tail = c :: rest ∧ IsSeparator c := by
  obtain ⟨blanks, text, rfl, hblanks, -, htext⟩ := h.split
  cases blanks with
  | nil =>
      rcases htext with rfl | ⟨hne, -⟩
      · exact ⟨'\n', [], rfl, Or.inl rfl⟩
      · exact absurd rfl hne
  | cons c blanks => exact ⟨c, _, rfl, Or.inr (hblanks c List.mem_cons_self)⟩

/-- Where the name ends, the search for its end stops. -/
theorem nameOf_append {name tail : Line} (hname : IsSymbol name) {c : Char} {rest : Line}
    (htail : tail = c :: rest) (hc : IsSeparator c) : nameOf (name ++ tail) = name := by
  have hall : ∀ d ∈ name, (d != '\n' && d != ' ' && d != '\t') = true := by
    intro d hd
    have hsep := hname.sep d hd
    simp only [IsSeparator, not_or] at hsep
    simp [hsep]
  have hstop : (c != '\n' && c != ' ' && c != '\t') = false := by
    rcases hc with rfl | rfl | rfl <;> rfl
  rw [nameOf, List.takeWhile_append_of_pos hall, htail, List.takeWhile_cons, hstop]
  simp

theorem charAt_callLine (name tail : Line) {i : Nat} (hi : i < 7) :
    charAt (callLine name tail) i = charAt (chars "\tcallq\t") i := by
  rw [callLine, List.append_assoc]
  exact charAt_append _ (Nat.lt_of_lt_of_eq hi (by with_unfolding_all decide))

theorem drop_callLine (name tail : Line) : (callLine name tail).drop 7 = name ++ tail := by
  have hlength : (chars "\tcallq\t").length = 7 := by with_unfolding_all decide
  rw [callLine, List.append_assoc, ← hlength, List.drop_left]

/-- A direct call passes the tests of the direct calls. What is left are the list, the tables and
the comment. -/
theorem rewriteCall_callLine {cfg : Config} {s : State} {name : Line} (hname : IsSymbol name)
    (tail : Line) (h : callsRewritten cfg s = true) :
    rewriteCall cfg s (callLine name tail) = some (directCall cfg (callLine name tail)) := by
  have hstar : startsWith (callLine name tail) spaCallqStar = false := by
    refine startsWith_eq_false 7 (by with_unfolding_all decide) ?_
    have hseven : charAt (callLine name tail) 7 = charAt (name ++ tail) 0 := by
      rw [← drop_callLine, charAt, charAt, List.getD_eq_getElem?_getD, List.getD_eq_getElem?_getD,
        List.getElem?_drop]
    have hspa : charAt spaCallqStar 7 = '*' := by with_unfolding_all decide
    rw [hseven, hspa]
    cases hcase : name with
    | nil => exact absurd hcase hname.ne
    | cons c rest =>
        intro hc
        refine hname.star ?_
        rw [hcase, List.head?_cons]
        exact congrArg some hc
  have hno : startsWith (callLine name tail) spaCallqNoStar = true := by
    have hsplit : chars "\tcallq\t" = spaCallqNoStar ++ ['\t'] := by with_unfolding_all decide
    rw [startsWith_iff, callLine, hsplit, List.append_assoc, List.append_assoc]
    exact List.prefix_append _ _
  have hsix : (charAt (callLine name tail) 6 != '*') = true := by
    rw [charAt_callLine _ _ (by decide)]
    with_unfolding_all decide
  rw [rewriteCall, if_pos h, hstar, if_neg Bool.false_ne_true, hno, hsix]
  rfl

/-- What the iteration writes for the line of a direct call. -/
theorem stepLine_callLine {cfg : Config} {s : State} {name : Line} (hname : IsSymbol name)
    (tail : Line) (h : callsRewritten cfg s = true) :
    (stepLine cfg s (callLine name tail)).out =
      (dumpTrampoline cfg s (callLine name tail)).2 ++ directCall cfg (callLine name tail) := by
  have hone : charAt (callLine name tail) 1 ≠ '.' := by
    rw [charAt_callLine _ _ (by decide)]
    with_unfolding_all decide
  have hcall := rewriteCall_callLine hname tail
    ((callsRewritten_dumpTrampoline cfg s (callLine name tail)).trans h)
  simp [stepLine, isStartproc_false hone, isEndproc_false hone, hcall]

theorem IsSymbol.blank_not_mem {name : Line} (h : IsSymbol name) : ' ' ∉ name :=
  fun hmem => h.sep ' ' hmem (Or.inr (Or.inl rfl))

theorem newline_not_mem_callLine {name blanks text : Line} (hname : IsSymbol name)
    (hblanks : ∀ c ∈ blanks, c = ' ' ∨ c = '\t') (htext : '\n' ∉ text) :
    '\n' ∉ (callLine name (blanks ++ text ++ ['\n'])).dropLast := by
  have hcallq : '\n' ∉ chars "\tcallq\t" := by with_unfolding_all decide
  have hdrop : (callLine name (blanks ++ text ++ ['\n'])).dropLast =
      chars "\tcallq\t" ++ name ++ (blanks ++ text) := by
    rw [callLine, ← List.append_assoc _ (blanks ++ text), List.dropLast_concat]
  rw [hdrop]
  simp only [List.mem_append, not_or]
  refine ⟨⟨hcallq, fun h => hname.sep _ h (Or.inl rfl)⟩, fun h => ?_, htext⟩
  rcases hblanks _ h with h | h <;> exact absurd h (by decide)

/-- The mask rewriting leaves the callee alone; it may change the comment. -/
theorem rewriteWriteMask_callLine {name tail : Line} (hname : IsSymbol name) (htail : IsTail tail) :
    ∃ tail', rewriteWriteMask (callLine name tail) = callLine name tail' ∧ IsTail tail' := by
  obtain ⟨blanks, text, rfl, hblanks, hnewline, htext⟩ := htail.split
  rcases rewriteWriteMask_cases (newline_not_mem_callLine hname hblanks hnewline) with
    heq | ⟨body, hraw, heq⟩
  · exact ⟨_, heq, htail⟩
  · have hmask : spaWriteMaskClang = chars "\x7d \x7bz\x7d" ++ ['\n'] := by
      with_unfolding_all decide
    have hcut : chars "\tcallq\t" ++ name ++ (blanks ++ text) =
        body ++ chars "\x7d \x7bz\x7d" := by
      rw [hmask, callLine, ← List.append_assoc, ← List.append_assoc body] at hraw
      exact (List.append_inj' hraw rfl).1
    rcases htext with rfl | ⟨hne, hhash⟩
    · -- Without a comment the line would have to end in a brace behind a blank.
      rw [List.append_nil] at hcut
      have hblank : ' ' ∈ blanks := by
        have hmem : ' ' ∈ body ++ chars "\x7d \x7bz\x7d" :=
          List.mem_append_right _ (by with_unfolding_all decide)
        rw [← hcut, List.mem_append, List.mem_append] at hmem
        rcases hmem with (hcallq | hmem) | hmem
        · exact absurd hcallq (by with_unfolding_all decide)
        · exact absurd hmem hname.blank_not_mem
        · exact hmem
      have hne : blanks ≠ [] := List.ne_nil_of_mem hblank
      have hbrace : (chars "\x7d \x7bz\x7d").getLast? = some '\x7d' := by with_unfolding_all decide
      have hleft : (chars "\tcallq\t" ++ name ++ blanks).getLast? = some (blanks.getLast hne) := by
        rw [List.getLast?_append, List.getLast?_eq_some_getLast hne, Option.some_or]
      have hright : (body ++ chars "\x7d \x7bz\x7d").getLast? = some '\x7d' := by
        rw [List.getLast?_append, hbrace, Option.some_or]
      rw [hcut, hright] at hleft
      have hbr : blanks.getLast hne = '\x7d' := (Option.some.inj hleft).symm
      rcases hblanks _ (List.getLast_mem hne) with h | h <;> rw [hbr] at h <;>
        exact absurd h (by decide)
    · cases text with
      | nil => simp at hhash
      | cons c text =>
          obtain rfl : c = '#' := Option.some.inj hhash
          rw [← List.append_assoc] at hcut
          rcases List.append_eq_append_iff.mp hcut with ⟨as, hbody, hrest⟩ | ⟨bs, -, hrest⟩
          · cases as with
            | nil =>
                have hfirst : chars "\x7d \x7bz\x7d" = '\x7d' :: chars " \x7bz\x7d" := by
                  with_unfolding_all decide
                rw [List.nil_append, hfirst] at hrest
                exact absurd (List.cons.inj hrest).1 (by decide)
            | cons d as =>
                obtain ⟨rfl, hsame⟩ := List.cons.inj hrest
                have hgcc : spaWriteMaskGcc = chars "\x7d\x7bz\x7d" ++ ['\n'] := by
                  with_unfolding_all decide
                refine ⟨blanks ++ '#' :: as ++ spaWriteMaskGcc, ?_,
                  blanks, '#' :: as ++ chars "\x7d\x7bz\x7d", ?_, hblanks, ?_, .inr ⟨hne, rfl⟩⟩
                · rw [heq, hbody, callLine]
                  simp only [List.append_assoc]
                · rw [hgcc]
                  simp only [List.append_assoc]
                · have has : '\n' ∉ as := fun h =>
                    hnewline (List.mem_cons_of_mem _ (hsame ▸ List.mem_append_left _ h))
                  have hbraces : '\n' ∉ chars "\x7d\x7bz\x7d" := by with_unfolding_all decide
                  simpa using ⟨has, hbraces⟩
          · have hmem : '#' ∈ chars "\x7d \x7bz\x7d" := by
              rw [hrest]
              exact List.mem_append_right _ List.mem_cons_self
            exact absurd hmem (by with_unfolding_all decide)

/-- The mask rewriting makes no call one of another module. -/
theorem isOtherModuleCall_of_rewriteWriteMask {raw : Line} (h : '\n' ∉ raw.dropLast)
    (hcall : isOtherModuleCall (rewriteWriteMask raw) = true) : isOtherModuleCall raw = true := by
  simp only [isOtherModuleCall, Bool.or_eq_true] at hcall ⊢
  rcases hcall with (hplt | hplt) | htls
  · exact Or.inl (Or.inl (contains_of_rewriteWriteMask h (by with_unfolding_all decide)
      (by with_unfolding_all decide) hplt))
  · exact Or.inl (Or.inr (contains_of_rewriteWriteMask h (by with_unfolding_all decide)
      (by with_unfolding_all decide) hplt))
  · exact Or.inr (contains_of_rewriteWriteMask h (by with_unfolding_all decide)
      (by with_unfolding_all decide) htls)

/-- The text of a call line from the callee on, as the iteration reads it. -/
def calleeText (raw : Line) : Line := (rewriteWriteMask raw).drop 7

/-- The comment, if there is one, is cut off: the code looks for `" # "`, `"\t#\t"`, `" #\t"`
and `"\t# "`, in this order. -/
def CommentCut (raw : Line) : Prop := '#' ∉ stripComment (rewriteWriteMask raw)

instance (raw : Line) : Decidable (CommentCut raw) := inferInstanceAs (Decidable (_ ∉ _))

example : CommentCut (callLine (chars "foo") (chars "\t# bar\n")) := by with_unfolding_all decide

/-- Behind this comment the `+19` would be part of it. -/
example : ¬ CommentCut (callLine (chars "foo") (chars "\t#bar\n")) := by with_unfolding_all decide

/-- The call of `name` that skips the prologue: the return address is stored before the call,
which goes to `name+19`. -/
def safeCallBlock (name blanks : Line) : List Line :=
  [chars "\tleaq\t1f(%rip), %r11\n",
    chars "\tmovq\t$-0x800000000000, %r10\n",
    chars "\tmovq\t%r11, %gs:-8(%rsp, %r10, 1)\n",
    callLine name (blanks ++ chars "+19\n"),
    chars "1:\n"]

/-- The iteration replaces the line by the call of `name` that skips the prologue. -/
def Rewritten (cfg : Config) (s : State) (name tail : Line) : Prop :=
  ∃ blanks, (∀ c ∈ blanks, c = ' ' ∨ c = '\t') ∧ (step cfg s (callLine name tail)).out =
    (dumpTrampoline cfg s (rewriteWriteMask (callLine name tail))).2 ++ safeCallBlock name blanks

theorem directCallBlock_eq_safeCallBlock_iff {line name blanks : Line} :
    directCallBlock line = safeCallBlock name blanks ↔
      stripComment line = callLine name blanks := by
  have hcall : callLine name (blanks ++ chars "+19\n") =
      callLine name blanks ++ chars "+19\n" := by
    rw [callLine, callLine, List.append_assoc _ blanks]
  rw [directCallBlock, safeCallBlock, hcall]
  constructor
  · intro h
    have hfour := congrArg (fun block => block.getD 3 []) h
    exact List.append_cancel_right hfour
  · intro h
    rw [h]

theorem hash_not_mem_callLine {name blanks : Line} (hname : IsSymbol name)
    (hblanks : ∀ c ∈ blanks, c = ' ' ∨ c = '\t') : '#' ∉ callLine name blanks := by
  have hcallq : '#' ∉ chars "\tcallq\t" := by with_unfolding_all decide
  rw [callLine, List.mem_append, List.mem_append]
  rintro ((h | h) | h)
  · exact hcallq h
  · exact hname.hash h
  · rcases hblanks _ h with h | h <;> exact absurd h (by decide)

/-- **What is left of a call** is the callee with blanks behind it, if the comment is cut off. -/
theorem stripComment_callLine_iff {name tail : Line} (hname : IsSymbol name) (htail : IsTail tail) :
    (∃ blanks, (∀ c ∈ blanks, c = ' ' ∨ c = '\t') ∧
        stripComment (callLine name tail) = callLine name blanks) ↔
      '#' ∉ stripComment (callLine name tail) := by
  constructor
  · rintro ⟨blanks, hblanks, heq⟩
    rw [heq]
    exact hash_not_mem_callLine hname hblanks
  · intro hcut
    obtain ⟨blanks, text, rfl, hblanks, -, htext⟩ := htail.split
    obtain ⟨rest, hline, hrest⟩ :=
      cutAtComment_stripComment (callLine name (blanks ++ text ++ ['\n']))
    generalize stripComment (callLine name (blanks ++ text ++ ['\n'])) = cut at hcut hline
    have hfront := hash_not_mem_callLine hname hblanks
    have hwhole : callLine name blanks ++ text = cut ++ rest := by
      rw [← hline, callLine, callLine, ← List.append_assoc _ (blanks ++ text), List.dropLast_concat,
        List.append_assoc _ blanks]
    rcases htext with rfl | ⟨hne, hhash⟩
    · -- Without a comment there is nothing to cut.
      rw [List.append_nil] at hwhole
      rcases hrest with rfl | ⟨c, rest', -, rfl⟩
      · exact ⟨blanks, hblanks, by rw [hwhole, List.append_nil]⟩
      · rw [hwhole] at hfront
        exact absurd (by simp) hfront
    · obtain ⟨text, rfl⟩ : ∃ text', text = '#' :: text' := List.head?_eq_some_iff.mp hhash
      rcases hrest with rfl | ⟨c, rest', hc, rfl⟩
      · rw [List.append_nil] at hwhole
        exact absurd (hwhole ▸ List.mem_append_right _ List.mem_cons_self) hcut
      · -- The cut is in front of the blank before the first hash.
        have hne' : c ≠ '#' := by rcases hc with rfl | rfl <;> decide
        have hfirst : callLine name blanks ++ '#' :: text = (cut ++ [c]) ++ '#' :: rest' := by
          rw [hwhole, List.append_assoc]
          rfl
        have hcut' : '#' ∉ cut ++ [c] := by simpa [Ne.symm hne'] using hcut
        have hle := prefix_append_cons hfront (hfirst ▸ List.prefix_append _ _)
        have hge := prefix_append_cons hcut' (hfirst.symm ▸ List.prefix_append _ _)
        have hcallee := hle.eq_of_length_le hge.length_le
        obtain ⟨blanks', b, rfl⟩ :=
          (List.eq_nil_or_concat' blanks).resolve_left hne
        refine ⟨blanks', fun d hd => hblanks d (List.mem_append_left _ hd), ?_⟩
        rw [callLine, ← List.append_assoc] at hcallee
        exact ((List.append_inj' hcallee rfl).1).symm

/-- The line as it is does not take its own place in the block. -/
theorem safeCallBlock_ne (line name blanks : Line) : [line] ≠ safeCallBlock name blanks := by
  intro h
  rw [safeCallBlock] at h
  exact absurd (List.cons.inj h).2 (List.cons_ne_nil _ _).symm

/-- **What the code decides**: the callee is on the list, no library name is a prefix of the text
from the callee on, and the comment is cut off. -/
theorem directCall_rewritten_iff {cfg : Config} {s : State} {name tail : Line}
    (hs : callsRewritten cfg s = true) (hsorted : SortedNames cfg.protectedFuncs)
    (hname : IsSymbol name) (htail : IsTail tail)
    (hother : isOtherModuleCall (callLine name tail) = false) :
    Rewritten cfg s name tail ↔ name ∈ cfg.protectedFuncs ∧
      (∀ entry ∈ cfg.libcNames ++ cfg.libcxxNames,
        ¬ entry <+: calleeText (callLine name tail)) ∧ CommentCut (callLine name tail) := by
  obtain ⟨tail', hline, htail'⟩ := rewriteWriteMask_callLine hname htail
  obtain ⟨c, rest, hhead, hc⟩ := htail'.head
  have hother' : isOtherModuleCall (callLine name tail') = false := by
    obtain ⟨blanks, text, rfl, hblanks, hnewline, -⟩ := htail.split
    rw [← hline]
    refine Bool.eq_false_iff.mpr fun hcall => ?_
    have hraw := isOtherModuleCall_of_rewriteWriteMask
      (newline_not_mem_callLine hname hblanks hnewline) hcall
    rw [hother] at hraw
    exact Bool.false_ne_true hraw
  have htext : calleeText (callLine name tail) = name ++ tail' := by
    rw [calleeText, hline, drop_callLine]
  have hlib : (isLibcxxFuncCalled cfg (name ++ tail') || isLibcFuncCalled cfg (name ++ tail')) =
      true ↔ ∃ entry ∈ cfg.libcNames ++ cfg.libcxxNames, entry <+: name ++ tail' := by
    rw [Bool.or_eq_true, isLibcxxFuncCalled, isLibcFuncCalled, isTargetFunc_iff, isTargetFunc_iff]
    simp only [List.mem_append, or_and_right, exists_or]
  have hprotected : isProtectedFunction cfg (name ++ tail') = true ↔ name ∈ cfg.protectedFuncs := by
    rw [isProtectedFunction_iff hsorted, nameOf_append hname hhead hc]
  -- A line that is copied is not the block.
  have hcopied : (∃ blanks, (∀ c ∈ blanks, c = ' ' ∨ c = '\t') ∧
      [callLine name tail'] = safeCallBlock name blanks) ↔ False :=
    iff_false_intro fun ⟨_, _, h⟩ => safeCallBlock_ne _ _ _ h
  simp only [Rewritten, step, hline, stepLine_callLine hname tail' hs, List.append_cancel_left_eq]
  rw [htext, CommentCut, hline, directCall, if_neg (by rw [hother']; exact Bool.false_ne_true),
    drop_callLine]
  by_cases hentry : ∃ entry ∈ cfg.libcNames ++ cfg.libcxxNames, entry <+: name ++ tail'
  · rw [if_pos (hlib.mpr hentry), hcopied]
    obtain ⟨entry, hmem, hpre⟩ := hentry
    exact ⟨False.elim, fun h => h.2.1 entry hmem hpre⟩
  · rw [if_neg (fun h => hentry (hlib.mp h))]
    have hnone : ∀ entry ∈ cfg.libcNames ++ cfg.libcxxNames, ¬ entry <+: name ++ tail' :=
      fun entry hmem hpre => hentry ⟨entry, hmem, hpre⟩
    by_cases hmem : name ∈ cfg.protectedFuncs
    · rw [if_pos (hprotected.mpr hmem)]
      simp only [directCallBlock_eq_safeCallBlock_iff]
      rw [stripComment_callLine_iff hname htail']
      exact ⟨fun h => ⟨hmem, hnone, h⟩, fun h => h.2.2⟩
    · rw [if_neg (fun h => hmem (hprotected.mp h)), hcopied]
      exact ⟨False.elim, fun h => hmem h.1⟩

/-- A library name is a prefix of itself, with whatever follows. -/
theorem prefix_calleeText {name tail : Line} (hname : IsSymbol name) (htail : IsTail tail) :
    name <+: calleeText (callLine name tail) := by
  obtain ⟨tail', hline, -⟩ := rewriteWriteMask_callLine hname htail
  rw [calleeText, hline, drop_callLine]
  exact List.prefix_append _ _

/-- **The exact condition** for the decision that the tables mean: on the list, and not a
library name. It is met unless a library name other than the callee's own is a prefix of a
callee on the list, or its call has a comment that the code does not recognise. -/
theorem directCall_exact_iff {cfg : Config} {s : State} {name tail : Line}
    (hs : callsRewritten cfg s = true) (hsorted : SortedNames cfg.protectedFuncs)
    (hname : IsSymbol name) (htail : IsTail tail)
    (hother : isOtherModuleCall (callLine name tail) = false) :
    (Rewritten cfg s name tail ↔
        name ∈ cfg.protectedFuncs ∧ name ∉ cfg.libcNames ∧ name ∉ cfg.libcxxNames) ↔
      (name ∉ cfg.protectedFuncs ∨ name ∈ cfg.libcNames ++ cfg.libcxxNames ∨
        (∀ entry ∈ cfg.libcNames ++ cfg.libcxxNames,
          ¬ entry <+: calleeText (callLine name tail)) ∧ CommentCut (callLine name tail)) := by
  rw [directCall_rewritten_iff hs hsorted hname htail hother]
  have hlibrary : name ∈ cfg.libcNames ++ cfg.libcxxNames ↔
      ¬ (name ∉ cfg.libcNames ∧ name ∉ cfg.libcxxNames) := by
    rw [List.mem_append]
    by_cases hlibc : name ∈ cfg.libcNames <;> simp [hlibc]
  by_cases hmem : name ∈ cfg.protectedFuncs
  · by_cases hlib : name ∈ cfg.libcNames ++ cfg.libcxxNames
    · have hpre : ¬ ∀ entry ∈ cfg.libcNames ++ cfg.libcxxNames,
          ¬ entry <+: calleeText (callLine name tail) :=
        fun h => h name hlib (prefix_calleeText hname htail)
      have hnot := hlibrary.mp hlib
      exact ⟨fun _ => Or.inr (Or.inl hlib),
        fun _ => ⟨fun h => absurd h.2.1 hpre, fun h => absurd h.2 hnot⟩⟩
    · have hnot : name ∉ cfg.libcNames ∧ name ∉ cfg.libcxxNames := by
        by_contra h
        exact hlib (hlibrary.mpr h)
      constructor
      · intro h
        exact Or.inr (Or.inr (h.mpr ⟨hmem, hnot⟩).2)
      · rintro (h | h | h)
        · exact absurd hmem h
        · exact absurd h hlib
        · exact ⟨fun _ => ⟨hmem, hnot⟩, fun _ => ⟨hmem, h⟩⟩
  · exact ⟨fun _ => Or.inl hmem, fun _ => ⟨fun h => absurd h.1 hmem, fun h => absurd h.1 hmem⟩⟩

/-! ### A protected function whose name starts with a library name -/

/-- The tables cut down to one entry each: `read` is a library name, and `read_config` is on the
list. -/
def readConfig : Config where
  passThru := false
  use64bit := true
  clangMode := false
  with64BitCmdOption := true
  callInstrumented := true
  beQuiet := true
  instRatio := 0
  inputFile := []
  protectedFuncs := [chars "read_config"]
  libcNames := [chars "read"]
  libcxxNames := []
  random _ := 0

/-- The variables behind `.text`, a label and a startproc line. -/
def readConfigState : State :=
  (run readConfig {} [chars "\t.text\n", chars "main:\n", spaCfiStartproc]).st

theorem isSymbol_readConfig : IsSymbol (chars "read_config") where
  ne := by with_unfolding_all decide
  star := by with_unfolding_all decide
  hash := by with_unfolding_all decide
  sep := by
    have hall : ((chars "read_config").all fun c => c != '\n' && c != ' ' && c != '\t') = true := by
      with_unfolding_all decide
    intro c hc
    have hsep := List.all_eq_true.mp hall c hc
    rintro (rfl | rfl | rfl) <;> exact absurd hsep (by decide)

theorem isTail_newline : IsTail ['\n'] :=
  ⟨[], [], rfl, by simp, by simp, Or.inl rfl⟩

theorem sortedNames_readConfig : SortedNames readConfig.protectedFuncs :=
  List.pairwise_singleton _ _

theorem directCall_exact_iff_readConfig :
    (Rewritten readConfig readConfigState (chars "read_config") ['\n'] ↔
        chars "read_config" ∈ readConfig.protectedFuncs ∧
          chars "read_config" ∉ readConfig.libcNames ∧
          chars "read_config" ∉ readConfig.libcxxNames) ↔
      (chars "read_config" ∉ readConfig.protectedFuncs ∨
        chars "read_config" ∈ readConfig.libcNames ++ readConfig.libcxxNames ∨
        (∀ entry ∈ readConfig.libcNames ++ readConfig.libcxxNames,
          ¬ entry <+: calleeText (callLine (chars "read_config") ['\n'])) ∧
          CommentCut (callLine (chars "read_config") ['\n'])) :=
  directCall_exact_iff (by with_unfolding_all decide) sortedNames_readConfig isSymbol_readConfig
    isTail_newline (by with_unfolding_all decide)

/-- `read_config` is on the list and is no library function, and a call of it stays as it is. -/
theorem readConfig_not_rewritten :
    ¬ (Rewritten readConfig readConfigState (chars "read_config") ['\n'] ↔
      chars "read_config" ∈ readConfig.protectedFuncs ∧
        chars "read_config" ∉ readConfig.libcNames ∧
        chars "read_config" ∉ readConfig.libcxxNames) := by
  intro h
  have hrewritten := h.mpr (by with_unfolding_all decide)
  have hnone := ((directCall_rewritten_iff (by with_unfolding_all decide) sortedNames_readConfig
    isSymbol_readConfig isTail_newline (by with_unfolding_all decide)).mp hrewritten).2.1
  exact hnone (chars "read") (by with_unfolding_all decide) (by with_unfolding_all decide)

end FlashStack.As
