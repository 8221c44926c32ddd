/-
The list of protected functions, from the file to the decision about a call.

`spa_open_protected_funcs_list` packs the lines of a file into one buffer and keeps a
pointer to each; `is_protected_function` searches the strings behind the pointers. The
buffer is a list of characters, a pointer an offset into it. A store outside the buffer or
behind the last pointer has no result, so that a result says that neither happens; what
`malloc` leaves in the buffer is a parameter. A file that cannot be opened ends the program,
and is left out.

* `loadLine_packed`, `load_packed`: the buffer starts with the names read so far, each
  behind its terminator, by induction on the lines;
* `isProtectedIn_iff`: the search compares the callee with these strings, and nothing behind
  them is read;
* `protectedList_membership`: the strings are the non-empty lines of the file, and the
  search decides whether the callee is one of them.

The file must be sorted by bytes, have no line longer than the buffer of `fgets` and no more
non-empty lines than pointers, and hold no NUL byte: `ListFile` says so. None of this is
checked by the function, which reads whatever file it is given.
-/

import FlashStack.As.ProtectedCalls

namespace FlashStack.As

open Lib.CString Lib.Search Std

def maxNumOfSpaProtectedFuncs : Nat := 0x400000

/-! ### The loader -/

/-- `protected_funcs_buf`, `cur_ptr`, and `spa_protected_funcs` up to the number of names. A
pointer into the buffer is its offset, and the array of pointers has a fixed size. -/
structure FuncsTable where
  buf : Text
  cur : Nat
  ptrs : List Nat

/-- `strlen` of the text in a buffer. The buffer of `fgets` holds one terminator, behind what was
read. -/
def strlen (text : Text) : Nat := (text.takeWhile (· != '\x00')).length

/-- The characters `text` are written from `pos` on; `none` when one of them would be behind the
end of the buffer. -/
def store (buf : Text) (pos : Nat) (text : Text) : Option Text :=
  if pos + text.length ≤ buf.length then
    some (buf.take pos ++ text ++ buf.drop (pos + text.length))
  else none

/-- One iteration of the loop of `spa_open_protected_funcs_list`; the terminator goes over the
newline, and an empty line is not entered. -/
def loadLine (s : FuncsTable) (line : Text) : Option FuncsTable :=
  if 1 < strlen line then
    if s.ptrs.length < maxNumOfSpaProtectedFuncs then do
      let buf ← store s.buf s.cur (line.take (strlen line))
      let buf ← store buf (s.cur + strlen line - 1) ['\x00']
      return { buf := buf, cur := s.cur + strlen line, ptrs := s.ptrs ++ [s.cur] }
    else none
  else some s

/-- What `malloc(len + 8)` returns has any contents, `heap`; that it may return nothing is left
out, as the source does not ask. -/
def allocate (heap : Nat → Char) (content : Text) : FuncsTable where
  buf := (List.range (content.length + 8)).map heap
  cur := 0
  ptrs := []

def spaOpenProtectedFuncsList (heap : Nat → Char) (content : Text) : Option FuncsTable :=
  (fgetsAll maxLine [] content).foldlM loadLine (allocate heap content)

/-! ### The search -/

/-- The string at an offset: the characters up to the next terminator, as `strcmp` reads them. -/
def stringAt (buf : Text) (pos : Nat) : Text := (buf.drop pos).takeWhile (· != '\x00')

def isSeparator (c : Char) : Bool := c == '\n' || c == ' ' || c == '\t'

/-- `is_protected_function` on the loaded table. A text without a separator, or one longer than
the local buffer, has no result. -/
def isProtectedIn (s : FuncsTable) (text : Text) : Option Bool :=
  if text.any isSeparator && decide (text.length < maxLine) then
    some (search (fun mid => compare (nameOf text) (stringAt s.buf (s.ptrs.getD mid 0)))
      0 ((s.ptrs.length : Int) - 1))
  else none

/-! ### The buffer -/

/-- The names one behind the other, with their terminators, as they lie in the buffer. -/
def packed (names : List Text) : Text := (names.map (· ++ ['\x00'])).flatten

/-- The table holds `names`, in a buffer of `size` characters: each pointer leads to its name, and
the rest of the buffer is as it was. -/
structure Packed (s : FuncsTable) (size : Nat) (names : List Text) : Prop where
  buf : packed names <+: s.buf
  cur : s.cur = (packed names).length
  size : s.buf.length = size
  ptrs : s.ptrs = (List.range names.length).map fun i => (packed (names.take i)).length

theorem packed_append (names more : List Text) :
    packed (names ++ more) = packed names ++ packed more := by
  simp [packed]

theorem packed_singleton (name : Text) : packed [name] = name ++ ['\x00'] := by
  simp [packed]

theorem takeWhile_noNul {name : Text} (rest : Text) (h : '\x00' ∉ name) :
    (name ++ '\x00' :: rest).takeWhile (· != '\x00') = name := by
  have hall : ∀ c ∈ name, (c != '\x00') = true :=
    fun c hmem => bne_iff_ne.mpr fun hc => h (hc ▸ hmem)
  rw [List.takeWhile_append_of_pos hall, List.takeWhile_cons, bne_self_eq_false,
    if_neg Bool.false_ne_true, List.append_nil]

theorem strlen_line {name : Text} (h : '\x00' ∉ name) :
    strlen (name ++ ['\n']) = name.length + 1 := by
  have hall : ∀ c ∈ name ++ ['\n'], (c != '\x00') = true := by
    intro c hmem
    rcases List.mem_append.mp hmem with hmem | hmem
    · exact bne_iff_ne.mpr fun hc => h (hc ▸ hmem)
    · rw [List.mem_singleton.mp hmem]
      rfl
  have hwhole : (name ++ ['\n'] ++ []).takeWhile (· != '\x00') =
      name ++ ['\n'] ++ [].takeWhile (· != '\x00') := List.takeWhile_append_of_pos hall
  rw [List.append_nil, List.takeWhile_nil, List.append_nil] at hwhole
  rw [strlen, hwhole, List.length_append, List.length_singleton]

/-- A store replaces the characters in the middle. -/
theorem store_append {front mid tail text : Text} (h : mid.length = text.length) :
    store (front ++ mid ++ tail) front.length text = some (front ++ text ++ tail) := by
  have hroom : front.length + text.length ≤ (front ++ mid ++ tail).length := by
    simp only [List.length_append]
    omega
  have htake : (front ++ mid ++ tail).take front.length = front := by
    rw [List.append_assoc, List.take_left]
  have hdrop : (front ++ mid ++ tail).drop (front.length + text.length) = tail := by
    rw [← h, ← List.length_append, List.drop_left]
  rw [store, if_pos hroom, htake, hdrop]

/-- An empty line is passed over. -/
theorem loadLine_empty (s : FuncsTable) : loadLine s ['\n'] = some s := by
  have hlength : strlen ['\n'] = 1 := rfl
  rw [loadLine, hlength, if_neg (Nat.lt_irrefl 1)]

/-- **One line** is packed behind the others. The newline of its text becomes the terminator, so
the names fill as much room as their lines. -/
theorem loadLine_packed {s : FuncsTable} {size : Nat} {names : List Text} (hs : Packed s size names)
    {name : Text} (hne : name ≠ []) (hnul : '\x00' ∉ name)
    (hroom : (packed names).length + name.length + 1 ≤ size)
    (hcount : names.length < maxNumOfSpaProtectedFuncs) :
    ∃ s', loadLine s (name ++ ['\n']) = some s' ∧ Packed s' size (names ++ [name]) := by
  obtain ⟨tail, hbuf⟩ := hs.buf
  have hstrlen := strlen_line hnul
  have hpos : 0 < name.length := List.length_pos_iff.mpr hne
  have hlength : (packed names).length + tail.length = size := by
    rw [← hs.size, ← hbuf, List.length_append]
  -- The part of the buffer that the line goes over, and what is behind it.
  obtain ⟨mid, rest, rfl, hmid⟩ : ∃ mid rest, tail = mid ++ rest ∧ mid.length = name.length + 1 :=
    ⟨tail.take (name.length + 1), tail.drop (name.length + 1), (List.take_append_drop _ _).symm,
      List.length_take_of_le (by omega)⟩
  have hline : store s.buf s.cur (name ++ ['\n']) =
      some (packed names ++ (name ++ ['\n']) ++ rest) := by
    rw [← hbuf, hs.cur, ← List.append_assoc]
    exact store_append (by rw [hmid, List.length_append, List.length_singleton])
  have hend : store (packed names ++ (name ++ ['\n']) ++ rest) (s.cur + (name.length + 1) - 1)
      ['\x00'] = some (packed (names ++ [name]) ++ rest) := by
    have hcut : packed names ++ (name ++ ['\n']) ++ rest =
        packed names ++ name ++ ['\n'] ++ rest := by
      simp
    have hplace : s.cur + (name.length + 1) - 1 = (packed names ++ name).length := by
      rw [hs.cur, List.length_append]
      omega
    have hstore : store (packed names ++ name ++ ['\n'] ++ rest) (packed names ++ name).length
        ['\x00'] = some (packed names ++ name ++ ['\x00'] ++ rest) := store_append (by simp)
    rw [hcut, hplace, hstore, packed_append, packed_singleton, List.append_assoc (packed names)]
  have hptrs : s.ptrs.length = names.length := by rw [hs.ptrs, List.length_map, List.length_range]
  have htake : (name ++ ['\n']).take (name.length + 1) = name ++ ['\n'] :=
    List.take_of_length_le (by simp)
  refine ⟨⟨packed (names ++ [name]) ++ rest, s.cur + (name.length + 1), s.ptrs ++ [s.cur]⟩, ?_,
    ⟨_, rfl⟩, ?_, ?_, ?_⟩
  · rw [loadLine, hstrlen, if_pos (by omega), if_pos (by rwa [hptrs]), htake, hline]
    simp only [Option.bind_eq_bind, Option.bind_some, hend]
    rfl
  · simp only [hs.cur, packed_append, packed_singleton, List.length_append, List.length_singleton]
  · simp only [packed_append, packed_singleton, List.length_append, List.length_singleton] at *
    omega
  · change s.ptrs ++ [s.cur] = _
    rw [hs.ptrs, hs.cur, List.length_append, List.length_singleton, List.range_succ,
      List.map_append, List.map_singleton, List.take_left]
    congr 1
    refine List.map_congr_left fun i hi => ?_
    rw [List.take_append_of_le_length (Nat.le_of_lt (List.mem_range.mp hi))]

/-- The non-empty lines. The others leave no entry in the table. -/
def nonEmpty (lines : List Text) : List Text := lines.filter fun line => !line.isEmpty

/-- The file with these lines, each of them ended by a newline. -/
def fileOf (lines : List Text) : Text := (lines.map (· ++ ['\n'])).flatten

theorem fileOf_cons (line : Text) (lines : List Text) :
    fileOf (line :: lines) = line ++ ['\n'] ++ fileOf lines := by
  simp [fileOf]

/-- **The loop.** It packs the non-empty lines, while there is room for the whole file. -/
theorem load_packed {s : FuncsTable} {size : Nat} {names lines : List Text}
    (hs : Packed s size names) (hnul : ∀ line ∈ lines, '\x00' ∉ line)
    (hroom : (packed names).length + (fileOf lines).length ≤ size)
    (hcount : names.length + (nonEmpty lines).length ≤ maxNumOfSpaProtectedFuncs) :
    ∃ s', (lines.map (· ++ ['\n'])).foldlM loadLine s = some s' ∧
      Packed s' size (names ++ nonEmpty lines) := by
  induction lines generalizing s names with
  | nil => exact ⟨s, rfl, by simpa [nonEmpty] using hs⟩
  | cons line lines ih =>
      have hnul' : ∀ other ∈ lines, '\x00' ∉ other :=
        fun other hmem => hnul other (List.mem_cons_of_mem _ hmem)
      rw [fileOf_cons, List.length_append, List.length_append, List.length_singleton] at hroom
      rw [List.map_cons, List.foldlM_cons]
      by_cases hline : line = []
      · have hsame : nonEmpty (line :: lines) = nonEmpty lines := by simp [nonEmpty, hline]
        rw [hsame] at hcount ⊢
        obtain ⟨s', hload, hs'⟩ := ih hs hnul' (by omega) hcount
        refine ⟨s', ?_, hs'⟩
        rw [hline, List.nil_append, loadLine_empty]
        exact hload
      · have hcons : nonEmpty (line :: lines) = line :: nonEmpty lines := by
          simp [nonEmpty, hline]
        rw [hcons, List.length_cons] at hcount
        obtain ⟨s1, hone, hs1⟩ := loadLine_packed hs hline (hnul line List.mem_cons_self)
          (by omega) (by omega)
        have hlength : (packed (names ++ [line])).length =
            (packed names).length + (line.length + 1) := by
          rw [packed_append, packed_singleton, List.length_append, List.length_append,
            List.length_singleton]
        obtain ⟨s', hload, hs'⟩ := ih hs1 hnul' (by omega)
          (by rw [List.length_append, List.length_singleton]; omega)
        refine ⟨s', ?_, ?_⟩
        · rw [hone]
          exact hload
        · rw [hcons]
          simpa only [List.append_assoc, List.singleton_append] using hs'

/-! ### The strings behind the pointers -/

/-- The table's strings are `names`: each is terminated inside the buffer, before the next one
starts. -/
structure Holds (s : FuncsTable) (names : List Text) : Prop where
  strings : s.ptrs.map (stringAt s.buf) = names
  terminated : ∀ pos ∈ s.ptrs, s.buf[pos + (stringAt s.buf pos).length]? = some '\x00'
  disjoint : s.ptrs.Pairwise fun pos next => pos + (stringAt s.buf pos).length < next

/-- The string at the place of a name is the name, and its terminator is in the buffer. -/
theorem Packed.stringAt {s : FuncsTable} {size : Nat} {names : List Text} (hs : Packed s size names)
    (hnul : ∀ name ∈ names, '\x00' ∉ name) {front back : List Text} {name : Text}
    (hsplit : names = front ++ name :: back) :
    stringAt s.buf (packed front).length = name ∧
      s.buf[(packed front).length + name.length]? = some '\x00' := by
  obtain ⟨tail, hbuf⟩ := hs.buf
  have hcut : s.buf = packed front ++ (name ++ '\x00' :: (packed back ++ tail)) := by
    rw [← hbuf, hsplit, packed_append]
    simp [packed]
  constructor
  · rw [FlashStack.As.stringAt, hcut, List.drop_left]
    exact takeWhile_noNul _ (hnul name (by simp [hsplit]))
  · rw [hcut, List.getElem?_append_right (Nat.le_add_right _ _), Nat.add_sub_cancel_left,
      List.getElem?_append_right (Nat.le_refl _), Nat.sub_self]
    rfl

/-- The next name is packed behind the terminator. -/
theorem packed_take_length {names : List Text} {i : Nat} (hi : i < names.length) :
    (packed (names.take (i + 1))).length =
      (packed (names.take i)).length + (names.get ⟨i, hi⟩).length + 1 := by
  rw [List.take_succ_eq_append_getElem hi, packed_append, packed_singleton]
  simp only [List.length_append, List.length_singleton, List.get_eq_getElem]
  omega

theorem packed_take_le (names : List Text) {i j : Nat} (hij : i ≤ j) :
    (packed (names.take i)).length ≤ (packed (names.take j)).length := by
  have hprefix : (names.take j).take i = names.take i := by rw [List.take_take, Nat.min_eq_left hij]
  have hcut := congrArg packed (List.take_append_drop i (names.take j))
  rw [packed_append, hprefix] at hcut
  rw [← hcut, List.length_append]
  exact Nat.le_add_right _ _

/-- **Strings.** In a packed buffer each pointer reads its own name, for no name has a terminator
inside. -/
theorem Packed.holds {s : FuncsTable} {size : Nat} {names : List Text} (hs : Packed s size names)
    (hnul : ∀ name ∈ names, '\x00' ∉ name) : Holds s names := by
  have hplace : ∀ i (hi : i < names.length),
      FlashStack.As.stringAt s.buf (packed (names.take i)).length = names.get ⟨i, hi⟩ ∧
        s.buf[(packed (names.take i)).length + (names.get ⟨i, hi⟩).length]? = some '\x00' := by
    intro i hi
    have hsplit : names = names.take i ++ names.get ⟨i, hi⟩ :: names.drop (i + 1) := by
      rw [List.get_eq_getElem, List.getElem_cons_drop, List.take_append_drop]
    exact hs.stringAt hnul hsplit
  refine ⟨?_, ?_, ?_⟩
  · refine List.ext_getElem (by simp [hs.ptrs]) fun i hi hi' => ?_
    simp only [List.getElem_map, hs.ptrs, List.getElem_range]
    exact (hplace i hi').1
  · intro pos hmem
    rw [hs.ptrs, List.mem_map] at hmem
    obtain ⟨i, hi, rfl⟩ := hmem
    obtain ⟨hstring, hend⟩ := hplace i (List.mem_range.mp hi)
    rwa [hstring]
  · rw [hs.ptrs, List.pairwise_map]
    refine List.Pairwise.imp_of_mem ?_ List.pairwise_lt_range
    intro i j hi _ hij
    have hi := List.mem_range.mp hi
    have hnext := packed_take_le names hij
    rw [Nat.succ_eq_add_one, packed_take_length hi] at hnext
    rw [(hplace i hi).1]
    omega

/-! ### Membership -/

/-- On a table of sorted strings the search decides membership of the callee's name. -/
theorem isProtectedIn_iff {s : FuncsTable} {names : List Text} (hs : Holds s names)
    (hsorted : SortedNames names) {text : Text} (hsep : ∃ c ∈ text, isSeparator c = true)
    (hlength : text.length < maxLine) :
    ∃ found, isProtectedIn s text = some found ∧ (found = true ↔ nameOf text ∈ names) := by
  have hany : text.any isSeparator = true := List.any_eq_true.mpr hsep
  have hcount : s.ptrs.length = names.length := by rw [← hs.strings, List.length_map]
  -- Up to the number of names, the strings behind the pointers are the names.
  have hget : ∀ i, i < names.length →
      stringAt s.buf (s.ptrs.getD i 0) = names.getD i [] := by
    intro i hi
    have hi' : i < s.ptrs.length := hcount ▸ hi
    have hmap : (s.ptrs.map (stringAt s.buf))[i]? = names[i]? := by rw [hs.strings]
    rw [List.getElem?_map, List.getElem?_eq_getElem hi', List.getElem?_eq_getElem hi,
      Option.map_some, Option.some.injEq] at hmap
    rw [List.getD_eq_getElem?_getD, List.getD_eq_getElem?_getD, List.getElem?_eq_getElem hi',
      List.getElem?_eq_getElem hi]
    exact hmap
  have hordered : Ordered (fun mid => compare (nameOf text) (stringAt s.buf (s.ptrs.getD mid 0)))
      s.ptrs.length := by
    rw [hcount]
    have hnames := hsorted.ordered (nameOf text)
    constructor
    · intro i j hij hj hgt
      rw [hget j hj] at hgt
      rw [hget i (by omega)]
      exact hnames.above i j hij hj hgt
    · intro i j hij hj hlt
      rw [hget i (by omega)] at hlt
      rw [hget j hj]
      exact hnames.below i j hij hj hlt
  refine ⟨_, by rw [isProtectedIn, hany, decide_eq_true hlength]; rfl, ?_⟩
  rw [search_iff hordered, hcount, List.mem_iff_getElem]
  constructor
  · rintro ⟨i, hi, heq⟩
    have hname := LawfulEqCmp.compare_eq_iff_eq.mp heq
    rw [hget i hi, List.getD_eq_getElem?_getD, List.getElem?_eq_getElem hi] at hname
    exact ⟨i, hi, hname.symm⟩
  · rintro ⟨i, hi, heq⟩
    refine ⟨i, hi, LawfulEqCmp.compare_eq_iff_eq.mpr ?_⟩
    rw [hget i hi, List.getD_eq_getElem?_getD, List.getElem?_eq_getElem hi, heq]
    rfl

/-- The search in the table is the one that the rewriting of calls makes. -/
theorem isProtectedIn_eq {s : FuncsTable} {cfg : Config} (hs : Holds s cfg.protectedFuncs)
    (hsorted : SortedNames cfg.protectedFuncs) {text : Text}
    (hsep : ∃ c ∈ text, isSeparator c = true) (hlength : text.length < maxLine) :
    isProtectedIn s text = some (isProtectedFunction cfg text) := by
  obtain ⟨found, hfound, hiff⟩ := isProtectedIn_iff hs hsorted hsep hlength
  rw [hfound, Option.some.injEq, Bool.eq_iff_iff, hiff, isProtectedFunction_iff hsorted]

/-- The lines of a sorted list of names. The function does not check any of this: a longer line
would be split, and another order would hide names. -/
structure ListFile (lines : List Text) : Prop where
  newline : ∀ line ∈ lines, '\n' ∉ line
  noNul : ∀ line ∈ lines, '\x00' ∉ line
  short : ∀ line ∈ lines, line.length < maxLine - 1
  count : (nonEmpty lines).length ≤ maxNumOfSpaProtectedFuncs
  sorted : SortedNames (nonEmpty lines)

/-- **From the file to the decision.** The table holds the non-empty lines in order, and the
search decides whether the callee is one of them. -/
theorem protectedList_membership (heap : Nat → Char) {lines : List Text} (h : ListFile lines) :
    ∃ s, spaOpenProtectedFuncsList heap (fileOf lines) = some s ∧ Holds s (nonEmpty lines) ∧
      ∀ text, (∃ c ∈ text, isSeparator c = true) → text.length < maxLine →
        ∃ found, isProtectedIn s text = some found ∧
          (found = true ↔ nameOf text ∈ nonEmpty lines) := by
  have hsize : ∀ line ∈ lines, line.length + 2 ≤ maxLine := by
    intro line hmem
    have hshort := h.short line hmem
    omega
  have hempty : Packed (allocate heap (fileOf lines)) ((fileOf lines).length + 8) [] :=
    ⟨List.nil_prefix, rfl, by simp [allocate], rfl⟩
  obtain ⟨s, hload, hs⟩ := load_packed hempty h.noNul (Nat.le_trans (by simp [packed])
    (Nat.le_add_right _ 8)) (by simpa using h.count)
  rw [List.nil_append] at hs
  have hnul : ∀ name ∈ nonEmpty lines, '\x00' ∉ name :=
    fun name hmem => h.noNul name (List.mem_of_mem_filter hmem)
  have hholds := hs.holds hnul
  refine ⟨s, ?_, hholds, fun text hsep hlength => isProtectedIn_iff hholds h.sorted hsep hlength⟩
  rw [spaOpenProtectedFuncsList, fileOf, fgetsAll_lines h.newline hsize]
  exact hload

/-- A list with an empty line and a name that occurs twice. -/
def sortedLines : List Text := [chars "f", [], chars "g", chars "g"]

theorem protectedList_membership_sortedLines :
    ∃ s, spaOpenProtectedFuncsList (fun _ => 'x') (fileOf sortedLines) = some s ∧
      Holds s (nonEmpty sortedLines) ∧
      ∀ text, (∃ c ∈ text, isSeparator c = true) → text.length < maxLine →
        ∃ found, isProtectedIn s text = some found ∧
          (found = true ↔ nameOf text ∈ nonEmpty sortedLines) :=
  protectedList_membership _
    { newline := by with_unfolding_all decide
      noNul := by with_unfolding_all decide
      short := by with_unfolding_all decide
      count := by with_unfolding_all decide
      sorted := by
        rw [SortedNames]
        with_unfolding_all decide }

end FlashStack.As
