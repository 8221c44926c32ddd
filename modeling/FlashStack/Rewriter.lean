/-
The binary rewriter, `code_rewriter.py`.

The rewriter scans the image of a binary for the prologues and epilogues of one stack size
and overwrites their fields for another. An image is a list of bytes, sizes are integers as
in the source, and its four-byte fields are the low bytes of an integer, whatever its
magnitude. An `IndexError` of the source, and a loop that does not end, are `none`.

* `rewriteImage_exact`: the scan finds every occurrence, patches exactly its fields, and
  counts it;
* `rewriteImage_roundtrip`: rewriting back restores the image.

Both speak of sizes for which the fields hold what they are to hold (`IsStackSize`); other
sizes are the subject of the modules on sites and on meaning. The invariant of the scan is
`Scanned`: up to the index the image is patched, from there on it is the old one, and the
counts are those of the old image. It carries because no occurrence overlaps another one
(`pattern_separated`): a pattern begins with bytes that its other places, fields included,
do not have.

Reading and writing the file, the progress output, and the walk over a directory are left
out, and so is `data_rewriter.py`, which does the same scan for one pattern with one field.
-/

import FlashStack.Lib.Memory
import FlashStack.Lib.Patch
import Mathlib.Algebra.Group.Int.Defs

namespace FlashStack.Rewriter

open Lib.Memory Lib.Patch

/-! ### The source -/

def prologPattern : List Byte :=
  [0x49, 0x89, 0xe3,
    0x49, 0x81, 0xe3, 0x00, 0x00, 0x80, 0xff,
    0x4d, 0x8b, 0x9b, 0x00, 0x00, 0x00, 0xff,
    0x4c, 0x03, 0x1c, 0x24,
    0x4c, 0x89, 0x9c, 0x24, 0x00, 0x00, 0x80, 0xff]

def epilogPattern : List Byte :=
  [0x49, 0x89, 0xe2,
    0x49, 0x81, 0xe2, 0x00, 0x00, 0x80, 0xff,
    0x4c, 0x8b, 0x9c, 0x24, 0x00, 0x00, 0x80, 0xff,
    0x4d, 0x2b, 0x9a, 0x00, 0x00, 0x00, 0xff,
    0x48, 0x83, 0xc4, 0x08,
    0x41, 0xff, 0xe3]

/-- The low `n` bytes of an integer, the lowest first. -/
def getBytes : Nat → Int → List Byte
  | 0, _ => []
  | n + 1, x => BitVec.ofInt 8 x :: getBytes n (x >>> (8 : Nat))

/-- `get_four_bytes`. Integers of the source have no bound; what lies above the low four bytes is
dropped. -/
def getFourBytes (x : Int) : List Byte := getBytes 4 x

/-- `modify_four_bytes`; `none` when an index is behind the end, where the source raises an error.
-/
def modifyFourBytes (bArr : List Byte) (i : Nat) : List Byte → Option (List Byte)
  | [] => some bArr
  | v :: bs => if i < bArr.length then modifyFourBytes (bArr.set i v) (i + 1) bs else none

/-- The common body of `modify_prolog_bytes` and `modify_epilog_bytes`: `-x` goes to the
indexes `first` and `second`, `-2 * x` to the index `third`. -/
def modifyBytes (first second third : Nat) (bArr : List Byte) (i : Nat) (x : Int) :
    Option (List Byte) := do
  let bArr ← modifyFourBytes bArr (first + i) (getFourBytes (-x))
  let bArr ← modifyFourBytes bArr (second + i) (getFourBytes (-x))
  modifyFourBytes bArr (third + i) (getFourBytes (-2 * x))

/-- `modify_prolog_bytes`; `prolog_indexes` is `(6, 13, 25)`. Its fields are the mask, the TLS
offset and the slot offset. -/
def modifyPrologBytes : List Byte → Nat → Int → Option (List Byte) := modifyBytes 6 25 13

/-- `modify_epilog_bytes`; `epilog_indexes` is `(6, 14, 21)`. The slot comes before the TLS
offset. -/
def modifyEpilogBytes : List Byte → Nat → Int → Option (List Byte) := modifyBytes 6 14 21

/-- `is_matching`. A pattern that would go beyond the end of the image does not match. -/
def isMatching (binImg : List Byte) (i : Nat) : List Byte → Bool
  | [] => true
  | p :: pattern =>
      match binImg[i]? with
      | none => false
      | some v => if v ≠ p then false else isMatching binImg (i + 1) pattern

/-- The loop of `modify_all_prologs_and_epilogs`, less its progress output; `n` is the
length of the image. -/
def modifyLoop (prolog epilog : List Byte) (x : Int) (n : Nat) :
    Nat → Nat → List Byte → Nat → Nat → Option (List Byte × Nat × Nat)
  | 0, _, _, _, _ => none
  | fuel + 1, i, binImg, proCnt, epiCnt =>
      if i + min epilog.length prolog.length ≤ n then
        if isMatching binImg i prolog then do
          let binImg ← modifyPrologBytes binImg i x
          modifyLoop prolog epilog x n fuel (i + prolog.length) binImg (proCnt + 1) epiCnt
        else if isMatching binImg i epilog then do
          let binImg ← modifyEpilogBytes binImg i x
          modifyLoop prolog epilog x n fuel (i + epilog.length) binImg proCnt (epiCnt + 1)
        else modifyLoop prolog epilog x n fuel (i + 1) binImg proCnt epiCnt
      else some (binImg, proCnt, epiCnt)

/-- `modify_all_prologs_and_epilogs`: the image it leaves, and the pair it returns. Each iteration
goes on by one byte at least, which bounds their number. -/
def modifyAllPrologsAndEpilogs (binImg prolog epilog : List Byte) (x : Int) :
    Option (List Byte × Nat × Nat) :=
  modifyLoop prolog epilog x binImg.length (binImg.length + 1) 0 binImg 0 0

/-- `modify_one_bin_file` on the content of the file, with the sizes in bytes. The patterns that
are looked for are those of the original size. -/
def rewriteImage (binImg : List Byte) (origX newX : Int) : Option (List Byte × Nat × Nat) := do
  let prologArr ← modifyPrologBytes prologPattern 0 origX
  let epilogArr ← modifyEpilogBytes epilogPattern 0 origX
  modifyAllPrologsAndEpilogs binImg prologArr epilogArr newX

/-- `modify_one_bin_file`, with the sizes in KB, as the command line gives them. The walk over the
files of a directory is left out. -/
def modifyOneBinFile (binImg : List Byte) (origX newX : Int) : Option (List Byte × Nat × Nat) :=
  rewriteImage binImg (origX * 1024) (newX * 1024)

/-! ### The patterns -/

/-- The stack sizes for which `-x` and `-2 * x` fit their fields, and the patterns cannot be
confused: multiples of 1 KB up to 1 GB. -/
structure IsStackSize (x : Int) : Prop where
  pos : 0 < x
  le : x ≤ 2 ^ 30
  dvd : 1024 ∣ x

inductive Kind where
  | prolog
  | epilog
deriving DecidableEq

def Kind.base : Kind → List Byte
  | .prolog => prologPattern
  | .epilog => epilogPattern

/-- The fields, in the order in which they are written. -/
def Kind.fields : Kind → Int → List (Nat × List Byte)
  | .prolog, x => [(6, getFourBytes (-x)), (25, getFourBytes (-x)), (13, getFourBytes (-2 * x))]
  | .epilog, x => [(6, getFourBytes (-x)), (14, getFourBytes (-x)), (21, getFourBytes (-2 * x))]

/-- The pattern for the stack size `x`: the bytes of the kind with the fields of that size in
them. -/
def Kind.pattern (q : Kind) (x : Int) : List Byte := writeAll q.base 0 (q.fields x)

/-- The offset `k` belongs to a field. These are the bytes that differ from one size to another.
-/
def Kind.IsField : Kind → Nat → Prop
  | .prolog, k => (6 ≤ k ∧ k < 10) ∨ (13 ≤ k ∧ k < 17) ∨ (25 ≤ k ∧ k < 29)
  | .epilog, k => (6 ≤ k ∧ k < 10) ∨ (14 ≤ k ∧ k < 18) ∨ (21 ≤ k ∧ k < 25)

@[simp] theorem length_getFourBytes (x : Int) : (getFourBytes x).length = 4 := rfl

theorem Kind.inFields_iff (q : Kind) (x : Int) (k : Nat) :
    InFields (q.fields x) k ↔ q.IsField k := by
  cases q with
  | prolog =>
      simp only [InFields, Kind.fields, Kind.IsField, List.mem_cons, List.not_mem_nil, or_false,
        exists_eq_or_imp, exists_eq_left, length_getFourBytes]
      omega
  | epilog =>
      simp only [InFields, Kind.fields, Kind.IsField, List.mem_cons, List.not_mem_nil, or_false,
        exists_eq_or_imp, exists_eq_left, length_getFourBytes]

@[simp] theorem Kind.length_pattern (q : Kind) (x : Int) : (q.pattern x).length = q.base.length :=
  length_writeAll _ _ _

theorem Kind.length_base (q : Kind) : 29 ≤ q.base.length := by
  cases q <;> decide

theorem Kind.IsField.lt {q : Kind} {k : Nat} (h : q.IsField k) : k < q.base.length := by
  cases q with
  | prolog =>
      have hlength : Kind.prolog.base.length = 29 := by decide
      unfold Kind.IsField at h
      omega
  | epilog =>
      have hlength : Kind.epilog.base.length = 32 := by decide
      unfold Kind.IsField at h
      omega

/-- The byte number `k` of an integer, in two's complement. Higher bytes of the integer are not
looked at. -/
def byteAt (x : Int) : Nat → Byte
  | 0 => BitVec.ofInt 8 x
  | k + 1 => byteAt (x >>> (8 : Nat)) k

theorem getFourBytes_eq (x : Int) :
    getFourBytes x = [byteAt x 0, byteAt x 1, byteAt x 2, byteAt x 3] := rfl

theorem prolog_pattern_eq (x : Int) : Kind.prolog.pattern x =
    [0x49, 0x89, 0xe3, 0x49, 0x81, 0xe3, byteAt (-x) 0, byteAt (-x) 1, byteAt (-x) 2, byteAt (-x) 3,
      0x4d, 0x8b, 0x9b, byteAt (-2 * x) 0, byteAt (-2 * x) 1, byteAt (-2 * x) 2, byteAt (-2 * x) 3,
      0x4c, 0x03, 0x1c, 0x24, 0x4c, 0x89, 0x9c, 0x24,
      byteAt (-x) 0, byteAt (-x) 1, byteAt (-x) 2, byteAt (-x) 3] := by
  simp [Kind.pattern, Kind.base, Kind.fields, writeAll, writeAt, getFourBytes_eq, prologPattern]

theorem epilog_pattern_eq (x : Int) : Kind.epilog.pattern x =
    [0x49, 0x89, 0xe2, 0x49, 0x81, 0xe2, byteAt (-x) 0, byteAt (-x) 1, byteAt (-x) 2, byteAt (-x) 3,
      0x4c, 0x8b, 0x9c, 0x24, byteAt (-x) 0, byteAt (-x) 1, byteAt (-x) 2, byteAt (-x) 3,
      0x4d, 0x2b, 0x9a, byteAt (-2 * x) 0, byteAt (-2 * x) 1, byteAt (-2 * x) 2, byteAt (-2 * x) 3,
      0x48, 0x83, 0xc4, 0x08, 0x41, 0xff, 0xe3] := by
  simp [Kind.pattern, Kind.base, Kind.fields, writeAll, writeAt, getFourBytes_eq, epilogPattern]

/-! ### Patterns do not overlap -/

theorem toNat_byteAt (x : Int) (k : Nat) : ((byteAt x k).toNat : Int) = x / 256 ^ k % 256 := by
  induction k generalizing x with
  | zero =>
      rw [byteAt, BitVec.toNat_ofInt, Int.toNat_of_nonneg (Int.emod_nonneg _ (by decide))]
      simp
  | succ k ih =>
      have hshift : x >>> (8 : Nat) = x / 256 := by rw [Int.shiftRight_eq_div_pow]; rfl
      rw [byteAt, ih, hshift, Int.ediv_ediv_of_nonneg (by decide), Int.pow_succ']

/-- The bytes of a negative multiple of 1024 in the range of a field: the lowest is 0, the
next a multiple of 4, the highest at least `0x80`. -/
theorem field_bytes {y : Int} (hlow : -2 ^ 31 ≤ y) (hneg : y < 0) (hdvd : 1024 ∣ y) :
    (byteAt y 0).toNat = 0 ∧ (byteAt y 1).toNat % 4 = 0 ∧ 128 ≤ (byteAt y 3).toNat ∧
      (-2 ^ 30 ≤ y → 192 ≤ (byteAt y 3).toNat) := by
  have h0 : ((byteAt y 0).toNat : Int) = y % 256 := by simpa using toNat_byteAt y 0
  have h1 : ((byteAt y 1).toNat : Int) = y / 256 % 256 := by simpa using toNat_byteAt y 1
  have h3 : ((byteAt y 3).toNat : Int) = y / 16777216 % 256 := by simpa using toNat_byteAt y 3
  refine ⟨by omega, by omega, by omega, by omega⟩

/-- What the separation of the patterns needs to know about the bytes of `-x`. -/
theorem IsStackSize.bytes_neg {x : Int} (hx : IsStackSize x) :
    byteAt (-x) 0 ≠ 0x49 ∧ byteAt (-x) 1 ≠ 0x49 ∧ byteAt (-x) 3 ≠ 0x49 ∧ byteAt (-x) 3 ≠ 0x89 := by
  obtain ⟨hpos, hle, hdvd⟩ := hx
  obtain ⟨h0, h1, -, h3⟩ := field_bytes (y := -x) (by omega) (by omega) (by omega)
  have h192 := h3 (by omega)
  refine ⟨?_, ?_, ?_, ?_⟩ <;> intro heq
  · rw [heq] at h0; exact absurd h0 (by decide)
  · rw [heq] at h1; exact absurd h1 (by decide)
  · rw [heq] at h192; exact absurd h192 (by decide)
  · rw [heq] at h192; exact absurd h192 (by decide)

/-- The highest byte of `-2 * x` may be `0x89`. -/
theorem IsStackSize.bytes_twice {x : Int} (hx : IsStackSize x) :
    byteAt (-2 * x) 0 ≠ 0x49 ∧ byteAt (-2 * x) 1 ≠ 0x49 ∧ byteAt (-2 * x) 3 ≠ 0x49 := by
  obtain ⟨hpos, hle, hdvd⟩ := hx
  obtain ⟨h0, h1, h3, -⟩ := field_bytes (y := -2 * x) (by omega) (by omega) (by omega)
  refine ⟨?_, ?_, ?_⟩ <;> intro heq
  · rw [heq] at h0; exact absurd h0 (by decide)
  · rw [heq] at h1; exact absurd h1 (by decide)
  · rw [heq] at h3; exact absurd h3 (by decide)

/-- No pattern starts at offset `s` of the bytes `pat`: one of the first three bytes of a
pattern stands against another byte of `pat`. -/
def NoHead (pat : List Byte) (s : Nat) : Prop :=
  ¬ (pat[s]? = some 0x49 ∧ (s + 1 < pat.length → pat[s + 1]? = some 0x89) ∧
    (s + 2 < pat.length → pat[s + 2]? = some 0xe3 ∨ pat[s + 2]? = some 0xe2))

theorem NoHead.cons {bytes : List Byte} {s : Nat} (h : NoHead bytes s) (a : Byte) :
    NoHead (a :: bytes) (s + 1) := by
  rintro ⟨hfirst, hsecond, hthird⟩
  refine h ⟨hfirst, fun hlt => hsecond ?_, fun hlt => hthird ?_⟩
  · exact Nat.succ_lt_succ hlt
  · rw [List.length_cons]
    omega

/-- Neither pattern can start at any position of `bytes`, not even one that goes on behind their
end. -/
def Headless : List Byte → Prop
  | [] => True
  | a :: bytes => NoHead (a :: bytes) 0 ∧ Headless bytes

theorem Headless.noHead {bytes : List Byte} (h : Headless bytes) {s : Nat}
    (hs : s < bytes.length) : NoHead bytes s := by
  induction bytes generalizing s with
  | nil => exact absurd hs (Nat.not_lt_zero s)
  | cons a bytes ih =>
      cases s with
      | zero => exact h.1
      | succ s => exact (ih h.2 (Nat.lt_of_succ_lt_succ hs)).cons a

/-- Behind its first byte no pattern starts in a pattern. -/
theorem Kind.headless (q : Kind) {x : Int} (hx : IsStackSize x) :
    Headless (q.pattern x).tail := by
  obtain ⟨h0, h1, h3, h3'⟩ := hx.bytes_neg
  obtain ⟨k0, k1, k3⟩ := hx.bytes_twice
  cases q with
  | prolog =>
      rw [prolog_pattern_eq]
      simp_all [Headless, NoHead]
  | epilog =>
      rw [epilog_pattern_eq]
      simp_all [Headless, NoHead]

theorem Kind.noHead (q : Kind) {x : Int} (hx : IsStackSize x) {s : Nat} (hpos : 0 < s)
    (hs : s < q.base.length) : NoHead (q.pattern x) s := by
  obtain ⟨s, rfl⟩ := Nat.exists_eq_succ_of_ne_zero (Nat.ne_of_gt hpos)
  have hlength : (q.pattern x).length = q.base.length := q.length_pattern x
  have hheadless := q.headless hx
  generalize q.pattern x = bytes at hlength hheadless
  cases bytes with
  | nil => exact absurd hs (by rw [← hlength]; exact Nat.not_lt_zero _)
  | cons a bytes =>
      rw [← hlength, List.length_cons] at hs
      exact (hheadless.noHead (Nat.lt_of_succ_lt_succ hs)).cons a

/-- The third byte tells the two patterns apart. The two before it are the same in both. -/
def Kind.third : Kind → Byte
  | .prolog => 0xe3
  | .epilog => 0xe2

theorem Kind.head_pattern (q : Kind) (x : Int) :
    (q.pattern x)[0]? = some 0x49 ∧ (q.pattern x)[1]? = some 0x89 ∧
      (q.pattern x)[2]? = some q.third := by
  cases q with
  | prolog => rw [prolog_pattern_eq]; exact ⟨rfl, rfl, rfl⟩
  | epilog => rw [epilog_pattern_eq]; exact ⟨rfl, rfl, rfl⟩

theorem Kind.head_of_occursAt {q : Kind} {x : Int} {b : List Byte} {j : Nat}
    (h : OccursAt b j (q.pattern x)) :
    b[j]? = some 0x49 ∧ b[j + 1]? = some 0x89 ∧ b[j + 2]? = some q.third := by
  have hlength := q.length_base
  obtain ⟨h0, h1, h2⟩ := q.head_pattern x
  refine ⟨(h 0 ?_).trans h0, (h 1 ?_).trans h1, (h 2 ?_).trans h2⟩ <;>
    rw [Kind.length_pattern] <;> omega

theorem Kind.third_injective {q q' : Kind} (h : q.third = q'.third) : q = q' := by
  cases q <;> cases q' <;> first | rfl | exact absurd h (by decide)

/-- **Separation**: no pattern, of any size, starts inside an occurrence of another. One of the
first three bytes never fits, also inside a field. -/
theorem pattern_separated {q q' : Kind} {x y : Int} {b : List Byte} {i j : Nat}
    (hx : IsStackSize x) (hi : OccursAt b i (q.pattern x)) (hj : OccursAt b j (q'.pattern y))
    (hle : i ≤ j) (hlt : j < i + q.base.length) : i = j ∧ q = q' := by
  obtain ⟨hj0, hj1, hj2⟩ := Kind.head_of_occursAt hj
  obtain ⟨s, rfl⟩ := Nat.exists_eq_add_of_le hle
  rcases Nat.eq_zero_or_pos s with rfl | hpos
  · obtain ⟨-, -, hi2⟩ := Kind.head_of_occursAt hi
    have hthird : some q.third = some q'.third := hi2.symm.trans hj2
    exact ⟨rfl, Kind.third_injective (Option.some.inj hthird)⟩
  · have hs : s < q.base.length := by omega
    refine absurd ?_ (q.noHead hx hpos hs)
    have hin : ∀ k, s + k < (q.pattern x).length →
        (q.pattern x)[s + k]? = b[i + s + k]? := by
      intro k hk
      rw [Nat.add_assoc]
      exact (hi (s + k) hk).symm
    refine ⟨(hin 0 (by simpa using hs)).trans hj0, fun h1 => (hin 1 h1).trans hj1, fun h2 => ?_⟩
    have hthird : (q.pattern x)[s + 2]? = some q'.third := (hin 2 h2).trans hj2
    cases q' with
    | prolog => exact Or.inl hthird
    | epilog => exact Or.inr hthird

/-! ### One step of the scan -/

theorem isMatching_iff (b : List Byte) (i : Nat) (pat : List Byte) :
    isMatching b i pat = true ↔ OccursAt b i pat := by
  induction pat generalizing i with
  | nil => exact ⟨fun _ => occursAt_nil b i, fun _ => rfl⟩
  | cons p pat ih =>
      rw [occursAt_cons, isMatching]
      cases hget : b[i]? with
      | none => simp
      | some v =>
          by_cases hv : v = p
          · simp [hv, ih]
          · simp [hv]

theorem modifyFourBytes_eq {b : List Byte} {i : Nat} {bs : List Byte}
    (h : i + bs.length ≤ b.length) : modifyFourBytes b i bs = some (writeAt b i bs) := by
  induction bs generalizing b i with
  | nil => rfl
  | cons v bs ih =>
      rw [List.length_cons] at h
      rw [modifyFourBytes, if_pos (by omega), writeAt]
      exact ih (by rw [List.length_set]; omega)

theorem modifyBytes_eq {first second third : Nat} {b : List Byte} {i : Nat} {x : Int}
    (h1 : first + i + 4 ≤ b.length) (h2 : second + i + 4 ≤ b.length)
    (h3 : third + i + 4 ≤ b.length) :
    modifyBytes first second third b i x = some (writeAll b i
      [(first, getFourBytes (-x)), (second, getFourBytes (-x)),
        (third, getFourBytes (-2 * x))]) := by
  simp only [modifyBytes, Option.bind_eq_bind]
  rw [modifyFourBytes_eq (by simpa using h1), Option.bind_some,
    modifyFourBytes_eq (by simpa using h2), Option.bind_some,
    modifyFourBytes_eq (by simpa using h3)]
  simp only [writeAll, List.foldl_cons, List.foldl_nil, Nat.add_comm i]

/-- The function that patches one kind of pattern, with the indexes of that kind. -/
def Kind.modify : Kind → List Byte → Nat → Int → Option (List Byte)
  | .prolog => modifyPrologBytes
  | .epilog => modifyEpilogBytes

/-- Inside the image no patch is an `IndexError`. -/
theorem Kind.modify_eq (q : Kind) {b : List Byte} {i : Nat} (x : Int)
    (h : i + q.base.length ≤ b.length) : q.modify b i x = some (writeAll b i (q.fields x)) := by
  cases q with
  | prolog =>
      have hlength : Kind.prolog.base.length = 29 := by decide
      exact modifyBytes_eq (by omega) (by omega) (by omega)
  | epilog =>
      have hlength : Kind.epilog.base.length = 32 := by decide
      exact modifyBytes_eq (by omega) (by omega) (by omega)

/-- The source builds the patterns for a size by patching the patterns it is written with. -/
theorem Kind.modify_base (q : Kind) (x : Int) : q.modify q.base 0 x = some (q.pattern x) :=
  q.modify_eq x (Nat.le_of_eq (Nat.zero_add _))

/-- The byte `k` belongs to a field of an occurrence of a pattern for `x`. -/
def Patched (b : List Byte) (x : Int) (k : Nat) : Prop :=
  ∃ q i, OccursAt b i (Kind.pattern q x) ∧ i ≤ k ∧ q.IsField (k - i)

/-- **The invariant of the scan**: `b'` is the image `b` with everything before `i` rewritten
from `x` to `y`. -/
structure Scanned (b b' : List Byte) (x y : Int) (i : Nat) : Prop where
  le : i ≤ b.length
  length : b'.length = b.length
  rest : ∀ k, i ≤ k → b'[k]? = b[k]?
  whole : ∀ (q : Kind) (j : Nat), j < i → OccursAt b j (q.pattern x) → j + q.base.length ≤ i
  patched : ∀ (q : Kind) (j : Nat), j < i → OccursAt b j (q.pattern x) → OccursAt b' j (q.pattern y)
  same : ∀ k, ¬ Patched b x k → b'[k]? = b[k]?

section Scan

variable {b b' : List Byte} {x y : Int} {i : Nat}

theorem scanned_start (b : List Byte) (x y : Int) : Scanned b b x y 0 where
  le := Nat.zero_le _
  length := rfl
  rest _ _ := rfl
  whole _ _ hj := absurd hj (Nat.not_lt_zero _)
  patched _ _ hj := absurd hj (Nat.not_lt_zero _)
  same _ _ := rfl

/-- Ahead of the scan the image is the original one, so that the next match is a match in the
original. -/
theorem Scanned.occursAt_iff (h : Scanned b b' x y i) (pat : List Byte) :
    OccursAt b' i pat ↔ OccursAt b i pat := by
  constructor
  · intro hocc
    exact hocc.congr fun k hk _ => (h.rest k hk).symm
  · intro hocc
    exact hocc.congr fun k hk _ => h.rest k hk

/-- **A match**: the scan jumps behind it, and no other occurrence is skipped. -/
theorem Scanned.hit {q : Kind} (h : Scanned b b' x y i) (hx : IsStackSize x)
    (hocc : OccursAt b i (q.pattern x)) :
    Scanned b (writeAll b' i (q.fields y)) x y (i + q.base.length) := by
  have hle : i + q.base.length ≤ b.length := by
    have hpos := q.length_base
    have hin := hocc.le_length (by rw [Kind.length_pattern]; omega)
    rwa [Kind.length_pattern] at hin
  have hsep : ∀ (q' : Kind) (j : Nat), i ≤ j → j < i + q.base.length →
      OccursAt b j (q'.pattern x) → i = j ∧ q = q' :=
    fun _ _ hij hj hocc' => pattern_separated hx hocc hocc' hij hj
  refine ⟨hle, (length_writeAll _ _ _).trans h.length, ?_, ?_, ?_, ?_⟩
  · intro k hk
    rw [getElem?_writeAll_outside, h.rest k (by omega)]
    intro _ hin
    have hlt := ((q.inFields_iff y _).mp hin).lt
    omega
  · intro q' j hj hocc'
    by_cases hji : j < i
    · have := h.whole q' j hji hocc'
      omega
    · obtain ⟨rfl, rfl⟩ := hsep q' j (by omega) hj hocc'
      exact Nat.le_refl _
  · intro q' j hj hocc'
    by_cases hji : j < i
    · have hwhole := h.whole q' j hji hocc'
      refine (h.patched q' j hji hocc').congr fun k _ hk => getElem?_writeAll_outside fun hik => ?_
      rw [Kind.length_pattern] at hk
      omega
    · obtain ⟨rfl, rfl⟩ := hsep q' j (by omega) hj hocc'
      refine occursAt_writeAll ((h.occursAt_iff _).mpr hocc) fun k => ?_
      rw [Kind.inFields_iff, Kind.inFields_iff]
  · intro k hk
    rw [getElem?_writeAll_outside, h.same k hk]
    intro hik hin
    exact hk ⟨q, i, hocc, hik, (q.inFields_iff y _).mp hin⟩

/-- **No match**: the scan moves on by one byte, which belongs to no field. -/
theorem Scanned.miss (h : Scanned b b' x y i) (hlt : i < b.length)
    (hnone : ∀ q : Kind, ¬ OccursAt b i (q.pattern x)) : Scanned b b' x y (i + 1) := by
  have hbefore : ∀ (q : Kind) (j : Nat), j < i + 1 → OccursAt b j (q.pattern x) → j < i := by
    intro q j hj hocc
    by_contra hji
    obtain rfl : j = i := by omega
    exact hnone q hocc
  refine ⟨hlt, h.length, fun k hk => h.rest k (by omega), ?_, ?_, h.same⟩
  · intro q j hj hocc
    exact Nat.le_succ_of_le (h.whole q j (hbefore q j hj hocc) hocc)
  · intro q j hj hocc
    exact h.patched q j (hbefore q j hj hocc) hocc

/-- Behind the loop bound there is no room for an occurrence. -/
theorem no_occurrence_at_end {q : Kind} {j : Nat} (hj : b.length < j + 29) :
    ¬ OccursAt b j (q.pattern x) := by
  intro hocc
  have hlength := q.length_base
  have hin := hocc.le_length (by rw [Kind.length_pattern]; omega)
  rw [Kind.length_pattern] at hin
  omega

/-- **The end of the loop**: nothing is left behind the bound, for a shorter rest has no room for
a pattern. -/
theorem Scanned.finish (h : Scanned b b' x y i) (hend : b.length < i + 29) :
    Scanned b b' x y b.length := by
  have hbefore : ∀ (q : Kind) (j : Nat), OccursAt b j (q.pattern x) → j < i := by
    intro q j hocc
    by_contra hji
    exact no_occurrence_at_end (by omega) hocc
  refine ⟨Nat.le_refl _, h.length, ?_, ?_, ?_, h.same⟩
  · intro k hk
    exact h.rest k (Nat.le_trans h.le hk)
  · intro q j _ hocc
    exact Nat.le_trans (h.whole q j (hbefore q j hocc) hocc) h.le
  · intro q j _ hocc
    exact h.patched q j (hbefore q j hocc) hocc

/-- The counter of the matched kind goes up by one, the other one does not move. -/
theorem countBefore_hit {q : Kind} (hx : IsStackSize x) (hocc : OccursAt b i (q.pattern x))
    (q' : Kind) : countBefore b (q'.pattern x) (i + q.base.length) =
      countBefore b (q'.pattern x) i + if q = q' then 1 else 0 := by
  have hlength := q.length_base
  have hskip : countBefore b (q'.pattern x) (i + q.base.length) =
      countBefore b (q'.pattern x) (i + 1) := by
    refine countBefore_eq_of_none (by omega) fun j hij hj hocc' => ?_
    have hsame := (pattern_separated hx hocc hocc' (by omega) hj).1
    omega
  rw [hskip, countBefore_succ]
  by_cases hq : q = q'
  · subst hq
    rw [if_pos hocc, if_pos rfl]
  · rw [if_neg, if_neg hq]
    intro hocc'
    exact hq (pattern_separated hx hocc hocc' (Nat.le_refl _) (by omega)).2

end Scan

/-! ### The whole scan -/

/-- **The loop**, from any point of the scan, ends with the whole image scanned. -/
theorem modifyLoop_scanned {b : List Byte} {x : Int} (y : Int) (hx : IsStackSize x) (fuel : Nat) :
    ∀ (i : Nat) (b' : List Byte), Scanned b b' x y i → b.length < i + fuel →
      ∃ b'', modifyLoop (Kind.prolog.pattern x) (Kind.epilog.pattern x) y b.length fuel i b'
          (countBefore b (Kind.prolog.pattern x) i) (countBefore b (Kind.epilog.pattern x) i) =
          some (b'', countBefore b (Kind.prolog.pattern x) b.length,
            countBefore b (Kind.epilog.pattern x) b.length) ∧
        Scanned b b'' x y b.length := by
  have hmin : min (Kind.epilog.pattern x).length (Kind.prolog.pattern x).length = 29 := by
    rw [Kind.length_pattern, Kind.length_pattern]
    decide
  induction fuel with
  | zero =>
      intro i b' h hfuel
      have := h.le
      omega
  | succ fuel ih =>
      intro i b' h hfuel
      rw [modifyLoop, hmin]
      by_cases hroom : i + 29 ≤ b.length
      · rw [if_pos hroom]
        by_cases hpro : OccursAt b i (Kind.prolog.pattern x)
        · have hmatch := (isMatching_iff _ _ _).mpr ((h.occursAt_iff _).mpr hpro)
          have hnext := h.hit hx hpro
          have hmodify := Kind.prolog.modify_eq y (h.length ▸ hnext.le)
          have hcount := countBefore_hit hx hpro
          obtain ⟨b'', hrun, hdone⟩ := ih _ _ hnext (by have := Kind.prolog.length_base; omega)
          refine ⟨b'', ?_, hdone⟩
          rw [hcount .prolog, hcount .epilog, if_pos rfl, if_neg (by decide)] at hrun
          rw [if_pos hmatch, Kind.length_pattern]
          exact (congrArg (· >>= _) hmodify).trans hrun
        · have hskip : ¬ isMatching b' i (Kind.prolog.pattern x) = true := by
            rw [isMatching_iff, h.occursAt_iff]
            exact hpro
          rw [if_neg hskip]
          by_cases hepi : OccursAt b i (Kind.epilog.pattern x)
          · have hmatch := (isMatching_iff _ _ _).mpr ((h.occursAt_iff _).mpr hepi)
            have hnext := h.hit hx hepi
            have hmodify := Kind.epilog.modify_eq y (h.length ▸ hnext.le)
            have hcount := countBefore_hit hx hepi
            obtain ⟨b'', hrun, hdone⟩ := ih _ _ hnext (by have := Kind.epilog.length_base; omega)
            refine ⟨b'', ?_, hdone⟩
            rw [hcount .prolog, hcount .epilog, if_pos rfl, if_neg (by decide)] at hrun
            rw [if_pos hmatch, Kind.length_pattern]
            exact (congrArg (· >>= _) hmodify).trans hrun
          · have hskip' : ¬ isMatching b' i (Kind.epilog.pattern x) = true := by
              rw [isMatching_iff, h.occursAt_iff]
              exact hepi
            have hnone : ∀ q : Kind, ¬ OccursAt b i (q.pattern x) := by
              intro q
              cases q with
              | prolog => exact hpro
              | epilog => exact hepi
            obtain ⟨b'', hrun, hdone⟩ := ih _ _ (h.miss (by omega) hnone) (by omega)
            refine ⟨b'', ?_, hdone⟩
            rw [countBefore_succ, countBefore_succ, if_neg hpro, if_neg hepi] at hrun
            rw [if_neg hskip']
            exact hrun
      · rw [if_neg hroom]
        refine ⟨b', ?_, h.finish (by omega)⟩
        have hcount : ∀ q : Kind, countBefore b (q.pattern x) b.length =
            countBefore b (q.pattern x) i := fun q =>
          countBefore_eq_of_none h.le fun j hij _ => no_occurrence_at_end (by omega)
        rw [hcount, hcount]

/-- One run of the rewriter: it ends, it counts the occurrences, and its image is `b` with
all of it rewritten. -/
theorem rewriteImage_scanned {x : Int} (y : Int) (hx : IsStackSize x) (b : List Byte) :
    ∃ b', rewriteImage b x y = some (b', countBefore b (Kind.prolog.pattern x) b.length,
        countBefore b (Kind.epilog.pattern x) b.length) ∧ Scanned b b' x y b.length := by
  obtain ⟨b', hrun, hdone⟩ :=
    modifyLoop_scanned y hx (b.length + 1) 0 b (scanned_start b x y) (by omega)
  refine ⟨b', ?_, hdone⟩
  have hpro : modifyPrologBytes prologPattern 0 x = some (Kind.prolog.pattern x) :=
    Kind.modify_base .prolog x
  have hepi : modifyEpilogBytes epilogPattern 0 x = some (Kind.epilog.pattern x) :=
    Kind.modify_base .epilog x
  rw [countBefore_zero, countBefore_zero] at hrun
  rw [rewriteImage, hpro, hepi]
  simpa only [Option.bind_eq_bind, Option.bind_some, modifyAllPrologsAndEpilogs] using hrun

/-- **Exactness.** The rewriter ends without an error. Its image has the same length; at
every occurrence of a pattern for `x` stands the whole pattern for `y`; a byte outside the
fields of these occurrences is as it was; and the pair it returns counts the occurrences. -/
theorem rewriteImage_exact (b : List Byte) {x : Int} (y : Int) (hx : IsStackSize x) :
    ∃ b', rewriteImage b x y = some (b', countBefore b (Kind.prolog.pattern x) b.length,
        countBefore b (Kind.epilog.pattern x) b.length) ∧
      b'.length = b.length ∧
      (∀ (q : Kind) (i : Nat), OccursAt b i (q.pattern x) → OccursAt b' i (q.pattern y)) ∧
      ∀ k, (¬ ∃ q i, OccursAt b i (Kind.pattern q x) ∧ i ≤ k ∧ q.IsField (k - i)) →
        b'[k]? = b[k]? := by
  obtain ⟨b', hrun, hdone⟩ := rewriteImage_scanned y hx b
  refine ⟨b', hrun, hdone.length, ?_, hdone.same⟩
  intro q i hocc
  have hlt := hocc.lt_length (k := 0) (by have := q.length_base; rw [Kind.length_pattern]; omega)
  exact hdone.patched q i hlt hocc

theorem isStackSize_8m : IsStackSize 8388608 := ⟨by decide, by decide, by decide⟩

theorem isStackSize_1m : IsStackSize 1048576 := ⟨by decide, by decide, by decide⟩

theorem rewriteImage_exact_prolog :
    IsStackSize 8388608 ∧
      ∃ b', rewriteImage prologPattern 8388608 1048576 = some (b', 1, 0) ∧ b'.length = 29 ∧
        OccursAt b' 0 (Kind.prolog.pattern 1048576) := by
  obtain ⟨b', hrun, hlength, hpatched, -⟩ :=
    rewriteImage_exact prologPattern 1048576 isStackSize_8m
  refine ⟨isStackSize_8m, b', ?_, hlength, hpatched .prolog 0 (by decide)⟩
  have hpro : countBefore prologPattern (Kind.prolog.pattern 8388608) prologPattern.length = 1 := by
    decide
  have hepi : countBefore prologPattern (Kind.epilog.pattern 8388608) prologPattern.length = 0 := by
    decide
  rw [hrun, hpro, hepi]

/-! ### The round trip -/

/-- Where the original image has no pattern for `y`, the patterns for `y` in the rewritten
image are the patched ones. -/
theorem Scanned.occursAt_back {b b' : List Byte} {x y : Int} (h : Scanned b b' x y b.length)
    (hy : IsStackSize y) (hnone : ∀ (q : Kind) (i : Nat), ¬ OccursAt b i (q.pattern y))
    (q : Kind) (i : Nat) :
    OccursAt b' i (q.pattern y) ↔ OccursAt b i (q.pattern x) := by
  have hpatched : ∀ (q : Kind) (i : Nat), OccursAt b i (q.pattern x) →
      OccursAt b' i (q.pattern y) := by
    intro q i hocc
    have hlt := hocc.lt_length (k := 0) (by have := q.length_base; rw [Kind.length_pattern]; omega)
    exact h.patched q i hlt hocc
  refine ⟨fun hocc => ?_, hpatched q i⟩
  -- Some byte of the window was patched, or the pattern for `y` would stand in `b`.
  by_cases hsame : ∀ k, i ≤ k → k < i + (q.pattern y).length → ¬ Patched b x k
  · exact absurd (hocc.congr fun k hk hk' => (h.same k (hsame k hk hk')).symm) (hnone q i)
  · simp only [not_forall, not_not] at hsame
    obtain ⟨k, hik, hk, q', j, hocc', hjk, hfield⟩ := hsame
    have hlt := hfield.lt
    rw [Kind.length_pattern] at hk
    rcases Nat.le_total i j with hij | hji
    · obtain ⟨rfl, rfl⟩ := pattern_separated hy hocc (hpatched q' j hocc') hij (by omega)
      exact hocc'
    · obtain ⟨rfl, rfl⟩ := pattern_separated hy (hpatched q' j hocc') hocc hji (by omega)
      exact hocc'

/-- Rewriting the rewritten image back gives the original bytes. -/
theorem Scanned.back {b b₁ b₂ : List Byte} {x y : Int} (h₁ : Scanned b b₁ x y b.length)
    (h₂ : Scanned b₁ b₂ y x b₁.length)
    (hocc : ∀ (q : Kind) (i : Nat), OccursAt b₁ i (q.pattern y) ↔ OccursAt b i (q.pattern x)) :
    b₂ = b := by
  refine List.ext_getElem? fun k => ?_
  by_cases hk : Patched b x k
  · obtain ⟨q, i, hi, hik, hfield⟩ := hk
    obtain ⟨s, rfl⟩ := Nat.exists_eq_add_of_le hik
    rw [Nat.add_sub_cancel_left] at hfield
    have hs : ∀ z, s < (q.pattern z).length := fun z => by
      rw [Kind.length_pattern]
      exact hfield.lt
    have hlt := ((hocc q i).mpr hi).lt_length (hs y)
    exact (h₂.patched q i (by omega) ((hocc q i).mpr hi) s (hs x)).trans (hi s (hs x)).symm
  · rw [h₂.same, h₁.same k hk]
    rintro ⟨q, i, hi, hik, hfield⟩
    exact hk ⟨q, i, (hocc q i).mp hi, hik, hfield⟩

/-- **Round trip.** Rewriting from `x` to `y` and back restores the image, and the two runs
return the same counts. -/
theorem rewriteImage_roundtrip (b : List Byte) {x y : Int} (hx : IsStackSize x)
    (hy : IsStackSize y) (hnone : ∀ (q : Kind) (i : Nat), ¬ OccursAt b i (q.pattern y)) :
    ∃ b₁ proCnt epiCnt, rewriteImage b x y = some (b₁, proCnt, epiCnt) ∧
      rewriteImage b₁ y x = some (b, proCnt, epiCnt) := by
  obtain ⟨b₁, hrun₁, h₁⟩ := rewriteImage_scanned y hx b
  obtain ⟨b₂, hrun₂, h₂⟩ := rewriteImage_scanned x hy b₁
  have hocc := h₁.occursAt_back hy hnone
  refine ⟨b₁, _, _, hrun₁, ?_⟩
  rw [hrun₂, h₁.back h₂ hocc, h₁.length, countBefore_congr (hocc .prolog),
    countBefore_congr (hocc .epilog)]

theorem rewriteImage_roundtrip_prolog :
    ∃ b₁ proCnt epiCnt, rewriteImage prologPattern 8388608 1048576 = some (b₁, proCnt, epiCnt) ∧
      rewriteImage b₁ 1048576 8388608 = some (prologPattern, proCnt, epiCnt) := by
  refine rewriteImage_roundtrip prologPattern isStackSize_8m isStackSize_1m fun q i hocc => ?_
  have hlength := q.length_base
  have hin := hocc.le_length (by rw [Kind.length_pattern]; omega)
  rw [Kind.length_pattern] at hin
  have hfile : prologPattern.length = 29 := by decide
  obtain rfl : i = 0 := by omega
  cases q with
  | prolog => exact absurd hocc (by decide)
  | epilog => exact absurd hocc (by decide)

end FlashStack.Rewriter
