/-
What the CPU makes of the patched bytes.

The rewriter replaces immediates and displacements of instructions. The instructions of the
two patterns are modelled with their encoding, so that patched bytes can be read as code
again. The CPU extends a four-byte field with its sign, which is where a size can go wrong:
the fields hold the low bytes of `-x` and of `-2 * x`, and nothing checks that they fit.

* `Instr`: the instructions of the two patterns, their encoding and their effect;
* `encode_prologCode`, `encode_epilogCode`: a pattern is the encoding of its instructions,
  with the low four bytes of `-x` and `-2 * x` as immediates;
* `meansSize_iff`: the immediates stand for the requested size exactly up to 1 GB.

`MeansSize` is what a pair of a prologue and an epilogue is to do at a size: both address
the same slot and the same random value, and the return address comes back. It is stated of
the code that the patched bytes encode, run on the CPU. Memory is by bytes and the words may
lie anywhere, so that the two words must be shown to be apart (`apart_slotWord_tlsWord`).
Flags are left out, as no instruction reads them.
-/

import FlashStack.Rewriter.Sites
import FlashStack.Lib.Align
import Mathlib.Tactic.IntervalCases

namespace FlashStack.Rewriter

open Lib.Memory Lib.Align Lib.Patch

/-! ### The CPU -/

inductive Reg where
  | r10
  | r11
deriving DecidableEq, Repr

/-- The registers that the code uses, and the memory. The flags are not read. -/
structure Cpu where
  rsp : Word
  r10 : Word
  r11 : Word
  rip : Word
  mem : Space Unit

namespace Cpu

def reg (c : Cpu) : Reg → Word
  | .r10 => c.r10
  | .r11 => c.r11

def setReg (c : Cpu) (v : Word) : Reg → Cpu
  | .r10 => { c with r10 := v }
  | .r11 => { c with r11 := v }

end Cpu

/-- The instructions of the prologue and of the epilogue, with the registers and operands that
they have there. The immediates are variable. -/
inductive Instr where
  /-- `mov %rsp,dst` -/
  | movRsp (dst : Reg)
  /-- `and $imm,dst` -/
  | andImm (imm : BitVec 32) (dst : Reg)
  /-- `mov disp(%r11),%r11` -/
  | movTls (disp : BitVec 32)
  /-- `add (%rsp),%r11` -/
  | addTop
  /-- `mov %r11,disp(%rsp)` -/
  | storeSlot (disp : BitVec 32)
  /-- `mov disp(%rsp),%r11` -/
  | loadSlot (disp : BitVec 32)
  /-- `sub disp(%r10),%r11` -/
  | subTls (disp : BitVec 32)
  /-- `add $0x8,%rsp` -/
  | addRsp
  /-- `jmpq *%r11` -/
  | jmp

/-- The bytes of an immediate or a displacement. -/
def leBytes (v : BitVec 32) : List Byte := getFourBytes v.toInt

def Instr.encode : Instr → List Byte
  | .movRsp .r11 => [0x49, 0x89, 0xe3]
  | .movRsp .r10 => [0x49, 0x89, 0xe2]
  | .andImm imm .r11 => [0x49, 0x81, 0xe3] ++ leBytes imm
  | .andImm imm .r10 => [0x49, 0x81, 0xe2] ++ leBytes imm
  | .movTls disp => [0x4d, 0x8b, 0x9b] ++ leBytes disp
  | .addTop => [0x4c, 0x03, 0x1c, 0x24]
  | .storeSlot disp => [0x4c, 0x89, 0x9c, 0x24] ++ leBytes disp
  | .loadSlot disp => [0x4c, 0x8b, 0x9c, 0x24] ++ leBytes disp
  | .subTls disp => [0x4d, 0x2b, 0x9a] ++ leBytes disp
  | .addRsp => [0x48, 0x83, 0xc4, 0x08]
  | .jmp => [0x41, 0xff, 0xe3]

def encode (code : List Instr) : List Byte := code.flatMap Instr.encode

/-- One instruction; `none` where it faults. Immediates and displacements are extended with
their sign. -/
def Instr.exec (c : Cpu) (i : Instr) : Option Cpu :=
  let c := { c with rip := c.rip + BitVec.ofNat 64 i.encode.length }
  match i with
  | .movRsp dst => some (c.setReg c.rsp dst)
  | .andImm imm dst => some (c.setReg (c.reg dst &&& imm.signExtend 64) dst)
  | .movTls disp => do return { c with r11 := ← load64 c.mem (c.r11 + disp.signExtend 64) }
  | .addTop => do return { c with r11 := c.r11 + (← load64 c.mem c.rsp) }
  | .storeSlot disp => do
      return { c with mem := ← store64 c.mem (c.rsp + disp.signExtend 64) c.r11 }
  | .loadSlot disp => do return { c with r11 := ← load64 c.mem (c.rsp + disp.signExtend 64) }
  | .subTls disp => do
      return { c with r11 := c.r11 - (← load64 c.mem (c.r10 + disp.signExtend 64)) }
  | .addRsp => some { c with rsp := c.rsp + 8 }
  | .jmp => some { c with rip := c.r11 }

def runCode (code : List Instr) (c : Cpu) : Option Cpu := code.foldlM Instr.exec c

/-- The prologue, with its three fields in their order. The instructions are those that the bytes
encode. -/
def prologCode (mask tls slot : BitVec 32) : List Instr :=
  [.movRsp .r11, .andImm mask .r11, .movTls tls, .addTop, .storeSlot slot]

def epilogCode (mask slot tls : BitVec 32) : List Instr :=
  [.movRsp .r10, .andImm mask .r10, .loadSlot slot, .subTls tls, .addRsp, .jmp]

/-! ### The bytes -/

/-- The number with these bytes, the lowest first. -/
def littleEndian : List Byte → Nat
  | [] => 0
  | v :: bs => v.toNat + 256 * littleEndian bs

/-- The field at index `k` of an image: four bytes, which is how a displacement is encoded. -/
def fieldAt (b : List Byte) (k : Nat) : BitVec 32 :=
  BitVec.ofNat 32 (littleEndian ((b.drop k).take 4))

/-- The field of a number is its low 32 bits. -/
theorem ofNat_littleEndian (y : Int) :
    BitVec.ofNat 32 (littleEndian (getFourBytes y)) = BitVec.ofInt 32 y := by
  have h0 : ((byteAt y 0).toNat : Int) = y % 256 := by simpa using toNat_byteAt y 0
  have h1 : ((byteAt y 1).toNat : Int) = y / 256 % 256 := by simpa using toNat_byteAt y 1
  have h2 : ((byteAt y 2).toNat : Int) = y / 65536 % 256 := by simpa using toNat_byteAt y 2
  have h3 : ((byteAt y 3).toNat : Int) = y / 16777216 % 256 := by simpa using toNat_byteAt y 3
  rw [getFourBytes_eq]
  apply BitVec.eq_of_toNat_eq
  rw [BitVec.toNat_ofNat, BitVec.toNat_ofInt]
  simp only [littleEndian]
  omega

/-- The low four bytes depend on the number modulo `2^32`. -/
theorem getFourBytes_congr {y z : Int} (h : z % 4294967296 = y % 4294967296) :
    getFourBytes z = getFourBytes y := by
  have hbyte : ∀ k < 4, byteAt z k = byteAt y k := by
    intro k hk
    apply BitVec.eq_of_toNat_eq
    have hleft := toNat_byteAt z k
    have hright := toNat_byteAt y k
    interval_cases k <;> simp only [Int.reducePow, Int.ediv_one] at hleft hright <;> omega
  rw [getFourBytes_eq, getFourBytes_eq, hbyte 0 (by decide), hbyte 1 (by decide),
    hbyte 2 (by decide), hbyte 3 (by decide)]

theorem leBytes_ofInt (y : Int) : leBytes (BitVec.ofInt 32 y) = getFourBytes y := by
  refine getFourBytes_congr ?_
  rw [BitVec.toInt_ofInt]
  exact Int.bmod_emod

/-- **The prologue for a size** is the encoding of its instructions. -/
theorem encode_prologCode (x : Int) :
    encode (prologCode (BitVec.ofInt 32 (-x)) (BitVec.ofInt 32 (-2 * x)) (BitVec.ofInt 32 (-x))) =
      Kind.prolog.pattern x := by
  simp only [encode, prologCode, List.flatMap_cons, List.flatMap_nil, Instr.encode, leBytes_ofInt,
    getFourBytes_eq, prolog_pattern_eq, List.append_nil, List.cons_append, List.nil_append]

theorem encode_epilogCode (x : Int) :
    encode (epilogCode (BitVec.ofInt 32 (-x)) (BitVec.ofInt 32 (-x)) (BitVec.ofInt 32 (-2 * x))) =
      Kind.epilog.pattern x := by
  simp only [encode, epilogCode, List.flatMap_cons, List.flatMap_nil, Instr.encode, leBytes_ofInt,
    getFourBytes_eq, epilog_pattern_eq, List.append_nil, List.cons_append, List.nil_append]

/-- A field of an occurrence is the field of the pattern. -/
theorem fieldAt_of_occursAt {b pat : List Byte} {i k : Nat} (h : OccursAt b i pat)
    (hk : k + 4 ≤ pat.length) : fieldAt b (i + k) = fieldAt pat k := by
  have htake : (b.drop (i + k)).take 4 = (pat.drop k).take 4 := by
    refine List.ext_getElem? fun t => ?_
    rw [List.getElem?_take, List.getElem?_take]
    by_cases ht : t < 4
    · rw [if_pos ht, if_pos ht, List.getElem?_drop, List.getElem?_drop, Nat.add_assoc]
      exact h (k + t) (by omega)
    · rw [if_neg ht, if_neg ht]
  rw [fieldAt, fieldAt, htake]

theorem fieldAt_prolog (x : Int) :
    fieldAt (Kind.prolog.pattern x) 6 = BitVec.ofInt 32 (-x) ∧
      fieldAt (Kind.prolog.pattern x) 13 = BitVec.ofInt 32 (-2 * x) ∧
      fieldAt (Kind.prolog.pattern x) 25 = BitVec.ofInt 32 (-x) := by
  rw [prolog_pattern_eq, ← ofNat_littleEndian, ← ofNat_littleEndian, getFourBytes_eq,
    getFourBytes_eq]
  exact ⟨rfl, rfl, rfl⟩

theorem fieldAt_epilog (x : Int) :
    fieldAt (Kind.epilog.pattern x) 6 = BitVec.ofInt 32 (-x) ∧
      fieldAt (Kind.epilog.pattern x) 14 = BitVec.ofInt 32 (-x) ∧
      fieldAt (Kind.epilog.pattern x) 21 = BitVec.ofInt 32 (-2 * x) := by
  rw [epilog_pattern_eq, ← ofNat_littleEndian, ← ofNat_littleEndian, getFourBytes_eq,
    getFourBytes_eq]
  exact ⟨rfl, rfl, rfl⟩

/-! ### The two words -/

/-- The slot on the shadow stack for a stack of `x` bytes: one stack size below the stack pointer.
-/
def slotWord (x : Int) (rsp : Word) : Word := rsp - BitVec.ofInt 64 x

/-- The word with the random value: two stack sizes below the stack pointer, rounded down to a
multiple of the size. -/
def tlsWord (x : Int) (rsp : Word) : Word := (rsp &&& -BitVec.ofInt 64 x) - 2 * BitVec.ofInt 64 x

/-- A field that fits keeps its value under the extension. -/
theorem signExtend_ofInt {y : Int} (hlow : -2 ^ 31 ≤ y) (hhigh : y < 2 ^ 31) :
    (BitVec.ofInt 32 y).signExtend 64 = BitVec.ofInt 64 y := by
  rw [BitVec.signExtend, BitVec.toInt_ofInt, Int.bmod_eq_of_le (by omega) (by omega)]

section Size

variable {x : Int} (hpos : 1024 ≤ x) (hle : x ≤ 2 ^ 30)

include hpos hle

theorem add_signExtend_neg (a : Word) :
    a + (BitVec.ofInt 32 (-x)).signExtend 64 = a - BitVec.ofInt 64 x ∧
      a &&& (BitVec.ofInt 32 (-x)).signExtend 64 = a &&& -BitVec.ofInt 64 x ∧
      a + (BitVec.ofInt 32 (-2 * x)).signExtend 64 = a - 2 * BitVec.ofInt 64 x := by
  have htwice : BitVec.ofInt 64 (-2 * x) = -(2 * BitVec.ofInt 64 x) := by
    rw [BitVec.ofInt_mul]
    grind
  rw [signExtend_ofInt (by omega) (by omega), signExtend_ofInt (by omega) (by omega), htwice,
    BitVec.ofInt_neg]
  exact ⟨(BitVec.sub_eq_add_neg ..).symm, rfl, (BitVec.sub_eq_add_neg ..).symm⟩

/-- **The two words do not overlap**: they are between `x` and `2 * x` bytes apart. -/
theorem apart_slotWord_tlsWord (rsp : Word) : Apart (slotWord x rsp) (tlsWord x rsp) := by
  have hx : (BitVec.ofInt 64 x).toNat = x.toNat := by
    rw [BitVec.toNat_ofInt]
    omega
  have hsum := toNat_and_add_and_not rsp (-BitVec.ofInt 64 x)
  have hnot : ~~~(-BitVec.ofInt 64 x) = BitVec.ofInt 64 x - 1 := by
    rw [BitVec.not_eq_neg_add]
    grind
  have hlow : (rsp &&& (BitVec.ofInt 64 x - 1)).toNat ≤ (BitVec.ofInt 64 x - 1).toNat := by
    rw [BitVec.toNat_and]
    exact Nat.and_le_right
  rw [hnot] at hsum
  unfold Apart slotWord tlsWord
  generalize BitVec.ofInt 64 x = size at *
  generalize rsp &&& -size = base at *
  generalize rsp &&& (size - 1) = rest at *
  have hrsp : rsp = base + rest := BitVec.eq_of_toNat_eq (by bv_omega)
  have hdiff : base - 2 * size - (rsp - size) = -(rest + size) := by
    rw [hrsp]
    grind
  have hdiff' : rsp - size - (base - 2 * size) = rest + size := by
    rw [hrsp]
    grind
  have hrest : rest.toNat < size.toNat := by bv_omega
  have hadd : (rest + size).toNat = rest.toNat + size.toNat := by
    rw [BitVec.toNat_add]
    omega
  rw [hdiff, hdiff', BitVec.toNat_neg, hadd]
  omega

end Size

/-! ### The two sequences -/

theorem runCode_cons (i : Instr) (code : List Instr) (c : Cpu) :
    runCode (i :: code) c = (i.exec c).bind (runCode code) := rfl

/-- **The prologue** stores the sum of the random value and the return address. -/
theorem run_prologCode {c : Cpu} {mask tls slot : BitVec 32} {rand ra : Word}
    (hrand : load64 c.mem ((c.rsp &&& mask.signExtend 64) + tls.signExtend 64) = some rand)
    (hra : load64 c.mem c.rsp = some ra) (hslot : Mapped c.mem (c.rsp + slot.signExtend 64) 8) :
    ∃ c', runCode (prologCode mask tls slot) c = some c' ∧
      c'.mem = storeN c.mem (c.rsp + slot.signExtend 64) 8 (rand + ra).toNat := by
  simp only [prologCode, runCode_cons, Instr.exec, Cpu.setReg, Cpu.reg, Option.bind_some, hrand,
    hra, Option.bind_eq_bind, Option.pure_def, store64, if_pos hslot]
  exact ⟨_, rfl, rfl⟩

/-- **The epilogue** jumps to the difference of the slot and the random value. -/
theorem run_epilogCode {c : Cpu} {mask slot tls : BitVec 32} {v rand : Word}
    (hslot : load64 c.mem (c.rsp + slot.signExtend 64) = some v)
    (hrand : load64 c.mem ((c.rsp &&& mask.signExtend 64) + tls.signExtend 64) = some rand) :
    ∃ c', runCode (epilogCode mask slot tls) c = some c' ∧ c'.rip = v - rand ∧
      c'.rsp = c.rsp + 8 := by
  simp only [epilogCode, runCode_cons, Instr.exec, Cpu.setReg, Cpu.reg, Option.bind_some, hrand,
    hslot, Option.bind_eq_bind, Option.pure_def]
  exact ⟨_, rfl, rfl, rfl⟩

/-! ### Patched pairs -/

/-- The instructions at a patched prologue. -/
def prologAt (b : List Byte) (i : Nat) : List Instr :=
  prologCode (fieldAt b (i + 6)) (fieldAt b (i + 13)) (fieldAt b (i + 25))

def epilogAt (b : List Byte) (j : Nat) : List Instr :=
  epilogCode (fieldAt b (j + 6)) (fieldAt b (j + 14)) (fieldAt b (j + 21))

/-- The value that the CPU makes of a field: a signed number of 32 bits. -/
def extended (b : List Byte) (k : Nat) : Int := ((fieldAt b k).signExtend 64).toInt

/-- The prologue at `i` and the epilogue at `j` work on a stack of `x` bytes: the fields have the
values for this size, the bytes are the two instruction sequences, and at every stack pointer
the sequences use the slot and the random value for this size, so that the epilogue jumps to the
return address. In between, the memory may change elsewhere. -/
structure MeansSize (b : List Byte) (i j : Nat) (x : Int) : Prop where
  prologFields : extended b (i + 6) = -x ∧ extended b (i + 13) = -2 * x ∧ extended b (i + 25) = -x
  epilogFields : extended b (j + 6) = -x ∧ extended b (j + 14) = -x ∧ extended b (j + 21) = -2 * x
  code : OccursAt b i (encode (prologAt b i)) ∧ OccursAt b j (encode (epilogAt b j))
  decodes : ∀ (c : Cpu) (rand ra : Word), load64 c.mem (tlsWord x c.rsp) = some rand →
    load64 c.mem c.rsp = some ra → Mapped c.mem (slotWord x c.rsp) 8 →
    ∃ c', runCode (prologAt b i) c = some c' ∧
      c'.mem = storeN c.mem (slotWord x c.rsp) 8 (rand + ra).toNat ∧
      ∀ d : Cpu, d.rsp = c.rsp →
        load64 d.mem (slotWord x c.rsp) = load64 c'.mem (slotWord x c.rsp) →
        load64 d.mem (tlsWord x c.rsp) = load64 c'.mem (tlsWord x c.rsp) →
        ∃ d', runCode (epilogAt b j) d = some d' ∧ d'.rip = ra ∧ d'.rsp = c.rsp + 8

section Patched

variable {b : List Byte} {i j : Nat} {x : Int}

theorem prologAt_of_occursAt (h : OccursAt b i (Kind.prolog.pattern x)) :
    prologAt b i =
      prologCode (BitVec.ofInt 32 (-x)) (BitVec.ofInt 32 (-2 * x)) (BitVec.ofInt 32 (-x)) := by
  have hlength : (Kind.prolog.pattern x).length = 29 := Kind.length_pattern _ _
  obtain ⟨h6, h13, h25⟩ := fieldAt_prolog x
  rw [prologAt, fieldAt_of_occursAt h (by omega), fieldAt_of_occursAt h (by omega),
    fieldAt_of_occursAt h (by omega), h6, h13, h25]

theorem epilogAt_of_occursAt (h : OccursAt b j (Kind.epilog.pattern x)) :
    epilogAt b j =
      epilogCode (BitVec.ofInt 32 (-x)) (BitVec.ofInt 32 (-x)) (BitVec.ofInt 32 (-2 * x)) := by
  have hlength : (Kind.epilog.pattern x).length = 32 := Kind.length_pattern _ _
  obtain ⟨h6, h14, h21⟩ := fieldAt_epilog x
  rw [epilogAt, fieldAt_of_occursAt h (by omega), fieldAt_of_occursAt h (by omega),
    fieldAt_of_occursAt h (by omega), h6, h14, h21]

theorem toInt_extended {y : Int} (hlow : -2 ^ 31 ≤ y) (hhigh : y < 2 ^ 31) :
    ((BitVec.ofInt 32 y).signExtend 64).toInt = y := by
  rw [signExtend_ofInt hlow hhigh, BitVec.toInt_ofInt, Int.bmod_eq_of_le (by omega) (by omega)]

theorem extended_of_occursAt {pat : List Byte} {k : Nat} {y : Int} (h : OccursAt b i pat)
    (hk : k + 4 ≤ pat.length) (hfield : fieldAt pat k = BitVec.ofInt 32 y) (hlow : -2 ^ 31 ≤ y)
    (hhigh : y < 2 ^ 31) : extended b (i + k) = y := by
  rw [extended, fieldAt_of_occursAt h hk, hfield, toInt_extended hlow hhigh]

/-- **Up to 1 GB** the patched pair is right: `-2 * x` is a signed number of 32 bits, and the CPU
extends it to what it should be. -/
theorem meansSize_of_le (hpos : 1024 ≤ x) (hle : x ≤ 2 ^ 30)
    (hi : OccursAt b i (Kind.prolog.pattern x)) (hj : OccursAt b j (Kind.epilog.pattern x)) :
    MeansSize b i j x := by
  have hlength : (Kind.prolog.pattern x).length = 29 := Kind.length_pattern _ _
  have hlength' : (Kind.epilog.pattern x).length = 32 := Kind.length_pattern _ _
  obtain ⟨h6, h13, h25⟩ := fieldAt_prolog x
  obtain ⟨k6, k14, k21⟩ := fieldAt_epilog x
  refine ⟨⟨?_, ?_, ?_⟩, ⟨?_, ?_, ?_⟩, ⟨?_, ?_⟩, ?_⟩
  · exact extended_of_occursAt hi (by omega) h6 (by omega) (by omega)
  · exact extended_of_occursAt hi (by omega) h13 (by omega) (by omega)
  · exact extended_of_occursAt hi (by omega) h25 (by omega) (by omega)
  · exact extended_of_occursAt hj (by omega) k6 (by omega) (by omega)
  · exact extended_of_occursAt hj (by omega) k14 (by omega) (by omega)
  · exact extended_of_occursAt hj (by omega) k21 (by omega) (by omega)
  · rw [prologAt_of_occursAt hi, encode_prologCode]
    exact hi
  · rw [epilogAt_of_occursAt hj, encode_epilogCode]
    exact hj
  · intro c rand ra hrand hra hslot
    obtain ⟨hadd, hmask, -⟩ := add_signExtend_neg hpos hle c.rsp
    obtain ⟨-, -, htls⟩ := add_signExtend_neg hpos hle (c.rsp &&& -BitVec.ofInt 64 x)
    rw [prologAt_of_occursAt hi, epilogAt_of_occursAt hj]
    have hrand₁ : load64 c.mem ((c.rsp &&& (BitVec.ofInt 32 (-x)).signExtend 64) +
        (BitVec.ofInt 32 (-2 * x)).signExtend 64) = some rand := by
      rw [hmask, htls]
      exact hrand
    have hslot₁ : Mapped c.mem (c.rsp + (BitVec.ofInt 32 (-x)).signExtend 64) 8 := by
      rw [hadd]
      exact hslot
    obtain ⟨c', hrun, hmem⟩ := run_prologCode hrand₁ hra hslot₁
    rw [hadd] at hmem
    refine ⟨c', hrun, hmem, fun d hrsp hsame hsame' => ?_⟩
    have hv : load64 d.mem (d.rsp + (BitVec.ofInt 32 (-x)).signExtend 64) = some (rand + ra) := by
      rw [hrsp, hadd]
      refine hsame.trans ?_
      rw [hmem]
      exact load64_storeN_self hslot
    have hrand₂ : load64 d.mem ((d.rsp &&& (BitVec.ofInt 32 (-x)).signExtend 64) +
        (BitVec.ofInt 32 (-2 * x)).signExtend 64) = some rand := by
      rw [hrsp, hmask, htls]
      refine hsame'.trans ?_
      rw [hmem]
      exact (load64_storeN_apart (apart_slotWord_tlsWord hpos hle c.rsp)).trans hrand
    obtain ⟨d', hrun', hrip, hrsp'⟩ := run_epilogCode hv hrand₂
    refine ⟨d', hrun', hrip.trans ?_, by rw [hrsp', hrsp]⟩
    grind

/-- The field for the random value cannot hold more: `-2 * x` has to fit in 32 bits, signed. -/
theorem le_of_meansSize (h : MeansSize b i j x) : x ≤ 2 ^ 30 := by
  have htls := h.prologFields.2.1
  have hlow := BitVec.le_toInt (fieldAt b (i + 13))
  rw [extended, BitVec.toInt_signExtend_of_le (by decide)] at htls
  omega

end Patched

/-- **What a run makes of the requested size.** It ends; and for every prologue and every
epilogue that it patched, they work on a stack of the new size if and only if this size is at
most 1 GB. -/
theorem meansSize_iff (b : List Byte) (origKB : Int) {newKB : Int} (hnew : 0 < newKB) :
    ∃ b', modifyOneBinFile b origKB newKB =
        some (b', countKind .prolog (patchSites b (origKB * 1024) (newKB * 1024)),
          countKind .epilog (patchSites b (origKB * 1024) (newKB * 1024))) ∧
      ∀ i j, (.prolog, i) ∈ patchSites b (origKB * 1024) (newKB * 1024) →
        (.epilog, j) ∈ patchSites b (origKB * 1024) (newKB * 1024) →
        (MeansSize b' i j (newKB * 1024) ↔ newKB ≤ 2 ^ 20) := by
  obtain ⟨b', hrun, hsites⟩ := rewriteImage_sites b (origKB * 1024) (newKB * 1024)
  refine ⟨b', hrun, fun i j hi hj => ⟨fun h => ?_, fun hle => ?_⟩⟩
  · have hle := le_of_meansSize h
    omega
  · exact meansSize_of_le (by omega) (by omega) (hsites _ _ hi) (hsites _ _ hj)

/-! ### A prologue and an epilogue -/

def onePair : List Byte := prologPattern ++ epilogPattern

theorem patchSites_onePair :
    patchSites onePair (8192 * 1024) (4096 * 1024) = [(.prolog, 0), (.epilog, 29)] ∧
      patchSites onePair (8192 * 1024) (2097152 * 1024) = [(.prolog, 0), (.epilog, 29)] := by
  constructor <;> decide

/-- From 8 MB to 4 MB. -/
theorem meansSize_iff_onePair :
    ∃ b', modifyOneBinFile onePair 8192 4096 = some (b', 1, 1) ∧
      MeansSize b' 0 29 (4096 * 1024) := by
  obtain ⟨b', hrun, hpairs⟩ := @meansSize_iff onePair 8192 4096 (by decide)
  rw [patchSites_onePair.1] at hrun hpairs
  exact ⟨b', hrun, (hpairs 0 29 (by decide) (by decide)).mpr (by decide)⟩

/-- From 8 MB to 2 GB: the mask and the slot still fit, but the field for the random value, `-4 GB`,
becomes 0. -/
theorem twoGB_not_meant :
    ∃ b', modifyOneBinFile onePair 8192 2097152 = some (b', 1, 1) ∧
      extended b' 6 = -(2097152 * 1024) ∧ extended b' 13 = 0 ∧
      ¬ MeansSize b' 0 29 (2097152 * 1024) := by
  obtain ⟨b', hrun, hsites⟩ := rewriteImage_sites onePair (8192 * 1024) (2097152 * 1024)
  rw [patchSites_onePair.2] at hrun hsites
  have hocc := hsites .prolog 0 (by decide)
  have hlength : (Kind.prolog.pattern (2097152 * 1024)).length = 29 := Kind.length_pattern _ _
  obtain ⟨h6, h13, -⟩ := fieldAt_prolog (2097152 * 1024)
  have hmask : extended b' (0 + 6) = -(2097152 * 1024) :=
    extended_of_occursAt hocc (by omega) h6 (by decide) (by decide)
  have hzero : BitVec.ofInt 32 (-2 * (2097152 * 1024)) = BitVec.ofInt 32 0 := by decide
  have htls : extended b' (0 + 13) = 0 :=
    extended_of_occursAt hocc (by omega) (h13.trans hzero) (by decide) (by decide)
  exact ⟨b', hrun, hmask, htls, fun h => absurd (le_of_meansSize h) (by decide)⟩

end FlashStack.Rewriter
