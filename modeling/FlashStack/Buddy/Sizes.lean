/-
The size of the call stack in the buddy-stack scheme.

`SPA_CALL_STACK_SIZE` sets it, in KB, for every thread of the process; `init.c` makes the
mask of it and checks nothing. What `getenv` and `atol` make of the variable is an argument.
The top of the stack of a thread is what the initialisation computes from the answer of
`pthread_attr_getstack`; the error exits of that function are left out.

* `UsesBlocks`: at a stack pointer, the code finds one of the two blocks that the
  initialisation has filled;
* `exists_apart`: for a size that is no power of two there is a call stack with two stack
  pointers at which the code looks at different addresses, closer than two blocks;
* `stkSize_works_iff`: the address is always that of an initialised block exactly for the
  powers of two; and the macro in `DO_RANDOMIZATION` computes the address that the
  instrumented code uses, for every size.

The powers of two are the case of the module on decoding. In the other direction the lowest
bit of the size decides: it lies inside the mask, so adding it to a stack pointer with that
bit clear moves the address by as much, and the distance of the two blocks is larger. A size
below four pages leaves no room for this argument and is not considered.
-/

import FlashStack.Buddy.Decoding
import Mathlib.Data.Nat.Factorization.Basic

namespace FlashStack.Buddy

open Lib.Memory Lib.Align

/-! ### The runtime -/

/-- `set_stk_size_global_var`: the new mask. `stkSize` is what `atol` makes of the variable, and
`none` without it. -/
def setStkSizeGlobalVar (stkSize : Option Word) (mask : Word) : Word :=
  match stkSize with
  | some n => -(n * 1024)
  | none => mask

/-- `BUDDY_STACK_SIZE`: the call stack, the shadow stack, and the thread-local storage, which is
as large as both. -/
def buddyStackSize (mask : Word) : Word := 4 * buddyCallStackSize mask

/-- `stack_high` in `buddy_init_main_thread_tls`; the arguments are what `pthread_attr_getstack`
answers. It is at least four stack sizes above the low end. -/
def stackHigh (mask stackLow stackSize : Word) : Word :=
  if stackLow + stackSize < stackLow + buddyStackSize mask then stackLow + buddyStackSize mask
  else stackLow + stackSize

/-- `buddy_init_main_thread_tls`, and `buddy_init_other_thread_tls`, which calls it. -/
def buddyInitMainThreadTls (mask stackLow stackSize randomVal : Word) (m : Words) : Words :=
  buddyInitTlsMetadata mask (stackHigh mask stackLow stackSize) randomVal m

/-- `ptr2` and `ptr3` of `buddy_init_tls_metadata`. -/
def ptr2 (mask stackHigh : Word) : Word :=
  buddyAlignCallStackPointer mask stackHigh - 2 * buddyCallStackSize mask

def ptr3 (mask stackHigh : Word) : Word :=
  buddyAlignCallStackPointer mask stackHigh - 3 * buddyCallStackSize mask

/-! ### Sizes -/

/-- `r` is a stack pointer of the call stack below `top`, aligned and above the guard page.
Nothing is assumed of the size here. -/
structure PointsInto (size top r : Word) : Prop where
  top_page : top.toNat % 4096 = 0
  le_top : 4 * size.toNat ≤ top.toNat
  aligned : r.toNat % 8 = 0
  low : top.toNat + 4096 ≤ r.toNat + size.toNat
  high : r.toNat < top.toNat

/-- The code finds one of the blocks that have been initialised. At any other address it would
read what memory holds there by chance. -/
def UsesBlocks (mask top r : Word) : Prop :=
  tlsAddress mask r = ptr2 mask top ∨ tlsAddress mask r = ptr3 mask top

instance (mask top r : Word) : Decidable (UsesBlocks mask top r) := instDecidableOr

/-- One block is a call stack below the other. -/
theorem ptr2_eq (mask top : Word) : ptr2 mask top = ptr3 mask top + buddyCallStackSize mask := by
  unfold ptr2 ptr3
  grind

/-- Two stack pointers at which the blocks are found look at one block or at blocks that are a
call stack apart. -/
theorem UsesBlocks.apart {size top r r' d : Word} (h : UsesBlocks (-size) top r)
    (h' : UsesBlocks (-size) top r') (hd : tlsAddress (-size) r' = tlsAddress (-size) r + d) :
    d = 0 ∨ d = size ∨ size + d = 0 := by
  have hblocks := ptr2_eq (-size) top
  rw [buddyCallStackSize, BitVec.neg_neg] at hblocks
  unfold UsesBlocks at h h'
  grind

/-- For a power of two the blocks are found, since the mask rounds down to a multiple of the size.
-/
theorem uses_of_powerOfTwo {size : Word} {log : Nat} (hsize : size.toNat = 2 ^ log)
    (hlog : 12 ≤ log) {top r : Word} (hr : PointsInto size top r) : UsesBlocks (-size) top r := by
  let k : Stack := ⟨size, log, top, hsize, hlog, hr.top_page, hr.le_top⟩
  exact k.tlsAddress_eq_or ⟨hr.aligned, hr.low, hr.high⟩

/-- For another size there is a call stack with two stack pointers at which the code looks
at different addresses, closer to each other than two blocks. -/
theorem exists_apart {size : Word} {j n : Nat} (hsize : size.toNat = 2 ^ j * (2 * n + 1))
    (hn : 0 < n) (hj : 3 ≤ j) (hmin : 2 ^ 14 ≤ size.toNat) (hmax : size.toNat ≤ 2 ^ 45) :
    ∃ top r, PointsInto size top r ∧ PointsInto size top (r + BitVec.twoPow 64 j) ∧
      tlsAddress (-size) (r + BitVec.twoPow 64 j) = tlsAddress (-size) r + BitVec.twoPow 64 j := by
  obtain ⟨d, rfl⟩ := Nat.exists_eq_add_of_le hj
  -- The lowest bit of the size is `bit`; the size is at least three times as large.
  generalize hbit : 2 ^ (3 + d) = bit at hsize
  have height : bit % 8 = 0 := by
    rw [← hbit, Nat.pow_add]
    omega
  have hpos : 0 < bit := hbit ▸ Nat.two_pow_pos _
  have hthree : 3 * bit ≤ size.toNat := by
    rw [hsize, Nat.mul_comm 3]
    exact Nat.mul_le_mul_left _ (by omega)
  have htwoPow : (BitVec.twoPow 64 (3 + d)).toNat = bit := by
    rw [BitVec.toNat_twoPow, hbit, Nat.mod_eq_of_lt (by omega)]
  let top : Word := BitVec.ofNat 64 (8192 * size.toNat)
  let r : Word := BitVec.ofNat 64 (8192 * size.toNat - 2 * bit)
  have htop : top.toNat = 8192 * size.toNat := by
    rw [BitVec.toNat_ofNat, Nat.mod_eq_of_lt (by omega)]
  have hr : r.toNat = 8192 * size.toNat - 2 * bit := by
    rw [BitVec.toNat_ofNat, Nat.mod_eq_of_lt (by omega)]
  have hnext : (r + BitVec.twoPow 64 (3 + d)).toNat = 8192 * size.toNat - bit := by
    rw [BitVec.toNat_add, hr, htwoPow, Nat.mod_eq_of_lt (by omega)]
    omega
  have hmultiple : r.toNat % 2 ^ (3 + d + 1) = 0 := by
    have hfactor : 8192 * size.toNat - 2 * bit = bit * 2 * (4096 * (2 * n + 1) - 1) := by
      rw [hsize, Nat.mul_sub, Nat.mul_one]
      grind
    rw [hr, Nat.pow_succ, hbit, hfactor, Nat.mul_mod_right]
  rw [← hbit] at hsize
  refine ⟨top, r, ⟨?_, ?_, ?_, ?_, ?_⟩, ⟨?_, ?_, ?_, ?_, ?_⟩, ?_⟩
  iterate 10 omega
  rw [tlsAddress, and_neg_add_bit hsize hmultiple, tlsAddress]
  grind

/-- **The size of the call stack**, set to `n` KB: the code finds an initialised block at every
stack pointer of every call stack if and only if `n` is a power of two; and with every size
`DO_RANDOMIZATION` takes the address that the instrumented code loads from. -/
theorem stkSize_works_iff {n : Nat} (hmin : 16 ≤ n) (hmax : n ≤ 2 ^ 35) (mask : Word) :
    ((∀ top r, PointsInto (BitVec.ofNat 64 n * 1024) top r →
      UsesBlocks (setStkSizeGlobalVar (some (BitVec.ofNat 64 n)) mask) top r) ↔
      ∃ k, n = 2 ^ k) ∧
    ∀ r, buddyGetTlsInfo (setStkSizeGlobalVar (some (BitVec.ofNat 64 n)) mask) r =
      tlsAddress (setStkSizeGlobalVar (some (BitVec.ofNat 64 n)) mask) r := by
  refine ⟨?_, fun r => tlsAddress_eq _ r⟩
  have hsize : (BitVec.ofNat 64 n * 1024 : Word).toNat = n * 1024 := by
    have hkb : (1024 : Word).toNat = 1024 := rfl
    rw [BitVec.toNat_mul, BitVec.toNat_ofNat, Nat.mod_eq_of_lt (a := n) (by omega), hkb,
      Nat.mod_eq_of_lt (by omega)]
  constructor
  · intro huses
    by_contra hpow
    obtain ⟨a, b, ⟨c, rfl⟩, rfl⟩ := Nat.exists_eq_two_pow_mul_odd (n := n) (by omega)
    have hc : 0 < c := by
      rcases Nat.eq_zero_or_pos c with rfl | hc
      · exact absurd ⟨a, by simp⟩ hpow
      · exact hc
    have hfactor : (BitVec.ofNat 64 (2 ^ a * (2 * c + 1)) * 1024 : Word).toNat =
        2 ^ (a + 10) * (2 * c + 1) := by
      rw [hsize, Nat.pow_add]
      grind
    obtain ⟨top, r, hr, hr', hapart⟩ :=
      exists_apart hfactor hc (by omega) (by omega) (by omega)
    have hbit : (BitVec.twoPow 64 (a + 10)).toNat = 2 ^ (a + 10) := by
      have hle : 2 ^ (a + 10) ≤ 2 ^ (a + 10) * (2 * c + 1) := Nat.le_mul_of_pos_right _ (by omega)
      rw [BitVec.toNat_twoPow, Nat.mod_eq_of_lt (by omega)]
    have hpos : 0 < 2 ^ (a + 10) := Nat.two_pow_pos _
    have hthree : 3 * 2 ^ (a + 10) ≤ 2 ^ (a + 10) * (2 * c + 1) := by
      rw [Nat.mul_comm 3]
      exact Nat.mul_le_mul_left _ (by omega)
    have hnil : (0 : Word).toNat = 0 := rfl
    rcases (huses top r hr).apart (huses top _ hr') hapart with hzero | hsame | hwrap
    · rw [hzero, hnil] at hbit
      omega
    · rw [hsame] at hbit
      omega
    · have hsum := congrArg BitVec.toNat hwrap
      rw [BitVec.toNat_add, hbit, Nat.mod_eq_of_lt (by omega), hnil] at hsum
      omega
  · rintro ⟨k, rfl⟩ top r hr
    have hlog : 12 ≤ k + 10 := by
      by_contra hsmall
      have hle : 2 ^ k ≤ 2 ^ 1 := Nat.pow_le_pow_right (by omega) (by omega)
      omega
    have hpower : (BitVec.ofNat 64 (2 ^ k) * 1024 : Word).toNat = 2 ^ (k + 10) := by
      rw [hsize, Nat.pow_add]
    exact uses_of_powerOfTwo hpower hlog hr

/-- The default, 8 MB. -/
theorem stkSize_works_iff_8MB :
    ((∀ top r, PointsInto (BitVec.ofNat 64 8192 * 1024) top r →
      UsesBlocks (setStkSizeGlobalVar (some (BitVec.ofNat 64 8192)) 0) top r) ↔
      ∃ k, 8192 = 2 ^ k) ∧
    ∀ r, buddyGetTlsInfo (setStkSizeGlobalVar (some (BitVec.ofNat 64 8192)) 0) r =
      tlsAddress (setStkSizeGlobalVar (some (BitVec.ofNat 64 8192)) 0) r :=
  stkSize_works_iff (by decide) (by decide) 0

/-- With 24 KB the code looks elsewhere at some stack pointers. -/
example : ∃ top r, PointsInto (24 * 1024) top r ∧ ¬ UsesBlocks (-(24 * 1024)) top r :=
  ⟨0x7fff0000, 0x7ffec000, ⟨by decide, by decide, by decide, by decide, by decide⟩, by decide⟩

end FlashStack.Buddy
