/-
Where the slot of a stack pointer lies.

With the GS base `initDiff ss r0`, the prologue slot of `rsp` lies at the same distance from
the shadow stack `ss` as `rsp` from `r0 - 8 MB`.

* `slotAddr_initDiff`: that distance, for every stack pointer, modulo `2^64`;
* `shadowStackByRsp_initDiff`: rounding the address down to 8 MB finds `ss` back for the
  stack pointers below `r0`, which is what the metadata lookup relies on;
* `shadowStackByRsp_above`: in the 1.5 MB from `r0` up, where frames have slots too, it
  finds the address 8 MB further up instead, whose metadata would be behind the end of the
  region;
* `initDiff_add`: a move of the region and of the GS base by the same distance keeps all
  this.

`HasSlot` and `BelowStart` name the two ranges of stack pointers. They are about distances
from `r0` and do not ask that the stack be mapped, or that the addresses do not wrap.
Nothing here is about memory; the lemmas are equations of words, with masks turned into
remainders and the rest left to `bv_omega`.
-/

import FlashStack.Runtime.Progress

namespace FlashStack.Runtime

open Lib.Memory

/-! ### Masks -/

theorem and_allOnes_shiftLeft {w : Nat} (x : BitVec w) (n : Nat) :
    x &&& (BitVec.allOnes w <<< n) = x >>> n <<< n := by
  ext i hi
  by_cases h : i < n
  · simp [h]
  · have hback : n + (i - n) = i := by omega
    simp [h, hback, hi]

theorem toNat_and_callStackSizeMask (x : Word) :
    (x &&& defBuddyCallStackSizeMask).toNat = x.toNat / 2 ^ 23 * 2 ^ 23 := by
  have hmask : defBuddyCallStackSizeMask = BitVec.allOnes 64 <<< 23 := by decide
  have hx := x.isLt
  rw [hmask, and_allOnes_shiftLeft, BitVec.toNat_shiftLeft, BitVec.toNat_ushiftRight,
    Nat.shiftRight_eq_div_pow, Nat.shiftLeft_eq, Nat.mod_eq_of_lt]
  omega

theorem toNat_and_8MBMask (x : Word) : (x &&& spa8MBMask).toNat = x.toNat % 2 ^ 23 := by
  have hmask : spa8MBMask.toNat = 2 ^ 23 - 1 := by decide
  rw [BitVec.toNat_and, hmask, Nat.and_two_pow_sub_one_eq_mod]

/-- An 8MB-aligned address is found back from any address less than 8 MB above. -/
theorem add_and_callStackSizeMask {ss k : Word} (hss : ss.toNat % 2 ^ 23 = 0)
    (hk : k.toNat < 2 ^ 23) : (ss + k) &&& defBuddyCallStackSizeMask = ss := by
  apply BitVec.eq_of_toNat_eq
  have hlt := ss.isLt
  rw [toNat_and_callStackSizeMask, BitVec.toNat_add]
  omega

/-- An accepted address is 8MB-aligned and not above `adjusted_rsp`. -/
theorem accepted_iff {adjustedRsp a : Word} :
    rejected adjustedRsp a = false ↔ a.toNat % 2 ^ 23 = 0 ∧ a.toNat ≤ adjustedRsp.toNat := by
  have hzero : a &&& spa8MBMask = 0 ↔ a.toNat % 2 ^ 23 = 0 := by
    rw [← toNat_and_8MBMask]
    exact ⟨fun h => by rw [h]; rfl, fun h => BitVec.eq_of_toNat_eq h⟩
  simp only [rejected, Bool.or_eq_false_iff, bne_eq_false_iff_eq, decide_eq_false_iff_not,
    BitVec.lt_def, not_lt, hzero]

/-! ### Slots -/

/-- The address of the prologue slot: GS base plus `rsp` minus `2^47`, all modulo `2^64`, as the
instruction computes it. -/
def slotAddr (gs rsp : Word) : Word := gs + rsp - spaUserSpaceSize

/-- The lowest address of the 8 MB call stack below `r0`. -/
def callStackBase (r0 : Word) : Word := r0 - BitVec.ofNat 64 defBuddyCallStackSize

/-- The stack pointers that have a slot below the metadata: 8-byte-aligned, in
`[r0 - 8 MB, r0 + 1.5 MB)`. -/
structure HasSlot (r0 rsp : Word) : Prop where
  aligned : rsp.toNat % 8 = 0
  inRange : InRange (callStackBase r0) metadataOffsetOnShadowStack rsp

/-- The stack pointers in `[r0 - 8 MB, r0)`: those from which the metadata lookup finds the
metadata. -/
def BelowStart (r0 rsp : Word) : Prop := InRange (callStackBase r0) defBuddyCallStackSize rsp

instance (r0 rsp : Word) : Decidable (BelowStart r0 rsp) :=
  inferInstanceAs (Decidable (InRange _ _ _))

theorem slotAddr_initDiff (ss r0 rsp : Word) :
    slotAddr (initDiff ss r0) rsp = ss + (rsp - callStackBase r0) := by
  unfold slotAddr initDiff callStackBase initShadowStackOffset
  grind

theorem slotAddr_offset (ss r0 rsp : Word) :
    slotAddr (initDiff ss r0) rsp =
      ss + BitVec.ofNat 64 (rsp - callStackBase r0).toNat := by
  rw [slotAddr_initDiff, BitVec.ofNat_toNat, BitVec.setWidth_eq]

/-- Moving the shadow stack moves the GS base by the same distance. -/
theorem initDiff_add (ss new r0 : Word) : initDiff ss r0 + (new - ss) = initDiff new r0 := by
  unfold initDiff
  grind

/-- **The metadata lookup** finds the shadow stack from below `r0`: there the slot is in the first
8 MB of the region. -/
theorem shadowStackByRsp_initDiff {ss r0 rsp : Word} (hss : ss.toNat % 2 ^ 23 = 0)
    (hrsp : BelowStart r0 rsp) : shadowStackByRsp rsp (initDiff ss r0) = ss := by
  have haddr : rsp + initDiff ss r0 - spaUserSpaceSize = ss + (rsp - callStackBase r0) := by
    rw [← slotAddr_initDiff, slotAddr, BitVec.add_comm]
  rw [shadowStackByRsp, haddr]
  exact add_and_callStackSizeMask hss hrsp

/-- From nowhere else: what the lookup finds is the shadow stack only if `rsp` is below `r0`. -/
theorem belowStart_of_shadowStackByRsp {ss r0 rsp : Word}
    (h : shadowStackByRsp rsp (initDiff ss r0) = ss) : BelowStart r0 rsp := by
  have haddr : rsp + initDiff ss r0 - spaUserSpaceSize = ss + (rsp - callStackBase r0) := by
    rw [← slotAddr_initDiff, slotAddr, BitVec.add_comm]
  have hsize : defBuddyCallStackSize = 8388608 := by decide
  have hround := congrArg BitVec.toNat h
  rw [shadowStackByRsp, haddr, toNat_and_callStackSizeMask, BitVec.toNat_add] at hround
  unfold BelowStart InRange
  rw [hsize]
  have hk := (rsp - callStackBase r0).isLt
  omega

/-- A frame in the 1.5 MB above `r0` has its slot in the next 8 MB of the region. -/
theorem shadowStackByRsp_above {ss r0 rsp : Word} (hss : ss.toNat % 2 ^ 23 = 0)
    (hrsp : InRange (callStackBase r0) metadataOffsetOnShadowStack rsp)
    (habove : ¬ BelowStart r0 rsp) :
    shadowStackByRsp rsp (initDiff ss r0) = ss + BitVec.ofNat 64 defBuddyCallStackSize := by
  have hsize : defBuddyCallStackSize = 8388608 := by decide
  have hoffset : metadataOffsetOnShadowStack = 9961472 := by decide
  have haddr : rsp + initDiff ss r0 - spaUserSpaceSize =
      ss + BitVec.ofNat 64 defBuddyCallStackSize +
        (rsp - callStackBase r0 - BitVec.ofNat 64 defBuddyCallStackSize) := by
    have hslot := slotAddr_initDiff ss r0 rsp
    rw [slotAddr] at hslot
    grind
  rw [shadowStackByRsp, haddr]
  clear haddr
  unfold BelowStart InRange at habove
  unfold InRange at hrsp
  rw [hsize] at habove ⊢
  rw [hoffset] at hrsp
  generalize rsp - callStackBase r0 = k at habove hrsp ⊢
  apply add_and_callStackSizeMask
  · bv_omega
  · bv_omega

/-- A slot lies below the metadata. -/
theorem HasSlot.isSlotOffset {r0 rsp : Word} (h : HasSlot r0 rsp) (hr0 : r0.toNat % 8 = 0) :
    IsSlotOffset (rsp - callStackBase r0).toNat := by
  have hin := h.inRange
  have hal := h.aligned
  unfold InRange metadataOffsetOnShadowStack defBuddyCallStackSize at hin
  unfold IsSlotOffset metadataOffsetOnShadowStack defBuddyCallStackSize
  unfold callStackBase defBuddyCallStackSize at *
  bv_omega

/-- Different stack pointers have slots that do not overlap. -/
theorem slotAddr_apart {gs r r' : Word} (hr : r.toNat % 8 = 0) (hr' : r'.toNat % 8 = 0)
    (hne : r ≠ r') : Apart (slotAddr gs r) (slotAddr gs r') := by
  have hap := apart_of_aligned hr hr' hne
  unfold Apart slotAddr at *
  have h₁ : gs + r' - spaUserSpaceSize - (gs + r - spaUserSpaceSize) = r' - r := by grind
  have h₂ : gs + r - spaUserSpaceSize - (gs + r' - spaUserSpaceSize) = r - r' := by grind
  rwa [h₁, h₂]

end FlashStack.Runtime
