/-
Alignment masks.

Code that finds the start of an aligned block masks the low bits of an address inside it.
The mask is made from the size of the block by negation, `-m`, in two's complement; that
this rounds down is true for one kind of size only, and code seldom checks it. The lemmas
here say what such a mask does for either kind, for words of any width.

* `toNat_and_neg`: for a power of two `m`, the mask `-m` clears the low bits of an address;
  it rounds the address down to a multiple of `m`;
* `and_neg_add_bit`: for any other `m` it keeps the lowest bit of `m`, which stands below
  the highest; so adding that bit to an address that does not have it moves the masked
  address by as much.

The first goes through numbers: masking with `-m` and with its complement are the two parts
of an address (`toNat_and_add_and_not`), and the second part is a remainder. The second goes
through bits. `bv_omega` does not see through a mask whose width or size is a variable,
which is why these are lemmas.
-/

import Mathlib.Algebra.Group.Nat.Defs
import Mathlib.Data.Nat.Basic

namespace Lib.Align

variable {w : Nat}

theorem and_and_not (x m : BitVec w) : (x &&& m) &&& (x &&& ~~~m) = 0#w := by
  ext i hi
  simp only [BitVec.getElem_and, BitVec.getElem_not, BitVec.getElem_zero]
  grind

/-- A word is what a mask keeps and what it clears. -/
theorem toNat_and_add_and_not (x m : BitVec w) :
    (x &&& m).toNat + (x &&& ~~~m).toNat = x.toNat := by
  have hsum : (x &&& m) + (x &&& ~~~m) = x := by
    rw [BitVec.add_eq_or_of_and_eq_zero _ _ (and_and_not x m)]
    ext i hi
    simp only [BitVec.getElem_or, BitVec.getElem_and, BitVec.getElem_not]
    grind
  rw [← BitVec.toNat_add_of_and_eq_zero (and_and_not x m), hsum]

/-- **Rounding down** to a multiple of a power of two. -/
theorem toNat_and_neg {x m : BitVec w} {k : Nat} (hm : m.toNat = 2 ^ k) :
    (x &&& -m).toNat = x.toNat - x.toNat % 2 ^ k := by
  have hone : (m - 1#w).toNat = 2 ^ k - 1 := by
    have hlt := m.isLt
    have hpos : 0 < 2 ^ k := Nat.two_pow_pos k
    have hle : 1#w ≤ m := by
      rw [BitVec.le_def, BitVec.toNat_ofNat, Nat.mod_eq_of_lt (by omega)]
      omega
    rw [BitVec.toNat_sub_of_le hle, hm, BitVec.toNat_ofNat, Nat.mod_eq_of_lt (by omega)]
  have hlow : (x &&& (m - 1#w)).toNat = x.toNat % 2 ^ k := by
    rw [BitVec.toNat_and, hone, Nat.and_two_pow_sub_one_eq_mod]
  have hneg : -m = ~~~(m - 1#w) := by
    rw [BitVec.not_eq_neg_add]
    grind
  have hsum := toNat_and_add_and_not x (m - 1#w)
  rw [← hneg, hlow] at hsum
  omega

/-- The lowest bit of `m` is set in `-m`. -/
theorem getLsbD_neg_bit {m : BitVec w} {j n : Nat} (hm : m.toNat = 2 ^ j * (2 * n + 1)) :
    (-m).getLsbD j = true := by
  have hpos : 0 < 2 ^ j := Nat.two_pow_pos j
  have hj : j < w := by
    by_contra hge
    have hpow : 2 ^ w ≤ 2 ^ j := Nat.pow_le_pow_right (by omega) (by omega)
    have hle : 2 ^ w ≤ 2 ^ j * (2 * n + 1) :=
      Nat.le_trans hpow (Nat.le_mul_of_pos_right _ (by omega))
    have hlt := m.isLt
    omega
  have hone : (m - 1#w).toNat = 2 ^ j * (2 * n) + (2 ^ j - 1) := by
    have hlt := m.isLt
    have hmul : 2 ^ j * (2 * n + 1) = 2 ^ j * (2 * n) + 2 ^ j := by rw [Nat.mul_add, Nat.mul_one]
    have hle : 1#w ≤ m := by
      rw [BitVec.le_def, BitVec.toNat_ofNat, Nat.mod_eq_of_lt (by omega)]
      omega
    rw [BitVec.toNat_sub_of_le hle, hm, BitVec.toNat_ofNat, Nat.mod_eq_of_lt (by omega)]
    omega
  have hneg : -m = ~~~(m - 1#w) := by
    rw [BitVec.not_eq_neg_add]
    grind
  have hbit : (m - 1#w).getLsbD j = false := by
    rw [BitVec.getLsbD, hone, Nat.testBit_eq_decide_div_mod_eq, Nat.mul_add_div hpos,
      Nat.div_eq_of_lt (by omega)]
    simp
  rw [hneg, BitVec.getLsbD_not, hbit]
  simp [hj]

/-- **A mask that is no power of two** keeps a bit below its highest one. -/
theorem and_neg_add_bit {x m : BitVec w} {j n : Nat} (hm : m.toNat = 2 ^ j * (2 * n + 1))
    (hx : x.toNat % 2 ^ (j + 1) = 0) :
    (x + BitVec.twoPow w j) &&& -m = (x &&& -m) + BitVec.twoPow w j := by
  have hbit := getLsbD_neg_bit hm
  have hlow : ∀ i, i ≤ j → x.getLsbD i = false := by
    intro i hi
    obtain ⟨d, hd⟩ := Nat.dvd_of_mod_eq_zero hx
    rw [BitVec.getLsbD, hd, Nat.testBit_two_pow_mul]
    simp
    omega
  have hdisjoint : x &&& BitVec.twoPow w j = 0#w := by
    ext i hi
    rw [BitVec.getElem_and, ← BitVec.getLsbD_eq_getElem, ← BitVec.getLsbD_eq_getElem,
      BitVec.getLsbD_twoPow]
    by_cases hij : j = i
    · rw [hlow i (by omega)]
      simp
    · simp [hij]
  have hkept : BitVec.twoPow w j &&& -m = BitVec.twoPow w j := by
    ext i hi
    rw [BitVec.getElem_and, ← BitVec.getLsbD_eq_getElem, ← BitVec.getLsbD_eq_getElem,
      BitVec.getLsbD_twoPow]
    by_cases hij : j = i
    · rw [← hij, hbit]
      simp
    · simp [hij]
  have hdisjoint' : x &&& -m &&& BitVec.twoPow w j = 0#w := by
    rw [BitVec.and_assoc, BitVec.and_comm (-m), ← BitVec.and_assoc, hdisjoint, BitVec.zero_and]
  rw [BitVec.add_eq_or_of_and_eq_zero _ _ hdisjoint, BitVec.add_eq_or_of_and_eq_zero _ _ hdisjoint',
    BitVec.and_or_distrib_right, hkept]

end Lib.Align
