/-
Byte-addressed partial memory with owners.

An address space maps a 64-bit address to a cell, or to nothing when the address is not
mapped. A cell carries the byte and the owner that mapped it; the owners are of any type,
and a memory of one owner is just partial memory. Accesses are little-endian; ranges wrap
modulo `2^64`, so `InRange a n x` says that `x` is one of the `n` addresses from `a` on, and
no lemma needs a range that does not wrap.

* `loadN_storeN_self`, `loadN_congr`: a load sees the last store to the same bytes, and
  depends on nothing else. `load64_storeN_self` and `load64_storeN_apart` are the word
  forms;
* `mapZero`, `unmap`, `remap`: the three ways a range changes hands, each with its pointwise
  description and its effect on owners. A fresh range holds zeros; a moved one keeps its
  bytes.

A store is defined for every address and changes mapped cells only; `store64` is the one
that fails where a byte is not mapped. So a proof about a memory after several stores can
first do without the side conditions. Two words are `Apart` if no byte is in both, which is
enough for stores to commute (`storeN_comm`); they need not be aligned.
-/

import Mathlib.Algebra.Group.Nat.Defs
import Mathlib.Data.Nat.Basic

namespace Lib.Memory

abbrev Word := BitVec 64
abbrev Byte := BitVec 8

/-- A mapped byte: who mapped it, and what it holds. -/
structure Cell (Owner : Type) where
  owner : Owner
  byte : Byte

/-- An address space. An unmapped address has no cell, and so neither a content nor an owner. -/
abbrev Space (Owner : Type) := Word → Option (Cell Owner)

/-! ### Ranges -/

/-- `x` is one of the `n` addresses `a, a + 1, …` (modulo `2^64`). -/
def InRange (a : Word) (n : Nat) (x : Word) : Prop := (x - a).toNat < n

instance (a : Word) (n : Nat) (x : Word) : Decidable (InRange a n x) :=
  inferInstanceAs (Decidable ((x - a).toNat < n))

theorem inRange_add {a : Word} {n k : Nat} (hk : k < n) (hn : n ≤ 2 ^ 64) :
    InRange a n (a + BitVec.ofNat 64 k) := by
  unfold InRange
  bv_omega

/-- A property of the first `n` offsets is a property of the range. -/
theorem forall_offset_iff {a : Word} {n : Nat} (hn : n ≤ 2 ^ 64) {P : Word → Prop} :
    (∀ k < n, P (a + BitVec.ofNat 64 k)) ↔ ∀ x, InRange a n x → P x := by
  constructor
  · intro h x hx
    have hxa : a + BitVec.ofNat 64 (x - a).toNat = x := by
      rw [BitVec.ofNat_toNat, BitVec.setWidth_eq]
      grind
    rw [← hxa]
    exact h _ hx
  · intro h k hk
    exact h _ (inRange_add hk hn)

/-- Two words of eight bytes that do not overlap, also across the end of the address space. -/
def Apart (a b : Word) : Prop := 8 ≤ (b - a).toNat ∧ 8 ≤ (a - b).toNat

instance (a b : Word) : Decidable (Apart a b) :=
  inferInstanceAs (Decidable (8 ≤ (b - a).toNat ∧ 8 ≤ (a - b).toNat))

theorem Apart.symm {a b : Word} (h : Apart a b) : Apart b a := ⟨h.2, h.1⟩

/-- Distinct aligned words do not overlap. -/
theorem apart_of_aligned {a b : Word} (ha : a.toNat % 8 = 0) (hb : b.toNat % 8 = 0)
    (hne : a ≠ b) : Apart a b := by
  unfold Apart
  constructor <;> bv_omega

variable {Owner : Type}

/-! ### Cells, owners and bytes -/

def ownerOf (m : Space Owner) (x : Word) : Option Owner := (m x).map Cell.owner

def byteOf (m : Space Owner) (x : Word) : Option Byte := (m x).map Cell.byte

/-- Every one of the `n` addresses from `a` on is mapped. -/
def Mapped (m : Space Owner) (a : Word) (n : Nat) : Prop :=
  ∀ k < n, (m (a + BitVec.ofNat 64 k)).isSome = true

/-- None of the `n` addresses from `a` on is mapped. A kernel maps fresh memory only where this
holds. -/
def Free (m : Space Owner) (a : Word) (n : Nat) : Prop :=
  ∀ k < n, (m (a + BitVec.ofNat 64 k)).isNone = true

/-- Every one of the `n` addresses from `a` on is mapped by `o`. -/
def OwnedBy (m : Space Owner) (o : Owner) (a : Word) (n : Nat) : Prop :=
  ∀ k < n, ownerOf m (a + BitVec.ofNat 64 k) = some o

instance (m : Space Owner) (a : Word) (n : Nat) : Decidable (Mapped m a n) :=
  Nat.decidableBallLT _ _

instance (m : Space Owner) (a : Word) (n : Nat) : Decidable (Free m a n) :=
  Nat.decidableBallLT _ _

instance [DecidableEq Owner] (m : Space Owner) (o : Owner) (a : Word) (n : Nat) :
    Decidable (OwnedBy m o a n) :=
  Nat.decidableBallLT _ _

theorem ownerOf_eq_some {m : Space Owner} {x : Word} {o : Owner} :
    ownerOf m x = some o ↔ ∃ c, m x = some c ∧ c.owner = o := by
  simp [ownerOf]

theorem OwnedBy.mapped {m : Space Owner} {o : Owner} {a : Word} {n : Nat}
    (h : OwnedBy m o a n) : Mapped m a n := by
  intro k hk
  obtain ⟨c, hc, -⟩ := ownerOf_eq_some.mp (h k hk)
  rw [hc]
  rfl

theorem ownedBy_iff {m : Space Owner} {o : Owner} {a : Word} {n : Nat} (hn : n ≤ 2 ^ 64) :
    OwnedBy m o a n ↔ ∀ x, InRange a n x → ownerOf m x = some o :=
  forall_offset_iff (P := fun x => ownerOf m x = some o) hn

theorem free_iff {m : Space Owner} {a : Word} {n : Nat} (hn : n ≤ 2 ^ 64) :
    Free m a n ↔ ∀ x, InRange a n x → m x = none := by
  rw [← forall_offset_iff (P := fun x => m x = none) hn]
  simp [Free]

/-! ### Little-endian loads and stores -/

/-- The `n` bytes from `a` on, as a little-endian number; `none` when one of them is not mapped.
-/
def loadN (m : Space Owner) (a : Word) : Nat → Option Nat
  | 0 => some 0
  | n + 1 => do
      let c ← m a
      let rest ← loadN m (a + 1) n
      return c.byte.toNat + 256 * rest

/-- Write the little-endian bytes of `v` to the mapped bytes among the `n` from
`a` on. -/
def storeN (m : Space Owner) (a : Word) (n v : Nat) : Space Owner := fun x =>
  if InRange a n x then
    (m x).map fun c => { c with byte := BitVec.ofNat 8 (v / 256 ^ (x - a).toNat) }
  else m x

/-- A 64-bit load; `none` when a byte is not mapped. -/
def load64 (m : Space Owner) (a : Word) : Option Word := (loadN m a 8).map (BitVec.ofNat 64)

/-- A 64-bit store; `none` when a byte is not mapped, in which case no byte is changed. -/
def store64 (m : Space Owner) (a v : Word) : Option (Space Owner) :=
  if Mapped m a 8 then some (storeN m a 8 v.toNat) else none

theorem add_one_add (a : Word) (k : Nat) :
    a + 1 + BitVec.ofNat 64 k = a + BitVec.ofNat 64 (k + 1) := by
  bv_omega

/-- A load depends only on the bytes it reads. -/
theorem loadN_congr {m m' : Space Owner} {a b : Word} {n : Nat}
    (h : ∀ k < n, byteOf m (a + BitVec.ofNat 64 k) = byteOf m' (b + BitVec.ofNat 64 k)) :
    loadN m a n = loadN m' b n := by
  induction n generalizing a b with
  | zero => rfl
  | succ n ih =>
      have hrest : loadN m (a + 1) n = loadN m' (b + 1) n := by
        apply ih
        intro k hk
        rw [add_one_add, add_one_add]
        exact h (k + 1) (by omega)
      have h0 : byteOf m a = byteOf m' b := by simpa using h 0 (by omega)
      simp only [loadN, hrest]
      unfold byteOf at h0
      cases hm : m a <;> cases hm' : m' b <;> simp_all

/-- What a load returns when the bytes are those of `v`. -/
theorem loadN_eq_mod {m : Space Owner} {a : Word} {n v : Nat}
    (h : ∀ k < n, byteOf m (a + BitVec.ofNat 64 k) = some (BitVec.ofNat 8 (v / 256 ^ k))) :
    loadN m a n = some (v % 256 ^ n) := by
  induction n generalizing a v with
  | zero => simp [loadN, Nat.mod_one]
  | succ n ih =>
      have hrest : loadN m (a + 1) n = some (v / 256 % 256 ^ n) := by
        apply ih
        intro k hk
        rw [add_one_add, h (k + 1) (by omega), Nat.div_div_eq_div_mul, ← Nat.pow_succ']
      obtain ⟨c, hc, hbyte⟩ : ∃ c, m a = some c ∧ c.byte = BitVec.ofNat 8 v := by
        simpa [byteOf] using h 0 (by omega)
      have hb : c.byte.toNat = v % 256 := by rw [hbyte]; rfl
      rw [loadN, hc, hrest, Nat.pow_succ', Nat.mod_mul, ← hb]
      rfl

theorem loadN_isSome {m : Space Owner} {a : Word} {n : Nat} (h : Mapped m a n) :
    ∃ v, loadN m a n = some v := by
  induction n generalizing a with
  | zero => exact ⟨0, rfl⟩
  | succ n ih =>
      obtain ⟨rest, hrest⟩ := ih (a := a + 1) fun k hk => by
        rw [add_one_add]
        exact h (k + 1) (by omega)
      obtain ⟨c, hc⟩ := Option.isSome_iff_exists.mp (by simpa using h 0 (by omega))
      exact ⟨_, by simp only [loadN, hc, hrest]; rfl⟩

theorem load64_isSome {m : Space Owner} {a : Word} (h : Mapped m a 8) :
    ∃ v, load64 m a = some v := by
  obtain ⟨v, hv⟩ := loadN_isSome h
  exact ⟨BitVec.ofNat 64 v, by rw [load64, hv]; rfl⟩

theorem load64_congr {m m' : Space Owner} {a b : Word}
    (h : ∀ k < 8, byteOf m (a + BitVec.ofNat 64 k) = byteOf m' (b + BitVec.ofNat 64 k)) :
    load64 m a = load64 m' b := by
  rw [load64, load64, loadN_congr h]

/-! ### Stores, pointwise -/

theorem storeN_outside {m : Space Owner} {a x : Word} {n v : Nat} (h : ¬ InRange a n x) :
    storeN m a n v x = m x := by
  simp [storeN, h]

@[simp] theorem ownerOf_storeN (m : Space Owner) (a x : Word) (n v : Nat) :
    ownerOf (storeN m a n v) x = ownerOf m x := by
  unfold ownerOf storeN
  split
  · simp [Option.map_map, Function.comp_def]
  · rfl

@[simp] theorem storeN_isSome (m : Space Owner) (a x : Word) (n v : Nat) :
    (storeN m a n v x).isSome = (m x).isSome := by
  unfold storeN
  split <;> simp

theorem ownedBy_storeN {m : Space Owner} {o : Owner} {a b : Word} {n k v : Nat} :
    OwnedBy (storeN m a n v) o b k ↔ OwnedBy m o b k := by
  simp [OwnedBy]

theorem mapped_storeN {m : Space Owner} {a b : Word} {n k v : Nat} :
    Mapped (storeN m a n v) b k ↔ Mapped m b k := by
  simp [Mapped]

theorem free_storeN {m : Space Owner} {a b : Word} {n k v : Nat} :
    Free (storeN m a n v) b k ↔ Free m b k := by
  have hsame : ∀ x, (storeN m a n v x).isNone = (m x).isNone := fun x => by
    rw [← Option.not_isSome, ← Option.not_isSome, storeN_isSome]
  simp only [Free, hsame]

theorem byteOf_storeN_at {m : Space Owner} {a x : Word} {n v : Nat} (hx : InRange a n x)
    (hm : (m x).isSome = true) :
    byteOf (storeN m a n v) x = some (BitVec.ofNat 8 (v / 256 ^ (x - a).toNat)) := by
  obtain ⟨c, hc⟩ := Option.isSome_iff_exists.mp hm
  simp only [byteOf, storeN, if_pos hx, hc, Option.map_some]

theorem byteOf_storeN_inside {m : Space Owner} {a : Word} {n v k : Nat} (hk : k < n)
    (hn : n ≤ 2 ^ 64) (hm : (m (a + BitVec.ofNat 64 k)).isSome = true) :
    byteOf (storeN m a n v) (a + BitVec.ofNat 64 k) = some (BitVec.ofNat 8 (v / 256 ^ k)) := by
  have hoff : (a + BitVec.ofNat 64 k - a).toNat = k := by bv_omega
  rw [byteOf_storeN_at (inRange_add hk hn) hm, hoff]

theorem loadN_storeN_self {m : Space Owner} {a : Word} {n v : Nat} (hn : n ≤ 2 ^ 64)
    (hm : Mapped m a n) : loadN (storeN m a n v) a n = some (v % 256 ^ n) :=
  loadN_eq_mod fun k hk => byteOf_storeN_inside hk hn (hm k hk)

/-- A word load sees the word just stored. -/
theorem load64_storeN_self {m : Space Owner} {a v : Word} (hm : Mapped m a 8) :
    load64 (storeN m a 8 v.toNat) a = some v := by
  rw [load64, loadN_storeN_self (by omega) hm]
  have hv : v.toNat % 256 ^ 8 = v.toNat := Nat.mod_eq_of_lt v.isLt
  rw [hv, Option.map_some, BitVec.ofNat_toNat, BitVec.setWidth_eq]

/-- A word load does not see a store to other bytes. -/
theorem load64_storeN_apart {m : Space Owner} {a b : Word} {v : Nat} (h : Apart a b) :
    load64 (storeN m a 8 v) b = load64 m b := by
  apply load64_congr
  intro k hk
  have hout : ¬ InRange a 8 (b + BitVec.ofNat 64 k) := by
    unfold Apart at h
    unfold InRange
    bv_omega
  rw [byteOf, byteOf, storeN_outside hout]

/-- The bytes of a loaded number. -/
theorem byteOf_of_loadN {m : Space Owner} {a : Word} {n v : Nat} (h : loadN m a n = some v) :
    v < 256 ^ n ∧
      ∀ k < n, byteOf m (a + BitVec.ofNat 64 k) = some (BitVec.ofNat 8 (v / 256 ^ k)) := by
  induction n generalizing a v with
  | zero =>
      obtain rfl := Option.some.inj h
      exact ⟨by decide, fun k hk => absurd hk (Nat.not_lt_zero k)⟩
  | succ n ih =>
      obtain ⟨c, hc, hload⟩ := Option.bind_eq_some_iff.mp h
      obtain ⟨rest, hrest, hv⟩ := Option.bind_eq_some_iff.mp hload
      obtain rfl : c.byte.toNat + 256 * rest = v := Option.some.inj hv
      obtain ⟨hlt, hbytes⟩ := ih hrest
      have hc256 : c.byte.toNat < 256 := c.byte.isLt
      refine ⟨by rw [Nat.pow_succ]; omega, fun k hk => ?_⟩
      cases k with
      | zero =>
          have hlow : BitVec.ofNat 8 (c.byte.toNat + 256 * rest) = c.byte := by bv_omega
          simpa [byteOf, hc] using hlow.symm
      | succ k =>
          have hdiv : (c.byte.toNat + 256 * rest) / 256 ^ (k + 1) = rest / 256 ^ k := by
            rw [Nat.pow_succ', ← Nat.div_div_eq_div_mul]
            congr 1
            omega
          rw [← add_one_add, hdiv]
          exact hbytes k (by omega)

theorem byteOf_of_load64 {m : Space Owner} {a v : Word} (h : load64 m a = some v) {k : Nat}
    (hk : k < 8) :
    byteOf m (a + BitVec.ofNat 64 k) = some (BitVec.ofNat 8 (v.toNat / 256 ^ k)) := by
  obtain ⟨n, hn, hv⟩ := Option.map_eq_some_iff.mp h
  obtain ⟨hlt, hbytes⟩ := byteOf_of_loadN hn
  have hvn : v.toNat = n := by
    rw [← hv, BitVec.toNat_ofNat]
    exact Nat.mod_eq_of_lt hlt
  rw [hvn]
  exact hbytes k hk

theorem mapped_of_load64 {m : Space Owner} {a v : Word} (h : load64 m a = some v) :
    Mapped m a 8 := by
  intro k hk
  obtain ⟨c, hc, -⟩ := Option.map_eq_some_iff.mp (byteOf_of_load64 h hk)
  rw [hc]
  rfl

/-- Stores that agree where they began agree where they end. -/
theorem storeN_congr {m m' : Space Owner} {x : Word} (h : m x = m' x) (a : Word) (n v : Nat) :
    storeN m a n v x = storeN m' a n v x := by
  simp only [storeN, h]

/-- Stores to words that do not overlap commute. -/
theorem storeN_comm {m : Space Owner} {a b : Word} (h : Apart a b) (v w : Nat) :
    storeN (storeN m a 8 v) b 8 w = storeN (storeN m b 8 w) a 8 v := by
  funext x
  by_cases ha : InRange a 8 x
  · have hb : ¬ InRange b 8 x := by
      unfold Apart InRange at *
      bv_omega
    simp only [storeN, if_pos ha, if_neg hb]
  · simp only [storeN, if_neg ha]

/-! ### Mapping, unmapping and moving a range -/

/-- Map the `n` addresses from `a` on for `o`, filled with zeros. What was mapped there before is
gone. -/
def mapZero (m : Space Owner) (o : Owner) (a : Word) (n : Nat) : Space Owner := fun x =>
  if InRange a n x then some ⟨o, 0⟩ else m x

def unmap (m : Space Owner) (a : Word) (n : Nat) : Space Owner := fun x =>
  if InRange a n x then none else m x

/-- Move `n` bytes from `old` to `new`: whatever was mapped at `new` is dropped,
and `old` is left unmapped. -/
def remap (m : Space Owner) (old new : Word) (n : Nat) : Space Owner := fun x =>
  if InRange new n x then m (old + (x - new))
  else if InRange old n x then none
  else m x

theorem mapZero_inside {m : Space Owner} {o : Owner} {a x : Word} {n : Nat}
    (h : InRange a n x) : mapZero m o a n x = some ⟨o, 0⟩ := by
  simp [mapZero, h]

theorem mapZero_outside {m : Space Owner} {o : Owner} {a x : Word} {n : Nat}
    (h : ¬ InRange a n x) : mapZero m o a n x = m x := by
  simp [mapZero, h]

theorem Mapped.mapZero {m : Space Owner} {a : Word} {n : Nat} (h : Mapped m a n) (o : Owner)
    (b : Word) (k : Nat) : Mapped (mapZero m o b k) a n := by
  intro i hi
  by_cases hin : InRange b k (a + BitVec.ofNat 64 i)
  · rw [mapZero_inside hin]
    rfl
  · rw [mapZero_outside hin]
    exact h i hi

theorem unmap_inside {m : Space Owner} {a x : Word} {n : Nat} (h : InRange a n x) :
    unmap m a n x = none := by
  simp [unmap, h]

theorem unmap_outside {m : Space Owner} {a x : Word} {n : Nat} (h : ¬ InRange a n x) :
    unmap m a n x = m x := by
  simp [unmap, h]

theorem remap_new {m : Space Owner} {old new : Word} {n k : Nat} (hk : k < n)
    (hn : n ≤ 2 ^ 64) :
    remap m old new n (new + BitVec.ofNat 64 k) = m (old + BitVec.ofNat 64 k) := by
  have hoff : new + BitVec.ofNat 64 k - new = BitVec.ofNat 64 k := by bv_omega
  simp [remap, inRange_add hk hn, hoff]

theorem remap_old {m : Space Owner} {old new x : Word} {n : Nat} (hnew : ¬ InRange new n x)
    (hold : InRange old n x) : remap m old new n x = none := by
  simp [remap, hnew, hold]

theorem remap_outside {m : Space Owner} {old new x : Word} {n : Nat}
    (hnew : ¬ InRange new n x) (hold : ¬ InRange old n x) : remap m old new n x = m x := by
  simp [remap, hnew, hold]

end Lib.Memory
