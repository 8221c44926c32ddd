/-
The shadow stack of one thread, as an assertion on memory.

`ShadowRegion m t ss fresh md content` says that in `m` the bytes mapped for the shadow
stack of thread `t` are exactly the 10 MB at `ss` (and, during a move, the 10 MB at
`fresh`), that the metadata block at `ss + 9.5 MB` holds the fields `md`, and that every
other byte holds `content`. The contents are given by offsets, so that they stay what they
are when the region moves. Each action of the runtime takes the assertion to itself with one
component changed:

* `store_field`, `store_slot`: a metadata field, a slot;
* `map_fresh`, `unmap_fresh`: the region `mmap` returned, and its removal;
* `move`: the base address, with metadata and content carried along.

`OthersKept t m m'` is the frame of thread `t`: everything mapped for somebody else is as it
was. The same actions keep it, and it is transitive, so that a function keeps it as well.

The assertion says what is mapped for the thread and that nothing else is. An `mremap` onto
the fresh mapping is what the source does to move: it takes that mapping's place, and the
old addresses are free afterwards.
-/

import FlashStack.Runtime.GsRsp

namespace FlashStack.Runtime

open Lib.Memory Lib.Program

theorem realShadowStackSize_le : realShadowStackSize ≤ 2 ^ 64 := by decide

/-- A prologue slot at offset `k` lies below the metadata. Its eight bytes are all there. -/
def IsSlotOffset (k : Nat) : Prop := k + 8 ≤ metadataOffsetOnShadowStack

/-- The offsets of the metadata block. A slot that reached one of them would overwrite it. -/
def IsMetadataOffset (k : Nat) : Prop :=
  metadataOffsetOnShadowStack ≤ k ∧ k < metadataOffsetOnShadowStack + sizeofMetadata

/-- The offset of a metadata field from the start of the shadow stack. -/
def Field.regionOffset (f : Field) : Nat := metadataOffsetOnShadowStack + f.offset

theorem Field.addr_eq (ss : Word) (f : Field) :
    f.addr (getGsRspMetadataByShadowStack ss) = ss + BitVec.ofNat 64 f.regionOffset := by
  unfold Field.addr getGsRspMetadataByShadowStack Field.regionOffset
  rw [BitVec.ofNat_add, BitVec.add_assoc]

theorem Field.regionOffset_le (f : Field) : f.regionOffset + 8 ≤ realShadowStackSize := by
  cases f <;> decide

theorem Field.isMetadataOffset {f : Field} {k : Nat} (hk : k < 8) :
    IsMetadataOffset (f.regionOffset + k) := by
  constructor
  · unfold Field.regionOffset
    omega
  · have hoff : f.offset + 8 ≤ sizeofMetadata := by cases f <;> decide
    unfold Field.regionOffset
    omega

theorem Field.offset_apart {f g : Field} (h : f ≠ g) :
    f.regionOffset + 8 ≤ g.regionOffset ∨ g.regionOffset + 8 ≤ f.regionOffset := by
  unfold Field.regionOffset
  cases f <;> cases g <;> first | exact absurd rfl h | (simp only [Field.offset]; omega)

/-- Words at offsets at least eight apart, inside one region, do not overlap. -/
theorem apart_of_offset {ss : Word} {i j : Nat} (hij : i + 8 ≤ j ∨ j + 8 ≤ i)
    (hi : i + 8 ≤ realShadowStackSize) (hj : j + 8 ≤ realShadowStackSize) :
    Apart (ss + BitVec.ofNat 64 i) (ss + BitVec.ofNat 64 j) := by
  have hsize : realShadowStackSize < 2 ^ 32 := by decide
  unfold Apart
  constructor <;> bv_omega

/-! ### The assertion -/

structure ShadowRegion (m : Space Owner) (t : Tid) (ss : Word) (fresh : Option Word)
    (md : Field → Word) (content : Nat → Byte) : Prop where
  /-- Exactly these bytes are mapped as the shadow stack of `t`. -/
  owns : ∀ x, ownerOf m x = some (.shadow t) ↔
    InRange ss realShadowStackSize x ∨ ∃ new ∈ fresh, InRange new realShadowStackSize x
  apart : ∀ new ∈ fresh, ∀ x, InRange new realShadowStackSize x →
    ¬ InRange ss realShadowStackSize x
  fields : ∀ f : Field, load64 m (f.addr (getGsRspMetadataByShadowStack ss)) = some (md f)
  bytes : ∀ k < realShadowStackSize, ¬ IsMetadataOffset k →
    byteOf m (ss + BitVec.ofNat 64 k) = some (content k)

/-- Thread `t` changes nothing that is mapped for somebody else, and takes only what was free. -/
def OthersKept (t : Tid) (m m' : Space Owner) : Prop :=
  ∀ x c, c.owner ≠ .shadow t → (m x = some c ↔ m' x = some c)

theorem OthersKept.refl (t : Tid) (m : Space Owner) : OthersKept t m m := fun _ _ _ => Iff.rfl

/-- On an empty machine the thread has mapped nothing besides its own region. -/
theorem OthersKept.free_outside {t : Tid} {m m' : Space Owner} {ss : Word} {n : Nat}
    (h : OthersKept t m m') (hempty : ∀ x, m x = none)
    (hregion : ∀ x, ownerOf m' x = some (.shadow t) ↔ InRange ss n x) {x : Word}
    (hx : ¬ InRange ss n x) : m' x = none := by
  cases hm : m' x with
  | none => rfl
  | some c =>
      exfalso
      by_cases hc : c.owner = .shadow t
      · exact hx ((hregion x).mp (by simp [ownerOf, hm, hc]))
      · have hmapped := (h x c hc).mpr hm
        rw [hempty x] at hmapped
        cases hmapped

theorem OthersKept.trans {t : Tid} {m m' m'' : Space Owner} (h : OthersKept t m m')
    (h' : OthersKept t m' m'') : OthersKept t m m'' :=
  fun x c hc => (h x c hc).trans (h' x c hc)

/-- The frame of `t`, from what happens to the bytes of `t` and the free ones. -/
theorem OthersKept.of_unchanged {t : Tid} {m m' : Space Owner}
    (h : ∀ x, m' x ≠ m x →
      (m x = none ∨ ownerOf m x = some (.shadow t)) ∧
        (m' x = none ∨ ownerOf m' x = some (.shadow t))) : OthersKept t m m' := by
  intro x c hc
  by_cases hx : m' x = m x
  · rw [hx]
  · obtain ⟨hm, hm'⟩ := h x hx
    have hno : ∀ {n : Space Owner}, n x = none ∨ ownerOf n x = some (.shadow t) →
        n x ≠ some c := by
      rintro n (hn | hn) hxc
      · simp [hn] at hxc
      · simp only [ownerOf, hxc, Option.map_some, Option.some.injEq] at hn
        exact hc hn
    exact ⟨fun h => absurd h (hno hm), fun h => absurd h (hno hm')⟩

theorem OthersKept.ownerOf_iff {t : Tid} {m m' : Space Owner} (h : OthersKept t m m')
    {o : Owner} (ho : o ≠ .shadow t) (x : Word) :
    ownerOf m x = some o ↔ ownerOf m' x = some o := by
  simp only [ownerOf_eq_some]
  constructor
  · rintro ⟨c, hc, rfl⟩
    exact ⟨c, (h x c ho).mp hc, rfl⟩
  · rintro ⟨c, hc, rfl⟩
    exact ⟨c, (h x c ho).mpr hc, rfl⟩

/-- The words of the program are as they were. -/
theorem OthersKept.load64_other {t : Tid} {m m' : Space Owner} {a : Word}
    (h : OthersKept t m m') (ha : OwnedBy m .other a 8) : load64 m' a = load64 m a := by
  refine load64_congr fun k hk => ?_
  obtain ⟨c, hc, hown⟩ := ownerOf_eq_some.mp (ha k hk)
  have hne : c.owner ≠ .shadow t := by
    rw [hown]
    simp
  rw [byteOf, byteOf, hc, (h _ c hne).mp hc]

/-- A store to bytes of `t` stays inside its frame. -/
theorem othersKept_storeN {m : Space Owner} {t : Tid} {a : Word} {n v : Nat} (hn : n ≤ 2 ^ 64)
    (h : OwnedBy m (.shadow t) a n) : OthersKept t m (storeN m a n v) := by
  apply OthersKept.of_unchanged
  intro x hx
  have hin : InRange a n x := by
    by_contra hout
    exact hx (storeN_outside hout)
  have hown := (ownedBy_iff hn).mp h x hin
  exact ⟨Or.inr hown, Or.inr (by rw [ownerOf_storeN]; exact hown)⟩

namespace ShadowRegion

variable {m m' : Space Owner} {t : Tid} {ss : Word} {fresh : Option Word} {md : Field → Word}
  {content : Nat → Byte}

theorem owned (h : ShadowRegion m t ss fresh md content) {k n : Nat}
    (hk : k + n ≤ realShadowStackSize) :
    OwnedBy m (.shadow t) (ss + BitVec.ofNat 64 k) n := by
  have hsize : realShadowStackSize < 2 ^ 32 := by decide
  intro i hi
  refine (h.owns _).mpr (Or.inl ?_)
  unfold InRange
  bv_omega

theorem owned_field (h : ShadowRegion m t ss fresh md content) (f : Field) :
    OwnedBy m (.shadow t) (f.addr (getGsRspMetadataByShadowStack ss)) 8 := by
  rw [Field.addr_eq]
  exact h.owned f.regionOffset_le

theorem owned_all (h : ShadowRegion m t ss fresh md content) :
    OwnedBy m (.shadow t) ss realShadowStackSize := by
  have hown := h.owned (k := 0) (n := realShadowStackSize) (by omega)
  simpa using hown

/-- The assertion depends on the bytes of the region, wherever they are. -/
theorem transport {ss' : Word} {fresh' : Option Word}
    (h : ShadowRegion m t ss fresh md content)
    (howns : ∀ x, ownerOf m' x = some (.shadow t) ↔
      InRange ss' realShadowStackSize x ∨ ∃ new ∈ fresh', InRange new realShadowStackSize x)
    (hapart : ∀ new ∈ fresh', ∀ x, InRange new realShadowStackSize x →
      ¬ InRange ss' realShadowStackSize x)
    (hbytes : ∀ k < realShadowStackSize,
      byteOf m' (ss' + BitVec.ofNat 64 k) = byteOf m (ss + BitVec.ofNat 64 k)) :
    ShadowRegion m' t ss' fresh' md content where
  owns := howns
  apart := hapart
  fields f := by
    rw [← h.fields f]
    apply load64_congr
    intro k hk
    have hoff := f.regionOffset_le
    rw [Field.addr_eq, Field.addr_eq, BitVec.add_assoc, BitVec.add_assoc, ← BitVec.ofNat_add]
    exact hbytes _ (by omega)
  bytes k hk hmeta := by rw [hbytes k hk, h.bytes k hk hmeta]

/-! ### Stores inside the region -/

/-- A store does not reach the bytes of the region outside it. -/
theorem byteOf_store_outside {k n j v : Nat} (hj : j < realShadowStackSize)
    (hk : k + n ≤ realShadowStackSize) (hout : j < k ∨ k + n ≤ j) :
    byteOf (storeN m (ss + BitVec.ofNat 64 k) n v) (ss + BitVec.ofNat 64 j) =
      byteOf m (ss + BitVec.ofNat 64 j) := by
  have hsize : realShadowStackSize < 2 ^ 32 := by decide
  have hno : ¬ InRange (ss + BitVec.ofNat 64 k) n (ss + BitVec.ofNat 64 j) := by
    unfold InRange
    bv_omega
  rw [byteOf, byteOf, storeN_outside hno]

theorem store_field (h : ShadowRegion m t ss fresh md content) (f : Field) (v : Word) :
    ShadowRegion (storeN m (f.addr (getGsRspMetadataByShadowStack ss)) 8 v.toNat) t ss fresh
      (Function.update md f v) content where
  owns x := by rw [ownerOf_storeN]; exact h.owns x
  apart := h.apart
  fields g := by
    by_cases hg : g = f
    · subst hg
      rw [Function.update_self]
      exact load64_storeN_self (h.owned_field g).mapped
    · rw [Function.update_of_ne hg, ← h.fields g, Field.addr_eq, Field.addr_eq]
      exact load64_storeN_apart
        (apart_of_offset (Field.offset_apart (Ne.symm hg)) f.regionOffset_le g.regionOffset_le)
  bytes k hk hmeta := by
    rw [Field.addr_eq, byteOf_store_outside hk f.regionOffset_le]
    · exact h.bytes k hk hmeta
    · by_contra hin
      have hk8 : k - f.regionOffset < 8 := by omega
      have := Field.isMetadataOffset (f := f) hk8
      rw [Nat.add_sub_cancel' (by omega)] at this
      exact hmeta this

/-- Clearing the metadata block clears every field. -/
theorem memset_metadata (h : ShadowRegion m t ss fresh md content) :
    ShadowRegion (storeN m (getGsRspMetadataByShadowStack ss) sizeofMetadata 0) t ss fresh
      (fun _ => 0) content where
  owns x := by rw [ownerOf_storeN]; exact h.owns x
  apart := h.apart
  fields f := by
    have hoff : f.offset + 8 ≤ sizeofMetadata := by cases f <;> decide
    have hmap : Mapped m (getGsRspMetadataByShadowStack ss) sizeofMetadata :=
      (h.owned (k := metadataOffsetOnShadowStack) (by decide)).mapped
    have hload : loadN (storeN m (getGsRspMetadataByShadowStack ss) sizeofMetadata 0)
        (f.addr (getGsRspMetadataByShadowStack ss)) 8 = some (0 % 256 ^ 8) := by
      apply loadN_eq_mod
      intro k hk
      rw [Field.addr, BitVec.add_assoc, ← BitVec.ofNat_add,
        byteOf_storeN_inside (by omega) (by decide) (hmap _ (by omega))]
      simp
    rw [load64, hload]
    rfl
  bytes k hk hmeta := by
    rw [getGsRspMetadataByShadowStack, byteOf_store_outside hk (by decide)]
    · exact h.bytes k hk hmeta
    · by_contra hin
      exact hmeta ⟨by omega, by omega⟩

/-- A prologue store changes the content of its slot and nothing else. -/
theorem store_slot (h : ShadowRegion m t ss fresh md content) {k : Nat} (hk : IsSlotOffset k)
    (v : Word) :
    ∃ content', ShadowRegion (storeN m (ss + BitVec.ofNat 64 k) 8 v.toNat) t ss fresh md
      content' := by
  have hk' : k + 8 ≤ realShadowStackSize := le_trans hk (by decide)
  refine ⟨fun j => if k ≤ j ∧ j < k + 8 then BitVec.ofNat 8 (v.toNat / 256 ^ (j - k))
    else content j, ?_, h.apart, ?_, ?_⟩
  · intro x
    rw [ownerOf_storeN]
    exact h.owns x
  · intro f
    have hlt : k + 8 ≤ f.regionOffset := le_trans hk (by unfold Field.regionOffset; omega)
    rw [← h.fields f, Field.addr_eq]
    exact load64_storeN_apart (apart_of_offset (Or.inl hlt) hk' f.regionOffset_le)
  · intro j hj hmeta
    by_cases hin : k ≤ j ∧ j < k + 8
    · have hjk : ss + BitVec.ofNat 64 j = ss + BitVec.ofNat 64 k + BitVec.ofNat 64 (j - k) := by
        rw [BitVec.add_assoc, ← BitVec.ofNat_add, Nat.add_sub_cancel' hin.1]
      rw [if_pos hin, hjk, byteOf_storeN_inside (by omega) (by decide)]
      exact (h.owned hk').mapped _ (by omega)
    · rw [if_neg hin, byteOf_store_outside hj hk' (by omega)]
      exact h.bytes j hj hmeta

/-! ### Mapping, unmapping and moving -/

/-- A fresh region next to the shadow stack. -/
theorem map_fresh (h : ShadowRegion m t ss none md content) {new : Word}
    (hfree : Free m new realShadowStackSize) :
    ShadowRegion (mapZero m (.shadow t) new realShadowStackSize) t ss (some new) md content := by
  have hfree := (free_iff realShadowStackSize_le).mp hfree
  have hout : ∀ x, InRange new realShadowStackSize x → ¬ InRange ss realShadowStackSize x := by
    intro x hnew hss
    have hown := (h.owns x).mpr (Or.inl hss)
    simp [ownerOf, hfree x hnew] at hown
  apply h.transport
  · intro x
    by_cases hx : InRange new realShadowStackSize x
    · simp [ownerOf, mapZero_inside hx, hx]
    · have hown := h.owns x
      simp only [Option.mem_def, reduceCtorEq, false_and, exists_false, or_false] at hown
      simpa [ownerOf, mapZero_outside hx, hx] using hown
  · rintro a ⟨⟩
    exact hout
  · intro k hk
    have hx : ¬ InRange new realShadowStackSize (ss + BitVec.ofNat 64 k) :=
      fun hnew => hout _ hnew (inRange_add hk realShadowStackSize_le)
    rw [byteOf, byteOf, mapZero_outside hx]

theorem unmap_fresh {new : Word} (h : ShadowRegion m t ss (some new) md content) :
    ShadowRegion (unmap m new realShadowStackSize) t ss none md content := by
  have hout := h.apart new rfl
  apply h.transport
  · intro x
    by_cases hx : InRange new realShadowStackSize x
    · simp [ownerOf, unmap_inside hx, hout x hx]
    · have hown := h.owns x
      simpa [ownerOf, unmap_outside hx, hx] using hown
  · rintro a ⟨⟩
  · intro k hk
    have hx : ¬ InRange new realShadowStackSize (ss + BitVec.ofNat 64 k) :=
      fun hnew => hout _ hnew (inRange_add hk realShadowStackSize_le)
    rw [byteOf, byteOf, unmap_outside hx]

/-- The move: the region is at `new`, with its metadata and content. -/
theorem move {new : Word} (h : ShadowRegion m t ss (some new) md content) :
    ShadowRegion (remap m ss new realShadowStackSize) t new none md content := by
  apply h.transport
  · intro x
    by_cases hx : InRange new realShadowStackSize x
    · obtain ⟨k, hk, rfl⟩ : ∃ k < realShadowStackSize, x = new + BitVec.ofNat 64 k :=
        ⟨(x - new).toNat, hx, by rw [BitVec.ofNat_toNat, BitVec.setWidth_eq]; grind⟩
      have hown := (h.owns (ss + BitVec.ofNat 64 k)).mpr
        (Or.inl (inRange_add hk realShadowStackSize_le))
      simpa [ownerOf, remap_new hk realShadowStackSize_le, hx] using hown
    · by_cases hold : InRange ss realShadowStackSize x
      · simp [ownerOf, remap_old hx hold, hx]
      · have hown := h.owns x
        simpa [ownerOf, remap_outside hx hold, hx, hold] using hown
  · rintro a ⟨⟩
  · intro k hk
    rw [byteOf, byteOf, remap_new hk realShadowStackSize_le]

/-- The first region of a thread that had none. -/
theorem of_mapZero (hnone : ∀ x, ownerOf m x ≠ some (.shadow t)) :
    ShadowRegion (mapZero m (.shadow t) ss realShadowStackSize) t ss none (fun _ => 0)
      (fun _ => 0) where
  owns x := by
    by_cases hx : InRange ss realShadowStackSize x
    · simp [ownerOf, mapZero_inside hx, hx]
    · have := hnone x
      simpa [ownerOf, mapZero_outside hx, hx] using this
  apart := by rintro a ⟨⟩
  fields f := by
    have hload : loadN (mapZero m (.shadow t) ss realShadowStackSize)
        (f.addr (getGsRspMetadataByShadowStack ss)) 8 = some (0 % 256 ^ 8) := by
      apply loadN_eq_mod
      intro k hk
      have hoff := f.regionOffset_le
      rw [Field.addr_eq, BitVec.add_assoc, ← BitVec.ofNat_add, byteOf,
        mapZero_inside (inRange_add (by omega) realShadowStackSize_le)]
      simp
    rw [load64, hload]
    rfl
  bytes k hk _ := by
    rw [byteOf, mapZero_inside (inRange_add hk realShadowStackSize_le)]
    rfl

end ShadowRegion

/-! ### Frames of mapping, unmapping and moving -/

/-- Unmapping what was just mapped on free memory leaves memory as it was. -/
theorem unmap_mapZero {m : Space Owner} {o : Owner} {a : Word} {n : Nat} (hn : n ≤ 2 ^ 64)
    (hfree : Free m a n) : unmap (mapZero m o a n) a n = m := by
  funext x
  by_cases hx : InRange a n x
  · rw [unmap_inside hx, (free_iff hn).mp hfree x hx]
  · rw [unmap_outside hx, mapZero_outside hx]

theorem othersKept_mapZero {m : Space Owner} {t : Tid} {a : Word} {n : Nat} (hn : n ≤ 2 ^ 64)
    (hfree : Free m a n) : OthersKept t m (mapZero m (.shadow t) a n) := by
  apply OthersKept.of_unchanged
  intro x hx
  have hin : InRange a n x := by
    by_contra hout
    exact hx (mapZero_outside hout)
  exact ⟨Or.inl ((free_iff hn).mp hfree x hin), Or.inr (by simp [ownerOf, mapZero_inside hin])⟩

theorem othersKept_unmap {m : Space Owner} {t : Tid} {a : Word} {n : Nat} (hn : n ≤ 2 ^ 64)
    (h : OwnedBy m (.shadow t) a n) : OthersKept t m (unmap m a n) := by
  apply OthersKept.of_unchanged
  intro x hx
  have hin : InRange a n x := by
    by_contra hout
    exact hx (unmap_outside hout)
  exact ⟨Or.inr ((ownedBy_iff hn).mp h x hin), Or.inl (unmap_inside hin)⟩

theorem othersKept_remap {m : Space Owner} {t : Tid} {old new : Word} {n : Nat} (hn : n ≤ 2 ^ 64)
    (hold : OwnedBy m (.shadow t) old n) (hnew : OwnedBy m (.shadow t) new n) :
    OthersKept t m (remap m old new n) := by
  apply OthersKept.of_unchanged
  intro x hx
  by_cases hin : InRange new n x
  · refine ⟨Or.inr ((ownedBy_iff hn).mp hnew x hin), Or.inr ?_⟩
    obtain ⟨k, hk, rfl⟩ : ∃ k < n, x = new + BitVec.ofNat 64 k :=
      ⟨(x - new).toNat, hin, by rw [BitVec.ofNat_toNat, BitVec.setWidth_eq]; grind⟩
    rw [ownerOf, remap_new hk hn]
    exact hold k hk
  · by_cases hino : InRange old n x
    · exact ⟨Or.inr ((ownedBy_iff hn).mp hold x hino), Or.inl (remap_old hin hino)⟩
    · exact absurd (remap_outside hin hino) hx

/-- Once the region of `t` is at `new`, nothing is mapped where it was before. -/
theorem ShadowRegion.old_free {m m' : Space Owner} {t : Tid} {ss new : Word}
    {md md' : Field → Word} {content content' : Nat → Byte}
    (h : ShadowRegion m t ss none md content) (h' : ShadowRegion m' t new none md' content')
    (hothers : OthersKept t m m') (hfree : Free m new realShadowStackSize) :
    Free m' ss realShadowStackSize := by
  rw [free_iff realShadowStackSize_le] at hfree ⊢
  intro x hx
  have hown := (h.owns x).mpr (Or.inl hx)
  cases hm' : m' x with
  | none => rfl
  | some c =>
      exfalso
      by_cases hc : c.owner = .shadow t
      · have hnew : InRange new realShadowStackSize x := by
          simpa using (h'.owns x).mp (by simp [ownerOf, hm', hc])
        simp [ownerOf, hfree x hnew] at hown
      · simp [ownerOf, (hothers x c hc).mpr hm', hc] at hown

end FlashStack.Runtime
