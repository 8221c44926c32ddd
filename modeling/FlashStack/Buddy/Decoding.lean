/-
Decoding across re-randomization in the buddy-stack scheme.

A thread writes its call stack, runs prologues and epilogues, and re-randomizes, in any
order; a re-randomization adds to the random value in both blocks, and to every word of the
shadow area from the stack pointer up.

* `tlsAddress_eq_or`: at every stack pointer, the code uses one of the two metadata blocks;
* `inShadow_of_inLanes`: the update of the shadow stack stays inside the shadow area;
* `reachable_inv`, `buddy_decoding`: whatever is live decodes to the return address that was
  encoded, however often the random value changed.

`Stack` carries what the layout rests on: a size that is a power of two and at least a page,
and a top that is aligned to a page and leaves room for four sizes. The guard page at the
end of the call stack is no part of it (`InStack`). An activation is live from its prologue
to its epilogue, and a re-randomization runs at a stack pointer that is not above any live
one.

The invariant `Inv` says that both blocks hold the same random value and point to each
other, and that what is live is its slot minus that value. The function of a
re-randomization returns early while another one of the same thread is under way; between
two steps no flag is set, which is part of the invariant too. One step keeps it
(`inv_step`), by the specification of each function.
-/

import FlashStack.Buddy.Scheme

namespace FlashStack.Buddy

open Lib.Memory Lib.Align

/-! ### The layout -/

/-- A call stack below `top`, for a power of two as its size. Four sizes fit below the top, and
the size is a page at least, as the two blocks have a page each. -/
structure Stack where
  size : Word
  log : Nat
  top : Word
  size_eq : size.toNat = 2 ^ log
  le_log : 12 ≤ log
  top_page : top.toNat % 4096 = 0
  le_top : 4 * size.toNat ≤ top.toNat

namespace Stack

variable (k : Stack)

def mask : Word := -k.size

/-- The first of the two blocks that `buddy_init_tls_metadata` initialises. It serves the stack
pointers from the aligned top on, and `ptr3` those below. -/
def ptr2 : Word := buddyAlignCallStackPointer k.mask k.top - 2 * buddyCallStackSize k.mask
def ptr3 : Word := buddyAlignCallStackPointer k.mask k.top - 3 * buddyCallStackSize k.mask

/-- The stack pointers of the scheme; the lowest page of the call stack is a guard page. -/
def InStack (r : Word) : Prop :=
  r.toNat % 8 = 0 ∧ k.top.toNat + 4096 ≤ r.toNat + k.size.toNat ∧ r.toNat < k.top.toNat

/-- The words of the shadow area, which is one call stack below the call stack and as large, the
guard page not counted. -/
def InShadow (a : Word) : Prop :=
  k.top.toNat + 4096 ≤ a.toNat + 2 * k.size.toNat ∧ a.toNat + k.size.toNat < k.top.toNat

/-- The page of one of the two blocks. The block itself is at its foot. -/
def InPage (p a : Word) : Prop := p.toNat ≤ a.toNat ∧ a.toNat < p.toNat + 4096

/-- The stack size is a multiple of the page size. -/
theorem size_page : ∃ n, 0 < n ∧ k.size.toNat = 4096 * n := by
  obtain ⟨d, hd⟩ := Nat.exists_eq_add_of_le k.le_log
  refine ⟨2 ^ d, Nat.two_pow_pos d, ?_⟩
  rw [k.size_eq, hd, Nat.pow_add]

theorem buddyCallStackSize_mask : buddyCallStackSize k.mask = k.size := by
  rw [buddyCallStackSize, mask, BitVec.neg_neg]

/-- Aligning rounds down to a multiple of the stack size. -/
theorem toNat_and_mask (x : Word) :
    ∃ q, (x &&& k.mask).toNat = q * k.size.toNat ∧ q * k.size.toNat ≤ x.toNat ∧
      x.toNat < q * k.size.toNat + k.size.toNat := by
  have hpos : 0 < 2 ^ k.log := Nat.two_pow_pos _
  have hround := toNat_and_neg (x := x) k.size_eq
  have hdiv := Nat.div_add_mod' x.toNat (2 ^ k.log)
  have hmod := Nat.mod_lt x.toNat hpos
  refine ⟨x.toNat / 2 ^ k.log, ?_, ?_, ?_⟩
  · rw [mask, hround, k.size_eq]
    omega
  · rw [k.size_eq]
    omega
  · rw [k.size_eq]
    omega

/-- The aligned top, and the two blocks below it. -/
theorem blocks : ∃ q, 4 ≤ q ∧ q * k.size.toNat ≤ k.top.toNat ∧
    k.top.toNat < q * k.size.toNat + k.size.toNat ∧
    k.ptr2.toNat = q * k.size.toNat - 2 * k.size.toNat ∧
    k.ptr3.toNat = q * k.size.toNat - 3 * k.size.toNat := by
  obtain ⟨q, hq, hle, hlt⟩ := k.toNat_and_mask k.top
  have htop := k.le_top
  have hfour : 4 ≤ q := by
    by_contra h
    have hmul : (q + 1) * k.size.toNat ≤ 4 * k.size.toNat :=
      Nat.mul_le_mul_right _ (by omega)
    rw [Nat.add_mul, Nat.one_mul] at hmul
    omega
  have hbase : 4 * k.size.toNat ≤ q * k.size.toNat := Nat.mul_le_mul_right _ hfour
  have hlimit := k.top.isLt
  refine ⟨q, hfour, hle, hlt, ?_, ?_⟩
  · rw [ptr2, buddyAlignCallStackPointer, buddyCallStackSizeMask_eq, buddyCallStackSize_mask,
      BitVec.and_comm]
    bv_omega
  · rw [ptr3, buddyAlignCallStackPointer, buddyCallStackSizeMask_eq, buddyCallStackSize_mask,
      BitVec.and_comm]
    bv_omega

/-- **At every stack pointer the address is that of one of the two blocks.** -/
theorem tlsAddress_eq_or {r : Word} (hr : k.InStack r) :
    tlsAddress k.mask r = k.ptr2 ∨ tlsAddress k.mask r = k.ptr3 := by
  obtain ⟨q, hfour, hle, hlt, h2, h3⟩ := k.blocks
  obtain ⟨p, hp, hple, hplt⟩ := k.toNat_and_mask r
  obtain ⟨-, hlow, hhigh⟩ := hr
  obtain ⟨n, hn, hpage⟩ := k.size_page
  have hbase : 4 * k.size.toNat ≤ q * k.size.toNat := Nat.mul_le_mul_right _ hfour
  have hupper : p ≤ q := by
    have hmul : p * k.size.toNat < (q + 1) * k.size.toNat := by
      rw [Nat.add_mul, Nat.one_mul]
      omega
    exact Nat.le_of_lt_succ (Nat.lt_of_mul_lt_mul_right hmul)
  have hlower : q ≤ p + 1 := by
    have hmul : q * k.size.toNat < (p + 2) * k.size.toNat := by
      rw [Nat.add_mul]
      omega
    exact Nat.le_of_lt_succ (Nat.lt_of_mul_lt_mul_right hmul)
  have haddr : (tlsAddress k.mask r).toNat = p * k.size.toNat - 2 * k.size.toNat := by
    have hcases : p = q ∨ p + 1 = q := by omega
    have hmin : 3 * k.size.toNat ≤ p * k.size.toNat := Nat.mul_le_mul_right _ (by omega)
    have hlimit := k.top.isLt
    rw [tlsAddress, mask] at *
    bv_omega
  rcases (by omega : p = q ∨ p + 1 = q) with rfl | rfl
  · exact Or.inl (BitVec.eq_of_toNat_eq (haddr.trans h2.symm))
  · refine Or.inr (BitVec.eq_of_toNat_eq ?_)
    rw [haddr, h3, Nat.add_mul]
    omega

/-- The two blocks have separate fields, because they are a stack size apart, which is at least a
page. -/
theorem separate_blocks : Separate k.ptr2 k.ptr3 := by
  obtain ⟨q, hfour, hle, hlt, h2, h3⟩ := k.blocks
  obtain ⟨n, hn, hpage⟩ := k.size_page
  have hbase : 4 * k.size.toNat ≤ q * k.size.toNat := Nat.mul_le_mul_right _ hfour
  have hlimit := k.top.isLt
  intro f g
  have hf : f.offset.toNat ≤ 32 := by cases f <;> decide
  have hg : g.offset.toNat ≤ 32 := by cases g <;> decide
  bv_omega

/-- `q` is the buddy of the block `p`. A pair is the two blocks in one of the two orders. -/
def Pair (p q : Word) : Prop := p = k.ptr2 ∧ q = k.ptr3 ∨ p = k.ptr3 ∧ q = k.ptr2

theorem Pair.symm {k : Stack} {p q : Word} (h : k.Pair p q) : k.Pair q p := by
  rcases h with ⟨hp, hq⟩ | ⟨hp, hq⟩
  · exact Or.inr ⟨hq, hp⟩
  · exact Or.inl ⟨hq, hp⟩

theorem Pair.separate {k : Stack} {p q : Word} (h : k.Pair p q) : Separate p q := by
  rcases h with ⟨rfl, rfl⟩ | ⟨rfl, rfl⟩
  · exact k.separate_blocks
  · exact k.separate_blocks.symm

/-- There is only one pair. -/
theorem Pair.eq_or {k : Stack} {p q p' q' : Word} (h : k.Pair p q) (h' : k.Pair p' q') :
    p' = p ∧ q' = q ∨ p' = q ∧ q' = p := by
  rcases h with ⟨rfl, rfl⟩ | ⟨rfl, rfl⟩
  · exact h'
  · exact Or.symm h'

theorem Pair.ne_zero {k : Stack} {p q : Word} (h : k.Pair p q) : p ≠ 0 := by
  obtain ⟨n, hfour, hle, hlt, h2, h3⟩ := k.blocks
  obtain ⟨d, hd, hpage⟩ := k.size_page
  have hbase : 4 * k.size.toNat ≤ n * k.size.toNat := Nat.mul_le_mul_right _ hfour
  rintro rfl
  have hzero : (0 : Word).toNat = 0 := rfl
  rcases h with ⟨hp, -⟩ | ⟨hp, -⟩
  · rw [← hp] at h2
    omega
  · rw [← hp] at h3
    omega

/-- The shadow area is above the pages of the two blocks. -/
theorem not_inPage_of_inShadow {a : Word} (h : k.InShadow a) :
    ¬ InPage k.ptr2 a ∧ ¬ InPage k.ptr3 a := by
  obtain ⟨q, hfour, hle, hlt, h2, h3⟩ := k.blocks
  have hbase : 4 * k.size.toNat ≤ q * k.size.toNat := Nat.mul_le_mul_right _ hfour
  unfold InShadow at h
  unfold InPage
  omega

/-- A field of a block lies in its page. -/
theorem inPage_field (f : Field) : InPage k.ptr2 (k.ptr2 + f.offset) ∧
    InPage k.ptr3 (k.ptr3 + f.offset) := by
  obtain ⟨q, hfour, hle, hlt, h2, h3⟩ := k.blocks
  obtain ⟨n, hn, hpage⟩ := k.size_page
  have hbase : 4 * k.size.toNat ≤ q * k.size.toNat := Nat.mul_le_mul_right _ hfour
  have hlimit := k.top.isLt
  have hf : f.offset.toNat ≤ 32 := by cases f <;> decide
  unfold InPage
  bv_omega

theorem outside_of_inShadow {a p q : Word} (h : k.InShadow a) (hp : k.Pair p q) :
    Outside p a := by
  obtain ⟨h2, h3⟩ := k.not_inPage_of_inShadow h
  rintro f rfl
  rcases hp with ⟨rfl, -⟩ | ⟨rfl, -⟩
  · exact h2 (k.inPage_field f).1
  · exact h3 (k.inPage_field f).2

theorem outside_of_inStack {a p q : Word} (h : k.InStack a) (hp : k.Pair p q) :
    Outside p a := by
  obtain ⟨n, hfour, hle, hlt, h2, h3⟩ := k.blocks
  have hbase : 4 * k.size.toNat ≤ n * k.size.toNat := Nat.mul_le_mul_right _ hfour
  obtain ⟨-, hlow, hhigh⟩ := h
  rintro f rfl
  obtain ⟨hpage2, hpage3⟩ := k.inPage_field f
  unfold InPage at hpage2 hpage3
  rcases hp with ⟨rfl, -⟩ | ⟨rfl, -⟩ <;> omega

/-- The C macro gives every caller the address of a block. -/
theorem exists_pair {caller : Word} (h : k.InStack caller) :
    ∃ buddy, k.Pair (buddyGetTlsInfo k.mask caller) buddy := by
  rw [tlsAddress_eq]
  rcases k.tlsAddress_eq_or h with heq | heq
  · exact ⟨k.ptr3, Or.inl ⟨heq, rfl⟩⟩
  · exact ⟨k.ptr2, Or.inr ⟨heq, rfl⟩⟩

/-! ### Where the code writes -/

theorem toNat_add_mask {r : Word} (hr : k.InStack r) :
    (r + k.mask).toNat = r.toNat - k.size.toNat ∧ k.size.toNat ≤ r.toNat := by
  obtain ⟨-, hlow, hhigh⟩ := hr
  have htop := k.le_top
  have hlimit := k.top.isLt
  unfold mask
  bv_omega

/-- **The prologue stores into the shadow area.** The mask is the size of a call stack with the
sign changed, so the slot is that much lower. -/
theorem inShadow_add_mask {r : Word} (hr : k.InStack r) : k.InShadow (r + k.mask) := by
  obtain ⟨hslot, hge⟩ := k.toNat_add_mask hr
  obtain ⟨-, hlow, hhigh⟩ := hr
  unfold InShadow
  omega

theorem toNat_sub_size {r : Word} (hr : k.InStack r) :
    (r - buddyCallStackSize k.mask).toNat = r.toNat - k.size.toNat := by
  have hslot := (k.toNat_add_mask hr).1
  rw [← hslot, buddyCallStackSize_mask, mask]
  congr 1
  grind

theorem toNat_top_sub_size :
    (k.top - buddyCallStackSize k.mask).toNat = k.top.toNat - k.size.toNat := by
  have htop := k.le_top
  rw [buddyCallStackSize_mask]
  bv_omega

/-- The end of the shadow area is aligned for the vector loop. -/
theorem end_aligned : (k.top - buddyCallStackSize k.mask).toNat % 32 = 0 := by
  obtain ⟨n, hn, hpage⟩ := k.size_page
  have htop := k.top_page
  rw [toNat_top_sub_size]
  omega

/-- **The words updated for the stack pointer `r` are in the shadow area**, those that the
rounding adds included. -/
theorem inShadow_of_inLanes {r a : Word} (hr : k.InStack r)
    (h : InLanes (r - buddyCallStackSize k.mask) (k.top - buddyCallStackSize k.mask) a) :
    k.InShadow a := by
  obtain ⟨n, hn, hpage⟩ := k.size_page
  have htop := k.top_page
  have hle := k.le_top
  unfold InLanes at h
  rw [toNat_sub_size k hr, toNat_top_sub_size] at h
  obtain ⟨-, hlow, hhigh⟩ := hr
  unfold InShadow
  omega

/-- The slot of a stack pointer above `r` is among them. -/
theorem inLanes_slot {r r' : Word} (hr : k.InStack r) (hr' : k.InStack r')
    (hle : r.toNat ≤ r'.toNat) :
    InLanes (r - buddyCallStackSize k.mask) (k.top - buddyCallStackSize k.mask)
      (r' + k.mask) := by
  obtain ⟨hslot, hge⟩ := k.toNat_add_mask hr'
  obtain ⟨n, hn, hpage⟩ := k.size_page
  unfold InLanes
  rw [toNat_sub_size k hr, toNat_top_sub_size, hslot]
  obtain ⟨halign, -, hhigh⟩ := hr'
  omega

theorem slot_injective {r r' : Word} (h : r + k.mask = r' + k.mask) : r = r' := by
  grind

end Stack

/-! ### Runs -/

/-- The memory, and for each stack pointer the return address that the latest prologue there
encoded, while its activation is live. -/
structure State where
  mem : Words
  live : Word → Option Word

/-- The steps of a program: it writes to its call stack, enters and leaves functions, and
has the random value changed. The address `tls` is taken at some stack pointer of the
caller. -/
inductive Step (k : Stack) : State → State → Prop where
  | write {s : State} {a : Word} (ha : k.InStack a) (v : Word) :
      Step k s { s with mem := Function.update s.mem a v }
  | prologue {s : State} {r : Word} (hr : k.InStack r) :
      Step k s
        { mem := prologue k.mask r s.mem, live := Function.update s.live r (some (s.mem r)) }
  | epilogue {s : State} {r ra : Word} (hr : k.InStack r) (hlive : s.live r = some ra) :
      Step k s { s with live := Function.update s.live r none }
  | randomize {s : State} {caller r : Word} {m : Words} (cycles x : Word)
      (hcaller : k.InStack caller) (hr : k.InStack r)
      (hlive : ∀ r', (s.live r').isSome = true → r.toNat ≤ r'.toNat)
      (hrun : auEduUnswRandomize k.mask (buddyGetTlsInfo k.mask caller) cycles x r s.mem = some m) :
      Step k s { s with mem := m }

inductive Reachable (k : Stack) : State → Prop where
  | init (m : Words) (randomVal : Word) :
      Reachable k ⟨buddyInitTlsMetadata k.mask k.top randomVal m, fun _ => none⟩
  | step {s s' : State} (h : Reachable k s) (hstep : Step k s s') : Reachable k s'

/-- The metadata at rest: both blocks hold the same random value and point to each other. -/
structure Metadata (k : Stack) (m : Words) : Prop where
  randomVal : getField m k.ptr2 .randomVal = getField m k.ptr3 .randomVal
  block : ∀ p q, k.Pair p q → getField m p .stackTop = k.top ∧ getField m p .buddyInfo = q ∧
    getField m p .isRandomizing = 0

/-- **The invariant**: the slot of a live activation is its return address plus the random
value. -/
structure Inv (k : Stack) (s : State) : Prop where
  metadata : Metadata k s.mem
  slot : ∀ r ra, s.live r = some ra →
    k.InStack r ∧ s.mem (r + k.mask) = getField s.mem k.ptr2 .randomVal + ra

section Run

variable {k : Stack} {m : Words}

theorem pair_ptr2 (k : Stack) : k.Pair k.ptr2 k.ptr3 := Or.inl ⟨rfl, rfl⟩

theorem pair_ptr3 (k : Stack) : k.Pair k.ptr3 k.ptr2 := Or.inr ⟨rfl, rfl⟩

/-- Both blocks of a pair hold the random value, so it does not matter which one a stack pointer
finds. -/
theorem Metadata.randomVal_eq (h : Metadata k m) {p q : Word} (hp : k.Pair p q) :
    getField m p .randomVal = getField m k.ptr2 .randomVal := by
  rcases hp with ⟨rfl, -⟩ | ⟨rfl, -⟩
  · rfl
  · exact h.randomVal.symm

/-- The random value that the code reads at a stack pointer. -/
theorem Metadata.load_tlsAddress (h : Metadata k m) {r : Word} (hr : k.InStack r) :
    m (tlsAddress k.mask r) = getField m k.ptr2 .randomVal := by
  have hzero : ∀ p, m p = getField m p .randomVal := fun p => by
    simp [getField, Field.offset]
  rw [hzero]
  rcases k.tlsAddress_eq_or hr with heq | heq
  · rw [heq]
  · rw [heq, h.randomVal]

/-- A store outside the two blocks leaves their fields alone. -/
theorem getField_update {p a v : Word} (h : Outside p a) (f : Field) :
    getField (Function.update m a v) p f = getField m p f :=
  Function.update_of_ne (h f).symm _ _

theorem Metadata.update (h : Metadata k m) {a : Word} (v : Word)
    (ha : ∀ p q, k.Pair p q → Outside p a) : Metadata k (Function.update m a v) where
  randomVal := by
    rw [getField_update (ha _ _ (pair_ptr2 k)), getField_update (ha _ _ (pair_ptr3 k))]
    exact h.randomVal
  block p q hp := by
    rw [getField_update (ha p q hp), getField_update (ha p q hp), getField_update (ha p q hp)]
    exact h.block p q hp

theorem metadata_init (k : Stack) (m : Words) (randomVal : Word) :
    Metadata k (buddyInitTlsMetadata k.mask k.top randomVal m) := by
  have hsep := k.separate_blocks
  have hdef : buddyInitTlsMetadata k.mask k.top randomVal m =
      initBlock (initBlock m k.ptr2 k.ptr3 k.top randomVal) k.ptr3 k.ptr2 k.top randomVal := rfl
  obtain ⟨hrandom3, hblock3⟩ := getField_initBlock
    (initBlock m k.ptr2 k.ptr3 k.top randomVal) k.ptr3 k.ptr2 k.top randomVal
  obtain ⟨hrandom2, hblock2⟩ := getField_initBlock m k.ptr2 k.ptr3 k.top randomVal
  rw [hdef]
  refine ⟨?_, ?_⟩
  · rw [getField_initBlock_of_separate hsep, hrandom2, hrandom3]
  · rintro p q (⟨rfl, rfl⟩ | ⟨rfl, rfl⟩)
    · simp only [getField_initBlock_of_separate hsep]
      exact hblock2
    · exact hblock3

/-! ### Randomization -/

/-- With the metadata at rest, the function goes all the way. -/
theorem auEduUnswRandomize_eq (h : Metadata k m) {tls buddy : Word} (hp : k.Pair tls buddy)
    (cycles x r : Word) :
    auEduUnswRandomize k.mask tls cycles x r m =
      (avx2_64_x_4_add (beginRandomize m tls buddy cycles x) (r - buddyCallStackSize k.mask)
        (k.top - buddyCallStackSize k.mask) x).map (setField · tls .isRandomizing 0) := by
  obtain ⟨htop, hbuddy, hrest⟩ := h.block tls buddy hp
  obtain ⟨-, hback, hrest'⟩ := h.block buddy tls hp.symm
  have hne := hp.ne_zero
  have hne' := hp.symm.ne_zero
  simp only [auEduUnswRandomize, isBuddyStackInited, hbuddy, hback, hrest, hrest', htop]
  simp only [bne_self_eq_false, Bool.or_false, beq_self_eq_true, Bool.and_true,
    (bne_iff_ne).mpr hne, (bne_iff_ne).mpr hne', Bool.not_true, Bool.false_eq_true, if_false]
  exact (Option.map_eq_bind (f := fun m => setField m tls .isRandomizing 0)).symm

/-- **Randomization**: it ends, the random value of both blocks and every word of the range
go up by `x`, and the metadata is at rest again. -/
theorem auEduUnswRandomize_spec (h : Metadata k m) {tls buddy r : Word} (hp : k.Pair tls buddy)
    (hr : k.InStack r) (cycles x : Word) :
    ∃ m', auEduUnswRandomize k.mask tls cycles x r m = some m' ∧ Metadata k m' ∧
      getField m' k.ptr2 .randomVal = getField m k.ptr2 .randomVal + x ∧
      ∀ a, (∀ p q, k.Pair p q → Outside p a) →
        m' a = if InLanes (r - buddyCallStackSize k.mask) (k.top - buddyCallStackSize k.mask) a
          then m a + x else m a := by
  obtain ⟨m₁, hrun, hm₁⟩ := avx2_64_x_4_add_spec (beginRandomize m tls buddy cycles x)
    (r - buddyCallStackSize k.mask) x k.end_aligned
  have hsep := hp.separate
  -- The fields of the blocks are not in the range of the update.
  have hfield : ∀ p q f, k.Pair p q →
      getField m₁ p f = getField (beginRandomize m tls buddy cycles x) p f := by
    intro p q f hpair
    unfold getField
    rw [hm₁, if_neg]
    intro hin
    exact k.outside_of_inShadow (k.inShadow_of_inLanes hr hin) hpair f rfl
  obtain ⟨hrandom, htop, hbuddy⟩ := getField_beginRandomize_tls (m := m) cycles x hsep
  obtain ⟨hrandom', htop', hbuddy', hrest'⟩ := getField_beginRandomize_buddy (m := m) cycles x hsep
  have hm := h.block tls buddy hp
  have hm' := h.block buddy tls hp.symm
  have htls : getField (setField m₁ tls .isRandomizing 0) tls .randomVal =
      getField m k.ptr2 .randomVal + x := by
    rw [getField_setField_self, if_neg (by decide), hfield tls buddy _ hp, hrandom,
      h.randomVal_eq hp]
  have hbud : getField (setField m₁ tls .isRandomizing 0) buddy .randomVal =
      getField m k.ptr2 .randomVal + x := by
    rw [getField_setField_of_separate hsep.symm, hfield buddy tls _ hp.symm, hrandom',
      h.randomVal_eq hp.symm]
  have hboth : ∀ p q, k.Pair p q → getField (setField m₁ tls .isRandomizing 0) p .randomVal =
      getField m k.ptr2 .randomVal + x := by
    intro p q hpair
    rcases hp.eq_or hpair with ⟨rfl, -⟩ | ⟨rfl, -⟩
    · exact htls
    · exact hbud
  refine ⟨_, by rw [auEduUnswRandomize_eq h hp, hrun, Option.map_some],
    ⟨(hboth _ _ (pair_ptr2 k)).trans (hboth _ _ (pair_ptr3 k)).symm, fun p q hpair => ?_⟩,
    hboth _ _ (pair_ptr2 k), fun a ha => ?_⟩
  · rcases hp.eq_or hpair with ⟨rfl, rfl⟩ | ⟨rfl, rfl⟩
    · rw [getField_setField_self, getField_setField_self, getField_setField_self,
        if_neg (by decide), if_neg (by decide), if_pos rfl, hfield _ _ _ hp, hfield _ _ _ hp,
        htop, hbuddy]
      exact ⟨hm.1, hm.2.1, rfl⟩
    · simp only [getField_setField_of_separate hsep.symm, hfield _ _ _ hp.symm]
      rw [htop', hbuddy']
      exact ⟨hm'.1, hm'.2.1, hrest'⟩
  · rw [setField_of_outside (ha _ _ hp), hm₁,
      beginRandomize_of_outside cycles x (ha _ _ hp) (ha _ _ hp.symm)]

/-! ### Every step -/

theorem inv_init (k : Stack) (m : Words) (randomVal : Word) :
    Inv k ⟨buddyInitTlsMetadata k.mask k.top randomVal m, fun _ => none⟩ where
  metadata := metadata_init k m randomVal
  slot r ra hlive := absurd hlive (by simp)

/-- The stack and the shadow area are apart, so a slot is no word of the call stack. -/
theorem ne_of_inStack_inShadow {a b : Word} (ha : k.InStack a) (hb : k.InShadow b) : b ≠ a := by
  rintro rfl
  obtain ⟨-, hlow, -⟩ := ha
  obtain ⟨-, hhigh⟩ := hb
  omega

theorem inv_step {s s' : State} (h : Inv k s) (hstep : Step k s s') : Inv k s' := by
  cases hstep with
  | @write a ha v =>
      have hout : ∀ p q, k.Pair p q → Outside p a := fun p q hp => k.outside_of_inStack ha hp
      refine ⟨h.metadata.update v hout, fun r ra hlive => ?_⟩
      obtain ⟨hr, hslot⟩ := h.slot r ra hlive
      refine ⟨hr, ?_⟩
      have hsame : Function.update s.mem a v (r + k.mask) = s.mem (r + k.mask) :=
        Function.update_of_ne (ne_of_inStack_inShadow ha (k.inShadow_add_mask hr)) _ _
      exact hsame.trans (hslot.trans (by rw [getField_update (hout _ _ (pair_ptr2 k))]))
  | @prologue r hr =>
      have hout : ∀ p q, k.Pair p q → Outside p (r + k.mask) :=
        fun p q hp => k.outside_of_inShadow (k.inShadow_add_mask hr) hp
      refine ⟨h.metadata.update _ hout, fun r' ra hlive => ?_⟩
      simp only [prologue, getField_update (hout _ _ (pair_ptr2 k))]
      by_cases hsame : r' = r
      · subst hsame
        have hra : s.mem r' = ra := by simpa using hlive
        rw [Function.update_self, h.metadata.load_tlsAddress hr, hra]
        exact ⟨hr, rfl⟩
      · have hlive' : s.live r' = some ra := by simpa [hsame] using hlive
        obtain ⟨hr', hslot⟩ := h.slot r' ra hlive'
        rw [Function.update_of_ne fun heq => hsame (k.slot_injective heq)]
        exact ⟨hr', hslot⟩
  | @epilogue r ra hr hlive =>
      refine ⟨h.metadata, fun r' ra' hlive' => h.slot r' ra' ?_⟩
      by_cases hsame : r' = r
      · subst hsame
        simp at hlive'
      · simpa [hsame] using hlive'
  | @randomize caller r m cycles x hcaller hr hlive hrun =>
      obtain ⟨buddy, hp⟩ := k.exists_pair hcaller
      obtain ⟨m', hrun', hmeta, hrandom, hwords⟩ :=
        auEduUnswRandomize_spec h.metadata hp hr cycles x
      obtain rfl : m' = m := Option.some.inj (hrun'.symm.trans hrun)
      refine ⟨hmeta, fun r' ra hlive' => ?_⟩
      obtain ⟨hr', hslot⟩ := h.slot r' ra hlive'
      have habove : r.toNat ≤ r'.toNat := hlive r' (Option.isSome_iff_exists.mpr ⟨ra, hlive'⟩)
      have hword := hwords (r' + k.mask)
        fun p q hpair => k.outside_of_inShadow (k.inShadow_add_mask hr') hpair
      rw [if_pos (k.inLanes_slot hr hr' habove), hslot] at hword
      refine ⟨hr', hword.trans ?_⟩
      rw [hrandom]
      grind

theorem reachable_inv {s : State} (h : Reachable k s) : Inv k s := by
  induction h with
  | init m randomVal => exact inv_init k m randomVal
  | step h hstep ih => exact inv_step ih hstep

/-- An epilogue recovers the return address of the live activation at its stack pointer. -/
theorem Inv.epilogue_eq {s : State} (h : Inv k s) {r ra : Word} (hlive : s.live r = some ra) :
    epilogue k.mask r s.mem = ra := by
  obtain ⟨hr, hslot⟩ := h.slot r ra hlive
  rw [epilogue, h.metadata.load_tlsAddress hr, hslot]
  grind

/-- **Decoding across re-randomization.** In every state of every run: the code uses one of
the two initialised blocks at every stack pointer, as the C macro does, and both hold the
same random value; every live activation decodes to the return address encoded for it; a
randomization ends; and the prologue and the vector update write to the shadow area only,
which contains no word of the pages of the two blocks. -/
theorem buddy_decoding {s : State} (h : Reachable k s) :
    (∀ r, k.InStack r → buddyGetTlsInfo k.mask r = tlsAddress k.mask r ∧
      (tlsAddress k.mask r = k.ptr2 ∨ tlsAddress k.mask r = k.ptr3)) ∧
    getField s.mem k.ptr2 .randomVal = getField s.mem k.ptr3 .randomVal ∧
    (∀ r ra, s.live r = some ra → epilogue k.mask r s.mem = ra) ∧
    (∀ caller r cycles x, k.InStack caller → k.InStack r →
      (auEduUnswRandomize k.mask (buddyGetTlsInfo k.mask caller) cycles x r s.mem).isSome = true) ∧
    (∀ r, k.InStack r → k.InShadow (r + k.mask)) ∧
    (∀ m r x m' a, k.InStack r → avx2_64_x_4_add m (r - buddyCallStackSize k.mask)
      (k.top - buddyCallStackSize k.mask) x = some m' → m' a ≠ m a → k.InShadow a) ∧
    ∀ a, k.InShadow a → ¬ Stack.InPage k.ptr2 a ∧ ¬ Stack.InPage k.ptr3 a := by
  have hinv := reachable_inv h
  refine ⟨fun r hr => ⟨tlsAddress_eq k.mask r, k.tlsAddress_eq_or hr⟩, hinv.metadata.randomVal,
    fun r ra hlive => hinv.epilogue_eq hlive, ?_, fun r hr => k.inShadow_add_mask hr, ?_,
    fun a ha => k.not_inPage_of_inShadow ha⟩
  · intro caller r cycles x hcaller hr
    obtain ⟨buddy, hp⟩ := k.exists_pair hcaller
    obtain ⟨m', hrun, -⟩ := auEduUnswRandomize_spec hinv.metadata hp hr cycles x
    rw [hrun]
    rfl
  · intro m r x m' a hr hrun hne
    obtain ⟨m₁, hrun₁, hm₁⟩ :=
      avx2_64_x_4_add_spec m (r - buddyCallStackSize k.mask) x k.end_aligned
    obtain rfl : m₁ = m' := Option.some.inj (hrun₁.symm.trans hrun)
    by_cases hin : InLanes (r - buddyCallStackSize k.mask) (k.top - buddyCallStackSize k.mask) a
    · exact k.inShadow_of_inLanes hr hin
    · exact absurd ((hm₁ a).trans (if_neg hin)) hne

end Run

/-- An 8KB call stack whose top is at 32KB, small enough to be evaluated. -/
def smallStack : Stack where
  size := 8192
  log := 13
  top := 32768
  size_eq := rfl
  le_log := by decide
  top_page := rfl
  le_top := by decide

theorem inStack_smallStack : smallStack.InStack 32760 := ⟨by decide, by decide, by decide⟩

/-- A call, and a randomization during it. -/
theorem buddy_decoding_call :
    ∃ s, Reachable smallStack s ∧ s.live 32760 = some 0x401000 ∧
      getField s.mem smallStack.ptr2 .randomVal = getField s.mem smallStack.ptr3 .randomVal ∧
      epilogue smallStack.mask 32760 s.mem = 0x401000 := by
  have hwritten := (Reachable.init (k := smallStack) (fun _ => 0) 77).step
    (Step.write inStack_smallStack 0x401000)
  have hentered := hwritten.step (Step.prologue inStack_smallStack)
  have hpair : smallStack.Pair (buddyGetTlsInfo smallStack.mask 32760) smallStack.ptr2 :=
    Or.inr ⟨by decide +kernel, rfl⟩
  obtain ⟨m, hrun, -⟩ := auEduUnswRandomize_spec (reachable_inv hentered).metadata hpair
    inStack_smallStack 5 99
  have hlive : ∀ r', ((Function.update (fun _ : Word => (none : Option Word)) 32760
      (some 0x401000)) r').isSome = true → (32760 : Word).toNat ≤ r'.toNat := by
    intro r' h
    by_cases hr' : r' = 32760
    · exact Nat.le_of_eq (congrArg BitVec.toNat hr'.symm)
    · rw [Function.update_of_ne hr'] at h
      exact absurd h (by decide)
  have hrandomized := hentered.step (Step.randomize 5 99 inStack_smallStack inStack_smallStack
    (fun r' h => hlive r' (by simpa using h)) hrun)
  obtain ⟨-, hrandom, hdecode, -⟩ := buddy_decoding hrandomized
  refine ⟨_, hrandomized, ?_, hrandom, hdecode _ _ ?_⟩ <;> simp

end FlashStack.Buddy
