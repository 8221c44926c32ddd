/-
The regions of a thread in the fs/gs mode, and how the stores and system calls of `fsgs.c`
leave them.

The metadata page and the shadow stack are two mappings, and the metadata says where both
are. The lemmas here are the specifications of the small steps from which the functions of
the source are made: a store to a field, a fresh mapping, a change of protection, the update
of the shadow stack.

* `Holds`: a metadata page and a shadow stack that are mapped and apart, with their
  contents;
* `Describes`: the fields that say where the two are hold the right values. The other fields
  may hold anything, so that a change of the clock or of the random value is no change here;
* `getMemoryAtRandom_spec`, `Holds.mapZero`: a fresh mapping leaves both alone;
* `Holds.changeValues`: a value change ends, and which words of the shadow stack it changes.

The call stack is what `pthread_attr_getstack` answers, with the correction that the source
makes to a small one; `InStack` is its highest 8 MB, which is the part that has slots.
`slotOffset` is where the slot of a stack pointer is in the region, relative to its base, so
that a move changes no offset.
-/

import FlashStack.FsGs.Runtime

namespace FlashStack.FsGs

open Lib.Memory Lib.Pages

/-! ### Fields -/

theorem Field.offset_injective {f g : Field} (h : f.offset = g.offset) : f = g := by
  cases f <;> cases g <;> first | rfl | exact absurd h (by decide)

/-- The fields lie in the page. -/
theorem inRange_field (p : Word) (f : Field) : InRange p realMetaDataSize (p + f.offset) := by
  have hoff : p + f.offset - p = f.offset := by grind
  unfold InRange
  rw [hoff]
  cases f <;> decide

namespace Machine

variable (m : Machine) (p v : Word) (f g : Field)

@[simp] theorem set_gs : (m.set p f v).gs = m.gs := rfl
@[simp] theorem set_inited : (m.set p f v).inited = m.inited := rfl
@[simp] theorem set_saved : (m.set p f v).saved = m.saved := rfl
@[simp] theorem set_prot : (m.set p f v).mem.prot = m.mem.prot := rfl
@[simp] theorem mprotect_gs (n : Nat) (q : Prot) : (m.mprotect p n q).gs = m.gs := rfl
@[simp] theorem mprotect_get (n : Nat) (q : Prot) (p' : Word) :
    (m.mprotect p n q).get p' f = m.get p' f := rfl
@[simp] theorem munmap_get (n : Nat) (p' : Word) : (m.munmap p n).get p' f = m.get p' f := rfl
@[simp] theorem setGs_get (p' : Word) : (m.setGs p).get p' f = m.get p' f := rfl

@[simp] theorem get_set : (m.set p f v).get p = Function.update (m.get p) f v := by
  funext g
  unfold get set
  by_cases h : g = f
  · subst h
    rw [Function.update_self]
    exact m.mem.set_self _ _
  · rw [Function.update_of_ne h]
    refine m.mem.set_of_ne fun heq => h (Field.offset_injective ?_)
    simpa using heq

theorem set_word {x : Word} (h : ¬ InRange p realMetaDataSize x) :
    (m.set p f v).mem.word x = m.mem.word x :=
  m.mem.set_of_ne fun heq => h (heq ▸ inRange_field p f)

/-- A store to one page leaves the fields of another page alone. -/
theorem get_set_of_noOverlap {p q : Word}
    (h : NoOverlap p realMetaDataSize q realMetaDataSize) :
    (m.set p f v).get q g = m.get q g :=
  m.set_word p v f fun hin => h _ hin (inRange_field q g)

end Machine

/-! ### The call stack -/

/-- The call stack of a thread that calls `do_init_shadow_stack` at `r0`; the rest is what
`pthread_attr_getstack` answers. -/
structure Stack where
  stackLow : Word
  stackSize : Word
  r0 : Word
  r0_aligned : r0.toNat % 8 = 0
  r0_high : r0.toNat < (stackHigh stackLow stackSize).toNat

namespace Stack

variable (k : Stack)

def top : Word := stackHigh k.stackLow k.stackSize

/-- The stack pointers: the aligned words of the 8 MB below the top. A larger main stack has
deeper ones, which have no slots. -/
def InStack (r : Word) : Prop :=
  r.toNat % 8 = 0 ∧ k.top.toNat ≤ r.toNat + defBuddyCallStackSize ∧ r.toNat < k.top.toNat

/-- The offset of the slot for `r` in the shadow stack. It does not change when the shadow stack
moves. -/
def slotOffset (r : Word) : Word := callStackSize + (r - k.r0)

/-- Above `r0` the shadow stack has room for 1 MB. Slots of stack pointers further up would be
behind its end. -/
def HasSlot (r : Word) : Prop := r.toNat < k.r0.toNat + 2 ^ 20

theorem toNat_slotOffset {r : Word} (hr : k.InStack r) (hslot : k.HasSlot r) :
    (k.slotOffset r).toNat + k.r0.toNat = defBuddyCallStackSize + r.toNat := by
  obtain ⟨-, hlow, -⟩ := hr
  have htop : k.r0.toNat < k.top.toNat := k.r0_high
  unfold HasSlot at hslot
  unfold slotOffset callStackSize
  unfold defBuddyCallStackSize at *
  bv_omega

theorem slotOffset_lt {r : Word} (hr : k.InStack r) (hslot : k.HasSlot r) :
    (k.slotOffset r).toNat < realShadowStackSize := by
  have hoff := k.toNat_slotOffset hr hslot
  unfold HasSlot at hslot
  unfold realShadowStackSize
  omega

theorem slotOffset_injective {r r' : Word} (h : k.slotOffset r = k.slotOffset r') : r = r' := by
  unfold slotOffset at h
  grind

end Stack

/-! ### The regions -/

/-- What the fields that describe the regions of thread `k` hold; `none` for the others. -/
def place (k : Stack) (p ss : Word) : Field → Option Word
  | .selfAddr => some p
  | .diff => some (ss + callStackSize - k.r0)
  | .shadowStack => some ss
  | .state => some flashStackInited
  | .shadowStackTop => some (ss + callStackSize)
  | .callStackTop => some k.top
  | _ => none

/-- The metadata `md` describes the regions of thread `k`: every field that `place` determines has
that value. The others, such as the random value, may be anything. -/
def Describes (k : Stack) (md : Field → Word) (p ss : Word) : Prop :=
  ∀ f v, place k p ss f = some v → md f = v

theorem Describes.update {k : Stack} {md : Field → Word} {p ss : Word} (h : Describes k md p ss)
    {f : Field} (hf : place k p ss f = none) (v : Word) :
    Describes k (Function.update md f v) p ss := by
  intro g w hg
  have hne : g ≠ f := by
    rintro rfl
    exact nomatch hf.symm.trans hg
  rw [Function.update_of_ne hne]
  exact h g w hg

/-- The page `p` holds the fields `md`, and the shadow stack at `ss` the words `slots` by their
offsets. -/
structure Holds (m : Machine) (p ss : Word) (md : Field → Word) (slots : Word → Word) :
    Prop where
  inited : m.inited = true
  saved : m.saved = ss
  aligned : ss.toNat % 4096 = 0
  low : ss.toNat + realShadowStackSize ≤ 2 ^ 47
  page : IsMapped m.mem p realMetaDataSize
  region : Protected m.mem ss realShadowStackSize .readWrite
  apart : NoOverlap p realMetaDataSize ss realShadowStackSize
  fields : ∀ f, m.get p f = md f
  words : ∀ off : Word, off.toNat < realShadowStackSize → m.mem.word (ss + off) = slots off

/-- An offset of a range. -/
theorem inRange_offset {a off : Word} {n : Nat} (h : off.toNat < n) : InRange a n (a + off) := by
  unfold InRange
  have hoff : a + off - a = off := by grind
  rwa [hoff]

/-- Where `mmap` puts a mapping of `n` bytes: at the beginning of a page, in user space, and where
nothing is mapped. -/
structure Fresh (m : Machine) (a : Word) (n : Nat) : Prop where
  aligned : a.toNat % 4096 = 0
  low : a.toNat + n ≤ 2 ^ 47
  isFree : IsFree m.mem a n

/-- The machine after a fresh mapping. -/
def Machine.mapZero (m : Machine) (a : Word) (n : Nat) : Machine :=
  { m with mem := m.mem.mapZero a n }

theorem Fresh.noOverlap {m : Machine} {a b : Word} {n j : Nat} (h : Fresh m a n)
    (hb : IsMapped m.mem b j) : NoOverlap a n b j :=
  noOverlap_of_free (by have hlow := h.low; omega) h.isFree hb

/-- What is free stays free where no memory is taken. -/
theorem Fresh.of_isFree {m m' : Machine} {a : Word} {n : Nat} (h : Fresh m a n)
    (hfree : ∀ x, m.mem.prot x = .none → m'.mem.prot x = .none) : Fresh m' a n :=
  ⟨h.aligned, h.low, fun i hi => hfree _ (h.isFree i hi)⟩

theorem Machine.mapZero_free {m m' : Machine} {a : Word} {n : Nat}
    (hfree : ∀ x, m.mem.prot x = .none → m'.mem.prot x = .none) :
    ∀ x, (m.mapZero a n).mem.prot x = .none → (m'.mapZero a n).mem.prot x = .none := by
  intro x hx
  by_cases hin : InRange a n x
  · rw [show (m.mapZero a n).mem.prot x = .readWrite from if_pos hin] at hx
    cases hx
  · rw [show (m.mapZero a n).mem.prot x = m.mem.prot x from if_neg hin] at hx
    exact (if_neg hin).trans (hfree x hx)

theorem Fresh.ne_mapFailed {m : Machine} {a : Word} {n : Nat} (h : Fresh m a n) :
    a ≠ mapFailed := by
  rintro rfl
  exact absurd h.aligned (by decide)

/-- **What `get_memory_at_random` returns is fresh**, whatever the kernel answers. The iterations
that fail leave memory as it was. -/
theorem getMemoryAtRandom_spec {env : Env} {call size : Nat} {a : Word} {m m' : Machine}
    (fuel : Nat) : ∀ i, getMemoryAtRandom env call size fuel i m = some (a, m') →
      Fresh m a size ∧ m' = m.mapZero a size := by
  induction fuel with
  | zero => exact fun i h => nomatch h
  | succ fuel ih =>
      intro i h
      rw [getMemoryAtRandom] at h
      generalize env.mmap call i (mmapHint (env.rdrandAt call i) i) = answer at h
      cases answer with
      | none => exact ih (i + 1) h
      | some b =>
          rw [Machine.mmap] at h
          by_cases hfresh : b.toNat % 4096 = 0 ∧ b.toNat + size ≤ 2 ^ 47 ∧ IsFree m.mem b size
          · rw [if_pos hfresh] at h
            obtain ⟨rfl, rfl⟩ := Prod.mk.inj (Option.some.inj h)
            exact ⟨⟨hfresh.1, hfresh.2.1, hfresh.2.2⟩, rfl⟩
          · rw [if_neg hfresh] at h
            exact ih (i + 1) h

/-- A kernel that has room at the first attempt. -/
theorem getMemoryAtRandom_of_fresh {env : Env} {call size : Nat} {a : Word} {m : Machine}
    (hanswer : ∀ hint, env.mmap call 0 hint = some a) (hfresh : Fresh m a size) (fuel : Nat) :
    getMemoryAtRandom env call size (fuel + 1) 0 m = some (a, m.mapZero a size) := by
  rw [getMemoryAtRandom, hanswer, Machine.mmap,
    if_pos ⟨hfresh.aligned, hfresh.low, hfresh.isFree⟩]
  rfl

namespace Holds

variable {m : Machine} {p ss : Word} {md : Field → Word} {slots : Word → Word}

/-- The words of the shadow stack are not in the page. -/
theorem not_inRange_page (h : Holds m p ss md slots) {off : Word}
    (hoff : off.toNat < realShadowStackSize) : ¬ InRange p realMetaDataSize (ss + off) :=
  fun hin => h.apart _ hin (inRange_offset hoff)

theorem set (h : Holds m p ss md slots) (f : Field) (v : Word) :
    Holds (m.set p f v) p ss (Function.update md f v) slots :=
  { h with
    fields := fun g => by rw [Machine.get_set, funext h.fields]
    words := fun off hoff => (m.set_word p v f (h.not_inRange_page hoff)).trans (h.words off hoff) }

/-- `mprotect` of the metadata page. -/
theorem mprotect (h : Holds m p ss md slots) {q : Prot} (hq : q ≠ .none) :
    Holds (m.mprotect p realMetaDataSize q) p ss md slots :=
  { h with
    page := (m.mem.protected_protect (p := q)).mapped hq
    region := m.mem.protected_protect_of_noOverlap h.apart.symm h.region }

/-- A fresh mapping. -/
theorem mapZero (h : Holds m p ss md slots) {a : Word} {n : Nat} (ha : Fresh m a n) :
    Holds (m.mapZero a n) p ss md slots :=
  have hpage := ha.noOverlap h.page
  have hregion := ha.noOverlap (h.region.mapped (by decide))
  { h with
    page := fun x hx => by
      have hout : ¬ InRange a n x := fun hin => hpage x hin hx
      exact (if_neg hout).trans_ne (h.page x hx)
    region := m.mem.protected_mapZero_of_noOverlap hregion.symm h.region
    fields := fun f =>
      (m.mem.mapZero_word_outside fun hin => hpage _ hin (inRange_field p f)).trans (h.fields f)
    words := fun off hoff =>
      (m.mem.mapZero_word_outside fun hin => hregion _ hin (inRange_offset hoff)).trans
        (h.words off hoff) }

end Holds

/-! ### The value change -/

/-- What a value change by `delta` at `rsp` makes of the words of the shadow stack: it covers
the offsets from `8 MB - (call_stack_top - rsp)`, rounded down, to 8 MB. -/
def shift (k : Stack) (rsp delta : Word) (slots : Word → Word) : Word → Word := fun off =>
  if Buddy.InLanes (callStackSize - (k.top - rsp)) callStackSize off then slots off + delta
  else slots off

/-- Ranges of an aligned region, by their offsets. -/
theorem inLanes_add {ss p e off : Word} (hss : ss.toNat % 4096 = 0) (hlow : ss.toNat ≤ 2 ^ 47)
    (hp : p.toNat ≤ 2 ^ 47) (he : e.toNat ≤ 2 ^ 47) (hoff : off.toNat ≤ 2 ^ 47) :
    Buddy.InLanes (ss + p) (ss + e) (ss + off) ↔ Buddy.InLanes p e off := by
  have hp' : (ss + p).toNat = ss.toNat + p.toNat := by bv_omega
  have he' : (ss + e).toNat = ss.toNat + e.toNat := by bv_omega
  have hoff' : (ss + off).toNat = ss.toNat + off.toNat := by bv_omega
  unfold Buddy.InLanes
  rw [hp', he', hoff']
  omega

namespace Holds

variable {k : Stack} {m : Machine} {p ss : Word} {md : Field → Word} {slots : Word → Word}

/-- Where the covered interval begins. -/
theorem toNat_covered {rsp : Word} (hrsp : k.InStack rsp) :
    (callStackSize - (k.top - rsp)).toNat + k.top.toNat = defBuddyCallStackSize + rsp.toNat := by
  obtain ⟨-, hlow, hhigh⟩ := hrsp
  unfold callStackSize
  unfold defBuddyCallStackSize at *
  bv_omega

theorem covered_lt {rsp : Word} (hrsp : k.InStack rsp) :
    (callStackSize - (k.top - rsp)).toNat < defBuddyCallStackSize := by
  have hcovered := toNat_covered hrsp
  have hhigh := hrsp.2.2
  omega

/-- The update stays in the shadow stack. -/
theorem inRange_of_inLanes (h : Holds m p ss md slots) {rsp a : Word} (hrsp : k.InStack rsp)
    (ha : Buddy.InLanes (ss + (callStackSize - (k.top - rsp))) (ss + callStackSize) a) :
    InRange ss realShadowStackSize a := by
  have hcovered := covered_lt hrsp
  have haligned := h.aligned
  have hlow := h.low
  have hsize : callStackSize.toNat = defBuddyCallStackSize := by decide
  unfold Buddy.InLanes at ha
  unfold InRange
  unfold realShadowStackSize defBuddyCallStackSize at *
  generalize callStackSize - (k.top - rsp) = c at *
  generalize callStackSize = e at *
  bv_omega

/-- **The value change** ends; the random value and the covered words go up by the same value. -/
theorem changeValues (h : Holds m p ss md slots) (hk : Describes k md p ss) (env : Env)
    {rsp : Word} (hrsp : k.InStack rsp) :
    ∃ m', changeValues env rsp p m = some m' ∧ m'.gs = m.gs ∧ m'.mem.prot = m.mem.prot ∧
      Holds m' p ss (Function.update md .r (md .r + env.rdrand))
        (shift k rsp env.rdrand slots) := by
  have hset := h.set .r (md .r + env.rdrand)
  have hk' := hk.update (f := .r) rfl (md .r + env.rdrand)
  have htop : (ss + callStackSize).toNat % 32 = 0 := by
    have haligned := h.aligned
    have hlow := h.low
    unfold callStackSize
    unfold realShadowStackSize defBuddyCallStackSize at *
    bv_omega
  have hptr : ss + callStackSize - (k.top - rsp) = ss + (callStackSize - (k.top - rsp)) := by grind
  obtain ⟨word, hrun, hword⟩ := Buddy.avx2_64_x_4_add_spec
    (m.set p .r (md .r + env.rdrand)).mem.word (ss + (callStackSize - (k.top - rsp)))
    env.rdrand htop
  refine ⟨{ m with mem := { m.mem with word := word } }, ?_, rfl, rfl,
    { hset with fields := ?_, words := ?_ }⟩
  · rw [FsGs.changeValues, h.fields, hset.fields .shadowStackTop, hset.fields .callStackTop,
      hk' .shadowStackTop _ rfl, hk' .callStackTop _ rfl, hptr, avx2_64_x_4_add, hrun]
    rfl
  · intro f
    refine Eq.trans ?_ (hset.fields f)
    refine (hword _).trans (if_neg fun hin => ?_)
    exact h.apart _ (inRange_field p f) (h.inRange_of_inLanes hrsp hin)
  · intro off hoff
    refine (hword _).trans ?_
    have hlanes := @inLanes_add ss (callStackSize - (k.top - rsp)) callStackSize off
      h.aligned (by have hlow := h.low; omega)
      (Nat.le_of_lt (Nat.lt_of_lt_of_le (covered_lt hrsp) (by decide))) (by decide)
      (by
        unfold realShadowStackSize defBuddyCallStackSize at hoff
        omega)
    rw [hset.words off hoff]
    unfold shift
    simp only [hlanes]

end Holds

end FlashStack.FsGs
