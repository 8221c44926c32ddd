/-
Word-addressed memory with page protections.

An address space gives the aligned 64-bit words their contents and every address the
protection of its page. It is the model for code that accesses aligned words only and
changes the rights of its pages, where `Lib.Memory` is the one for bytes. Ranges wrap modulo
`2^64`, as there. Contents outlive a mapping in this model, which does no harm: what is not
mapped is not read, and a fresh mapping holds zeros.

* `mapZero`, `unmap`, `protect`, `remap`: what the memory system calls do to a range, each
  with its pointwise description, and when a protection of another range survives it;
* `noOverlap_of_free`: fresh memory has nothing in common with mapped memory;
* `KeptOutside`: what a sequence of operations leaves alone. Each operation has a rule that
  adds it to the sequence, if its range is in the given set.

A frame condition of a function is then a chain of these rules, along its text. That the set
contains a freshly mapped range, which nobody knew before, is `within_of_isFree`: it was
free when the function began, and nothing outside the set has changed since.
-/

import FlashStack.Lib.Memory
import Mathlib.Logic.Function.Basic

namespace Lib.Pages

open Lib.Memory

inductive Prot where
  | none
  | read
  | readWrite
deriving DecidableEq, Repr

/-- An address space; an address of no mapping has the protection `none`. -/
structure Paged where
  word : Word → Word
  prot : Word → Prot

/-- Every address of the range belongs to a mapping, whatever its protection. -/
def IsMapped (m : Paged) (a : Word) (n : Nat) : Prop := ∀ x, InRange a n x → m.prot x ≠ .none

/-- Every page of the range has the protection `p`. -/
def Protected (m : Paged) (a : Word) (n : Nat) (p : Prot) : Prop :=
  ∀ x, InRange a n x → m.prot x = p

/-- The two ranges have no address in common. It is symmetric, and does not ask for alignment. -/
def NoOverlap (a : Word) (n : Nat) (b : Word) (k : Nat) : Prop :=
  ∀ x, InRange a n x → ¬ InRange b k x

/-- No address of the range belongs to a mapping, so that the kernel may map it. -/
def IsFree (m : Paged) (a : Word) (n : Nat) : Prop :=
  ∀ k < n, m.prot (a + BitVec.ofNat 64 k) = .none

instance (m : Paged) (a : Word) (n : Nat) : Decidable (IsFree m a n) := Nat.decidableBallLT _ _

theorem NoOverlap.symm {a b : Word} {n k : Nat} (h : NoOverlap a n b k) : NoOverlap b k a n :=
  fun x hb ha => h x ha hb

/-- Distinct words of disjoint ranges. -/
theorem NoOverlap.ne {a b x y : Word} {n k : Nat} (h : NoOverlap a n b k) (hx : InRange a n x)
    (hy : InRange b k y) : x ≠ y := by
  rintro rfl
  exact h x hx hy

theorem Protected.mapped {m : Paged} {a : Word} {n : Nat} {p : Prot} (h : Protected m a n p)
    (hp : p ≠ .none) : IsMapped m a n := fun x hx => by rwa [h x hx]

/-- **Fresh memory** has nothing in common with mapped memory. -/
theorem noOverlap_of_free {m : Paged} {a b : Word} {n k : Nat} (hn : n ≤ 2 ^ 64)
    (hfree : IsFree m a n) (hmapped : IsMapped m b k) : NoOverlap a n b k := by
  intro x ha hb
  have hnone := (forall_offset_iff (P := fun x => m.prot x = .none) hn).mp hfree x ha
  exact hmapped x hb hnone

namespace Paged

/-- Store one word. Its page need not be writable, as far as this operation is concerned. -/
def set (m : Paged) (a v : Word) : Paged := { m with word := Function.update m.word a v }

/-- A fresh mapping of `n` bytes at `a`: zeros, readable and writable. -/
def mapZero (m : Paged) (a : Word) (n : Nat) : Paged where
  word x := if InRange a n x then 0 else m.word x
  prot x := if InRange a n x then .readWrite else m.prot x

def unmap (m : Paged) (a : Word) (n : Nat) : Paged :=
  { m with prot := fun x => if InRange a n x then .none else m.prot x }

/-- `mprotect`: the protection of a range is set, also where nothing was mapped before. Callers
protect what they have mapped. -/
def protect (m : Paged) (a : Word) (n : Nat) (p : Prot) : Paged :=
  { m with prot := fun x => if InRange a n x then p else m.prot x }

/-- Move the mapping of `n` bytes at `old` to `new`: the contents and the protection go along, and
the old range is free. -/
def remap (m : Paged) (old new : Word) (n : Nat) : Paged where
  word x := if InRange new n x then m.word (old + (x - new)) else m.word x
  prot x :=
    if InRange new n x then m.prot (old + (x - new))
    else if InRange old n x then .none
    else m.prot x

variable (m : Paged) {a b old new x y v : Word} {n k : Nat} {p q : Prot}

@[simp] theorem set_prot (a v : Word) : (m.set a v).prot = m.prot := rfl
@[simp] theorem set_self (a v : Word) : (m.set a v).word a = v := Function.update_self _ _ _
@[simp] theorem unmap_word (a : Word) (n : Nat) : (m.unmap a n).word = m.word := rfl
@[simp] theorem protect_word (a : Word) (n : Nat) (p : Prot) :
    (m.protect a n p).word = m.word := rfl

theorem set_of_ne (h : x ≠ a) : (m.set a v).word x = m.word x := Function.update_of_ne h _ _

theorem set_comm (h : a ≠ b) (v w : Word) : (m.set a v).set b w = (m.set b w).set a v := by
  unfold set
  rw [Function.update_comm h]

theorem mapZero_word_outside (h : ¬ InRange a n x) : (m.mapZero a n).word x = m.word x := if_neg h

theorem protected_protect : Protected (m.protect a n p) a n p := fun _ hx => if_pos hx

theorem protected_mapZero : Protected (m.mapZero a n) a n .readWrite := fun _ hx => if_pos hx

/-- A system call on one range leaves a range that is apart from it alone. -/
theorem protected_protect_of_noOverlap (hapart : NoOverlap b k a n) (h : Protected m b k q) :
    Protected (m.protect a n p) b k q :=
  fun x hx => (if_neg (hapart x hx)).trans (h x hx)

theorem protected_mapZero_of_noOverlap (hapart : NoOverlap b k a n) (h : Protected m b k q) :
    Protected (m.mapZero a n) b k q :=
  fun x hx => (if_neg (hapart x hx)).trans (h x hx)

theorem protected_unmap_of_noOverlap (hapart : NoOverlap b k a n) (h : Protected m b k q) :
    Protected (m.unmap a n) b k q :=
  fun x hx => (if_neg (hapart x hx)).trans (h x hx)

/-- Offset `x - new` of the old range. -/
theorem inRange_shift (h : InRange new n x) : InRange old n (old + (x - new)) := by
  unfold InRange at *
  have hshift : old + (x - new) - old = x - new := by grind
  rwa [hshift]

theorem protected_remap (h : Protected m old n q) : Protected (m.remap old new n) new n q :=
  fun _ hx => (if_pos hx).trans (h _ (inRange_shift hx))

theorem remap_word_inside (h : InRange new n x) :
    (m.remap old new n).word x = m.word (old + (x - new)) := if_pos h

theorem remap_word_outside (h : ¬ InRange new n x) : (m.remap old new n).word x = m.word x :=
  if_neg h

end Paged

/-! ### Frames -/

/-- Every address of the range belongs to `B`. Ranges may wrap around. -/
def Within (B : Word → Prop) (a : Word) (n : Nat) : Prop := ∀ x, InRange a n x → B x

/-- Outside `B` the contents and the protections are as before. This is the frame of whatever
happened in between. -/
def KeptOutside (B : Word → Prop) (m m' : Paged) : Prop :=
  ∀ x, ¬ B x → m'.word x = m.word x ∧ m'.prot x = m.prot x

namespace KeptOutside

variable {B : Word → Prop} {m m' m'' : Paged} {a new v : Word} {n : Nat} {p : Prot}

theorem refl (B : Word → Prop) (m : Paged) : KeptOutside B m m := fun _ _ => ⟨rfl, rfl⟩

theorem trans (h : KeptOutside B m m') (h' : KeptOutside B m' m'') : KeptOutside B m m'' :=
  fun x hx => ⟨(h' x hx).1.trans (h x hx).1, (h' x hx).2.trans (h x hx).2⟩

theorem set (h : KeptOutside B m m') (ha : B a) : KeptOutside B m (m'.set a v) := by
  refine h.trans fun x hx => ⟨m'.set_of_ne ?_, rfl⟩
  rintro rfl
  exact hx ha

theorem mapZero (h : KeptOutside B m m') (ha : Within B a n) : KeptOutside B m (m'.mapZero a n) :=
  h.trans fun x hx => ⟨if_neg fun hin => hx (ha x hin), if_neg fun hin => hx (ha x hin)⟩

theorem unmap (h : KeptOutside B m m') (ha : Within B a n) : KeptOutside B m (m'.unmap a n) :=
  h.trans fun x hx => ⟨rfl, if_neg fun hin => hx (ha x hin)⟩

theorem protect (h : KeptOutside B m m') (ha : Within B a n) :
    KeptOutside B m (m'.protect a n p) :=
  h.trans fun x hx => ⟨rfl, if_neg fun hin => hx (ha x hin)⟩

theorem remap (h : KeptOutside B m m') (ha : Within B a n) (hnew : Within B new n) :
    KeptOutside B m (m'.remap a new n) :=
  h.trans fun x hx => ⟨if_neg fun hin => hx (hnew x hin),
    (if_neg fun hin => hx (hnew x hin)).trans (if_neg fun hin => hx (ha x hin))⟩

/-- What is free after operations in `B`, which has the free memory, is in `B`. -/
theorem within_of_isFree (h : KeptOutside B m m') (hB : ∀ x, m.prot x = .none → B x)
    (hn : n ≤ 2 ^ 64) (hfree : IsFree m' a n) : Within B a n := by
  intro x hx
  by_contra hout
  have hnone : m'.prot x = .none :=
    (forall_offset_iff (P := fun x => m'.prot x = .none) hn).mp hfree x hx
  exact hout (hB x ((h x hout).2.symm.trans hnone))

end KeptOutside

end Lib.Pages
