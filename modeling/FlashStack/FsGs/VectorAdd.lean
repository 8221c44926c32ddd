/-
The copy of `avx2_64_x_4_add` in `fsgs.c`, and the update word by word that both copies are.

The two copies are the same text in two files, and so the definition here is the other one
by name. What the function is for is the scalar loop: add a value to a word, go on to the
next. The vector loop does four words at a time and starts at the start rounded down to 32
bytes, so it does more words than asked for, and the scalar loop here starts there too.

* `addLanes_eq_scalarAdd`: one iteration of the vector loop is four scalar updates;
* `avxLoop_eq_scalarAdd`: the vector loop is the scalar loop over the same interval, by
  induction on the iterations that are left;
* `avx2_64_x_4_add_refines`: the function ends, its result is that of the scalar loop, and
  which words change, for every start and every aligned end.

The interval may be empty, when the start is not below the end; the function then changes
nothing. An end that is not aligned to 32 bytes is not considered, as no caller passes one:
the top of a shadow stack is aligned to a page.
-/

import FlashStack.Buddy.VectorAdd

namespace FlashStack.FsGs

open Lib.Memory Lib.Align Buddy

/-- `avx2_64_x_4_add` of `fsgs.c`; its text is that of the copy in `simd_rand.c`, and so is the
definition. -/
def avx2_64_x_4_add (m : Words) (ssPtr ssEnd x : Word) : Option Words :=
  Buddy.avx2_64_x_4_add m ssPtr ssEnd x

/-! ### The scalar loop -/

/-- Add `x` to one word. -/
def addWord (m : Words) (a x : Word) : Words := Function.update m a (m a + x)

/-- Add `x` to the `n` words from `p` on, one after the other. This is what the vector loop is
for. -/
def scalarAdd (x : Word) : Nat → Word → Words → Words
  | 0, _, m => m
  | n + 1, p, m => scalarAdd x n (p + 8) (addWord m p x)

/-- The number of words from `p`, rounded down to 32 bytes, to `e`. -/
def wordCount (p e : Word) : Nat := (e.toNat - (p &&& -32).toNat) / 8

theorem addWord_of_ne {m : Words} {a b x : Word} (h : b ≠ a) : addWord m a x b = m b :=
  Function.update_of_ne h _ _

/-- **One iteration** of the vector loop is four scalar updates: no lane sees the store of
another one. -/
theorem addLanes_eq_scalarAdd (m : Words) (p x : Word) : addLanes m p x = scalarAdd x 4 p m := by
  have h8 : p + 8 ≠ p := by bv_omega
  have h16 : p + 8 + 8 ≠ p ∧ p + 8 + 8 ≠ p + 8 := by constructor <;> bv_omega
  have h24 : p + 8 + 8 + 8 ≠ p ∧ p + 8 + 8 + 8 ≠ p + 8 ∧ p + 8 + 8 + 8 ≠ p + 8 + 8 := by
    refine ⟨?_, ?_, ?_⟩ <;> bv_omega
  have hp16 : p + 16 = p + 8 + 8 := by grind
  have hp24 : p + 24 = p + 8 + 8 + 8 := by grind
  have hsecond : m (p + 8) = addWord m p x (p + 8) := (addWord_of_ne h8).symm
  have hthird : m (p + 8 + 8) = addWord (addWord m p x) (p + 8) x (p + 8 + 8) := by
    rw [addWord_of_ne h16.2, addWord_of_ne h16.1]
  have hfourth : m (p + 8 + 8 + 8) =
      addWord (addWord (addWord m p x) (p + 8) x) (p + 8 + 8) x (p + 8 + 8 + 8) := by
    rw [addWord_of_ne h24.2.2, addWord_of_ne h24.2.1, addWord_of_ne h24.1]
  rw [addLanes, hp16, hp24, hsecond, hthird, hfourth]
  rfl

theorem scalarAdd_add (x : Word) (n k : Nat) (p : Word) (m : Words) :
    scalarAdd x (n + k) p m = scalarAdd x k (p + BitVec.ofNat 64 (8 * n)) (scalarAdd x n p m) := by
  induction n generalizing p m with
  | zero => simp [scalarAdd]
  | succ n ih =>
      have hnext : p + 8 + BitVec.ofNat 64 (8 * n) = p + BitVec.ofNat 64 (8 * (n + 1)) := by
        bv_omega
      rw [Nat.add_right_comm, scalarAdd, ih, hnext, scalarAdd]

/-- **The vector loop** up to an aligned end ends, as the scalar loop. -/
theorem avxLoop_eq_scalarAdd {e x : Word} (he : e.toNat % 32 = 0) (fuel : Nat) :
    ∀ (p : Word) (m : Words), p.toNat % 32 = 0 → 0 < fuel → e.toNat < p.toNat + 32 * fuel →
      avxLoop e x fuel p m = some (scalarAdd x ((e.toNat - p.toNat) / 8) p m) := by
  induction fuel with
  | zero => exact fun p m hp hpos => absurd hpos (Nat.lt_irrefl 0)
  | succ fuel ih =>
      intro p m hp _ hfuel
      rw [avxLoop]
      by_cases hlt : p < e
      · have hlt' : p.toNat < e.toNat := hlt
        have hnext : (p + 32).toNat = p.toNat + 32 := by
          have hend := e.isLt
          bv_omega
        have hcount : (e.toNat - p.toNat) / 8 = 4 + (e.toNat - (p + 32).toNat) / 8 := by omega
        rw [if_pos hlt, ih (p + 32) (addLanes m p x) (by omega) (by omega) (by omega), hcount,
          scalarAdd_add, addLanes_eq_scalarAdd]
        rfl
      · have hge : e.toNat ≤ p.toNat := Nat.le_of_not_lt hlt
        rw [if_neg hlt, Nat.sub_eq_zero_of_le hge]
        rfl

theorem toNat_round (p : Word) : (p &&& -32).toNat = p.toNat - p.toNat % 32 :=
  toNat_and_neg (m := 32) (k := 5) rfl

theorem avx2_64_x_4_add_eq_scalarAdd (m : Words) (p x : Word) {e : Word} (he : e.toNat % 32 = 0) :
    Buddy.avx2_64_x_4_add m p e x = some (scalarAdd x (wordCount p e) (p &&& -32) m) := by
  have hround := toNat_round p
  exact avxLoop_eq_scalarAdd he _ _ m (by omega) (by omega) (by omega)

/-- **Both copies are the scalar update.** Up to a 32-byte-aligned end they end; the aligned
words from the rounded start to the end go up by `x` once, and every other word is as it was:
none at the end or above it, and of those below an aligned start at most the last three. -/
theorem avx2_64_x_4_add_refines (m : Words) (p x : Word) {e : Word} (he : e.toNat % 32 = 0) :
    ∃ m', Buddy.avx2_64_x_4_add m p e x = some m' ∧ avx2_64_x_4_add m p e x = some m' ∧
      m' = scalarAdd x (wordCount p e) (p &&& -32) m ∧
      (∀ a, a.toNat % 8 = 0 → (p &&& -32).toNat ≤ a.toNat → a.toNat < e.toNat →
        m' a = m a + x) ∧
      (∀ a, ¬ (a.toNat % 8 = 0 ∧ (p &&& -32).toNat ≤ a.toNat ∧ a.toNat < e.toNat) →
        m' a = m a) ∧
      (∀ a, e.toNat ≤ a.toNat → m' a = m a) ∧
      (p.toNat % 8 = 0 → ∀ a, a.toNat < p.toNat → m' a ≠ m a →
        a = p - 8 ∨ a = p - 16 ∨ a = p - 24) := by
  obtain ⟨m', hrun, hm'⟩ := avx2_64_x_4_add_spec m p x he
  have hscalar := Option.some.inj (hrun.symm.trans (avx2_64_x_4_add_eq_scalarAdd m p x he))
  have hround := toNat_round p
  have hin : ∀ a, InLanes p e a ↔
      a.toNat % 8 = 0 ∧ (p &&& -32).toNat ≤ a.toNat ∧ a.toNat < e.toNat := by
    intro a
    rw [hround]
    rfl
  have hother : ∀ a, ¬ InLanes p e a → m' a = m a := fun a hno => by rw [hm', if_neg hno]
  refine ⟨m', hrun, hrun, hscalar, ?_, ?_, ?_, ?_⟩
  · intro a haligned hstart hend
    rw [hm', if_pos ((hin a).mpr ⟨haligned, hstart, hend⟩)]
  · exact fun a hno => hother a fun hyes => hno ((hin a).mp hyes)
  · exact fun a hge => hother a fun hyes => Nat.not_lt_of_le hge ((hin a).mp hyes).2.2
  · intro haligned a hbelow hne
    have hyes : InLanes p e a := by
      by_contra hno
      exact hne (hother a hno)
    obtain ⟨ha, hstart, -⟩ := (hin a).mp hyes
    bv_omega

/-- From a start that is not 32-byte aligned. -/
theorem avx2_64_x_4_add_refines_small :
    ∃ m', Buddy.avx2_64_x_4_add (fun a => a) 72 128 5 = some m' ∧
      avx2_64_x_4_add (fun a => a) 72 128 5 = some m' ∧ m' 64 = 69 ∧ m' 56 = 56 ∧ m' 128 = 128 := by
  obtain ⟨m', hrun, hcopy, -, hadd, hsame, -⟩ :=
    avx2_64_x_4_add_refines (fun a => a) 72 5 (e := 128) (by decide)
  exact ⟨m', hrun, hcopy, hadd 64 (by decide) (by decide) (by decide),
    hsame 56 (by decide), hsame 128 (by decide)⟩

end FlashStack.FsGs
