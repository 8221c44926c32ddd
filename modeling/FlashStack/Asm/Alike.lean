/-
Machines that agree above the red zone.

`Alike t r0 top m m'` compares the machine of an undisturbed run, `m`, with the one of a run
that was interrupted by signal handlers, `m'`. Outside the area of the handlers, which is
what lies more than 128 bytes below `top`, the call stack holds the same bytes and every
slot the same word, although the region may be elsewhere. Nothing is said of memory that is
neither the call stack of the thread nor its region: the inserted sequences touch nothing
else.

* `Alike.act`: an action of a handler keeps the relation;
* `Alike.load_slot`, `Alike.load_stack`: a load sees the same word on both machines;
* `Alike.store_slot`, `Alike.store_stack`: a store keeps the relation.

The addresses of a slot differ on the two machines once the region has moved, so slots are
compared by the stack pointer that they belong to. Both machines have the thread at its
shadow stack in the sense of the runtime (`ThreadAt`), and the lemmas on actions there do
the work for `Alike.act`: the handler runs on `m'` alone.
-/

import FlashStack.Runtime.Reentrancy

namespace FlashStack.Asm

open Lib.Memory Lib.Program FlashStack.Runtime

/-! ### The area of a handler -/

/-- The distance of an address from the lowest address of the call stack. Frames are compared by
it, so that nothing depends on where the stack is or on wrapping addresses. -/
def stackOffset (r0 x : Word) : Nat := (x - callStackBase r0).toNat

/-- The part of the call stack that has slots: 8 MB below the stack pointer of the initialisation,
and 1.5 MB above. -/
def OnStack (r0 x : Word) : Prop := InRange (callStackBase r0) metadataOffsetOnShadowStack x

/-- More than 128 bytes below `rsp`, which is where the kernel puts the frame of a handler, and
where the handler has its own. -/
def BelowRedZone (r0 rsp x : Word) : Prop := stackOffset r0 x + 128 < stackOffset r0 rsp

/-- The frames of a handler that interrupts at `rsp` lie below the red zone, and what
the handler writes is there or not on the call stack. -/
def StaysBelow (r0 rsp : Word) : Action → Prop
  | .prologue rsp' _ => BelowRedZone r0 rsp rsp'
  | .epilogue rsp' => BelowRedZone r0 rsp rsp'
  | .write a n _ => ∀ x, InRange a n x → OnStack r0 x → BelowRedZone r0 rsp x
  | .rerandomize _ _ _ => True

theorem BelowRedZone.mono {r0 rsp top x : Word} (h : BelowRedZone r0 rsp x)
    (hle : stackOffset r0 rsp ≤ stackOffset r0 top) : BelowRedZone r0 top x :=
  lt_of_lt_of_le h hle

theorem StaysBelow.mono {r0 rsp top : Word} {a : Action} (h : StaysBelow r0 rsp a)
    (hle : stackOffset r0 rsp ≤ stackOffset r0 top) : StaysBelow r0 top a := by
  cases a with
  | prologue _ _ => exact BelowRedZone.mono h hle
  | epilogue _ => exact BelowRedZone.mono h hle
  | write _ _ _ => exact fun x hx hon => (h x hx hon).mono hle
  | rerandomize _ _ _ => trivial

/-! ### Words outside the area -/

/-- A stack pointer outside the area, with its slot. Only of these are the slots compared; a
handler may have used the others. -/
structure SlotAbove (r0 top rsp : Word) : Prop where
  hasSlot : HasSlot r0 rsp
  above : ¬ BelowRedZone r0 top rsp

/-- A word of the call stack outside the area, mapped by the program. All of its bytes are
outside, also where it reaches down to the border. -/
structure WordAbove (r0 top : Word) (m : Machine) (a : Word) : Prop where
  owned : OwnedBy m.mem .other a 8
  above : ∀ x, InRange a 8 x → OnStack r0 x ∧ ¬ BelowRedZone r0 top x

/-- The word at a stack pointer outside the area. -/
theorem SlotAbove.wordAbove {r0 top rsp : Word} {m : Machine} (h : SlotAbove r0 top rsp)
    (hr0 : r0.toNat % 8 = 0) (howned : OwnedBy m.mem .other rsp 8) :
    WordAbove r0 top m rsp where
  owned := howned
  above x hx := by
    have hoff := h.hasSlot.isSlotOffset hr0
    have habove := h.above
    unfold IsSlotOffset metadataOffsetOnShadowStack defBuddyCallStackSize at hoff
    unfold OnStack BelowRedZone stackOffset InRange metadataOffsetOnShadowStack
      defBuddyCallStackSize callStackBase at *
    constructor <;> bv_omega

theorem WordAbove.storeN {r0 top a : Word} {m : Machine} (h : WordAbove r0 top m a) (b : Word)
    (v : Nat) : WordAbove r0 top (m.withMem (storeN m.mem b 8 v)) a where
  owned := ownedBy_storeN.mpr h.owned
  above := h.above

/-! ### The relation -/

/-- The recorded slots are those outside the area: those that do not lie below the red zone. -/
def Covers (r0 top : Word) (slots : Slots) : Prop :=
  ∀ rsp, HasSlot r0 rsp → (slots rsp = none ↔ BelowRedZone r0 top rsp)

/-- The call stack outside the area holds the same bytes, of what the program has mapped there.
Inside the area it may hold anything. -/
def SameStack (r0 top : Word) (m m' : Machine) : Prop :=
  ∀ x b, OnStack r0 x → ¬ BelowRedZone r0 top x →
    (m.mem x = some ⟨.other, b⟩ ↔ m'.mem x = some ⟨.other, b⟩)

structure Alike (t : Tid) (r0 top : Word) (m m' : Machine) : Prop where
  slots : ∃ slots ss ss', Covers r0 top slots ∧ ThreadAt m t r0 ss slots ∧
    ThreadAt m' t r0 ss' slots
  stack : SameStack r0 top m m'

/-- A thread may forget what it has recorded. The words stay in the slots, but nothing is promised
of them. -/
theorem threadAt_mono {m : Machine} {t : Tid} {r0 ss : Word} {slots slots' : Slots}
    (h : ThreadAt m t r0 ss slots') (hsaved : Saved slots slots') : ThreadAt m t r0 ss slots := by
  obtain ⟨md, hstack, hdesc⟩ := h
  exact ⟨md, ⟨hstack.anchored, hstack.aligned, fun rsp v hv =>
    hstack.holds rsp v (hsaved rsp v hv)⟩, hdesc⟩

/-- What the slots outside the area hold, read off the memory. It serves to state that they stay.
-/
noncomputable def slotsAbove (r0 top ss : Word) (m : Machine) : Slots :=
  open Classical in
  fun rsp => if SlotAbove r0 top rsp then load64 m.mem (slotAddr (initDiff ss r0) rsp) else none

section

variable {t : Tid} {r0 top rsp ss : Word} {m m' : Machine} {slots : Slots}

/-- A thread may record all its slots outside the area, with whatever they hold. -/
theorem threadAt_slotsAbove (top : Word) (h : ThreadAt m t r0 ss slots) :
    Covers r0 top (slotsAbove r0 top ss m) ∧ ThreadAt m t r0 ss (slotsAbove r0 top ss m) := by
  obtain ⟨md, hstack, hdesc⟩ := h
  obtain ⟨content, hm⟩ := hstack.anchored
  constructor
  · intro rsp hslot
    have hmapped := (hstack.slot_owned hslot).mapped
    rw [hm.gs] at hmapped
    obtain ⟨v, hv⟩ := load64_isSome hmapped
    by_cases habove : SlotAbove r0 top rsp
    · simp [Asm.slotsAbove, habove, hv, habove.above]
    · have hbelow : BelowRedZone r0 top rsp := by
        by_contra hno
        exact habove ⟨hslot, hno⟩
      simp [Asm.slotsAbove, habove, hbelow]
  · refine ⟨md, ⟨hstack.anchored, hstack.aligned, fun rsp v hv => ?_⟩, hdesc⟩
    by_cases habove : SlotAbove r0 top rsp
    · simp only [Asm.slotsAbove, if_pos habove] at hv
      exact ⟨habove.hasSlot, hv⟩
    · simp only [Asm.slotsAbove, if_neg habove] at hv
      cases hv

theorem Alike.refl (h : ThreadAt m t r0 ss slots) (top : Word) : Alike t r0 top m m := by
  obtain ⟨hcovers, hthread⟩ := threadAt_slotsAbove top h
  exact ⟨⟨_, ss, ss, hcovers, hthread, hthread⟩, fun _ _ _ _ => Iff.rfl⟩

theorem Alike.aligned (h : Alike t r0 top m m') : r0.toNat % 8 = 0 := by
  obtain ⟨slots, ss, -, -, ⟨md, hstack, -⟩, -⟩ := h.slots
  exact hstack.aligned

/-! ### Handlers -/

/-- Whatever does not change the memory of others keeps the call stack. -/
theorem SameStack.of_othersKept (h : SameStack r0 top m m') {m'' : Machine}
    (hkept : OthersKept t m'.mem m''.mem) : SameStack r0 top m m'' :=
  fun x b hon habove => (h x b hon habove).trans (hkept x ⟨.other, b⟩ (by simp))

/-- **An action of a handler** keeps the machines alike. It runs on the second machine only, and
stays below the red zone or moves the region. -/
theorem Alike.act (h : Alike t r0 top m m') {a : Action} (ha : a.Allowed r0 m')
    (hdone : a.Completes t m') (hbelow : StaysBelow r0 top a) :
    ∃ m'', a.step t m' = .ok m'' ∧ Alike t r0 top m m'' := by
  obtain ⟨slots, ss, ss', hcovers, hthread, hthread'⟩ := h.slots
  obtain ⟨m'', hstep, hthread'', -, -, hkept⟩ := Action.step_thread hthread' ha hdone
  have hspares : a.Spares slots := by
    cases a with
    | prologue rsp' v => exact (hcovers rsp' ha).mpr hbelow
    | epilogue _ => trivial
    | write _ _ _ => trivial
    | rerandomize _ _ _ => trivial
  have hsaved : Saved slots (a.record slots) := Saved.record (fun _ _ hv => hv) hspares
  refine ⟨m'', hstep, ⟨slots, ss, _, hcovers, hthread, threadAt_mono hthread'' hsaved⟩, ?_⟩
  cases a with
  | prologue _ _ => exact h.stack.of_othersKept (hkept rfl)
  | epilogue _ => exact h.stack.of_othersKept (hkept rfl)
  | rerandomize _ _ _ => exact h.stack.of_othersKept (hkept rfl)
  | write addr n v =>
      obtain rfl : m'.withMem (storeN m'.mem addr n v) = m'' := Except.ok.inj hstep
      intro x b hon habove
      have hout : ¬ InRange addr n x := fun hin => habove (hbelow x hin hon)
      rw [Machine.withMem_mem, storeN_outside hout]
      exact h.stack x b hon habove

/-! ### Loads and stores -/

/-- The word in a slot, on both machines. -/
theorem Alike.load_slot (h : Alike t r0 top m m') (hslot : SlotAbove r0 top rsp) :
    ∃ v, load64 m.mem (slotAddr (m.threads t).gs rsp) = some v ∧
      load64 m'.mem (slotAddr (m'.threads t).gs rsp) = some v := by
  obtain ⟨slots, ss, ss', hcovers, ⟨md, hstack, -⟩, ⟨md', hstack', -⟩⟩ := h.slots
  obtain ⟨content, hm⟩ := hstack.anchored
  obtain ⟨content', hm'⟩ := hstack'.anchored
  have hsome : slots rsp ≠ none := fun hnone =>
    hslot.above ((hcovers rsp hslot.hasSlot).mp hnone)
  obtain ⟨v, hv⟩ := Option.ne_none_iff_exists'.mp hsome
  rw [hm.gs, hm'.gs]
  exact ⟨v, (hstack.holds rsp v hv).2, (hstack'.holds rsp v hv).2⟩

theorem Alike.epilogueLoad (h : Alike t r0 top m m') (hslot : SlotAbove r0 top rsp) :
    ∃ v, epilogueLoad m t rsp = .ok v ∧ epilogueLoad m' t rsp = .ok v := by
  obtain ⟨v, hv, hv'⟩ := h.load_slot hslot
  obtain ⟨slots, ss, ss', -, ⟨md, hstack, -⟩, ⟨md', hstack', -⟩⟩ := h.slots
  exact ⟨v, Machine.load_owned (hstack.slot_owned hslot.hasSlot) hv,
    Machine.load_owned (hstack'.slot_owned hslot.hasSlot) hv'⟩

/-- The cells of a word outside the area. -/
theorem Alike.cell_eq (h : Alike t r0 top m m') {a x : Word} (ha : WordAbove r0 top m a)
    (hx : InRange a 8 x) : m'.mem x = m.mem x ∧ ownerOf m.mem x = some .other := by
  obtain ⟨hon, habove⟩ := ha.above x hx
  have howner := (ownedBy_iff (by decide)).mp ha.owned x hx
  obtain ⟨⟨o, b⟩, hc, rfl⟩ := ownerOf_eq_some.mp howner
  exact ⟨by rw [hc, (h.stack x b hon habove).mp hc], howner⟩

theorem Alike.wordAbove (h : Alike t r0 top m m') {a : Word} (ha : WordAbove r0 top m a) :
    WordAbove r0 top m' a where
  owned := by
    rw [ownedBy_iff (by decide)]
    intro x hx
    obtain ⟨hcell, howner⟩ := h.cell_eq ha hx
    rw [ownerOf, hcell]
    exact howner
  above := ha.above

theorem Alike.load_stack (h : Alike t r0 top m m') {a : Word} (ha : WordAbove r0 top m a) :
    ∃ v, load64 m.mem a = some v ∧ load64 m'.mem a = some v := by
  obtain ⟨v, hv⟩ := load64_isSome ha.owned.mapped
  refine ⟨v, hv, ?_⟩
  rw [← hv]
  apply load64_congr
  intro k hk
  rw [byteOf, byteOf, (h.cell_eq ha (inRange_add hk (by decide))).1]

/-- A store to a slot goes to the slot of the region, wherever that is. -/
theorem Alike.store_slot (h : Alike t r0 top m m') (hslot : SlotAbove r0 top rsp) (v : Word) :
    Mapped m.mem (slotAddr (m.threads t).gs rsp) 8 ∧
      Mapped m'.mem (slotAddr (m'.threads t).gs rsp) 8 ∧
      Alike t r0 top
        (m.withMem (storeN m.mem (slotAddr (m.threads t).gs rsp) 8 v.toNat))
        (m'.withMem (storeN m'.mem (slotAddr (m'.threads t).gs rsp) 8 v.toNat)) := by
  obtain ⟨slots, ss, ss', hcovers, ⟨md, hstack, hdesc⟩, ⟨md', hstack', hdesc'⟩⟩ := h.slots
  have hown := hstack.slot_owned hslot.hasSlot
  have hown' := hstack'.slot_owned hslot.hasSlot
  obtain ⟨m₁, hstore, hstack₁, hstep₁⟩ := hstack.prologue hslot.hasSlot v
  obtain ⟨m₁', hstore', hstack₁', hstep₁'⟩ := hstack'.prologue hslot.hasSlot v
  obtain rfl := Except.ok.inj ((Machine.store_owned hown).symm.trans hstore)
  obtain rfl := Except.ok.inj ((Machine.store_owned hown').symm.trans hstore')
  have hcovers' : Covers r0 top (Function.update slots rsp (some v)) := by
    intro rsp' hslot'
    by_cases heq : rsp' = rsp
    · subst heq
      simp [hslot.above]
    · rw [Function.update_of_ne heq]
      exact hcovers rsp' hslot'
  refine ⟨hown.mapped, hown'.mapped,
    ⟨_, ss, ss', hcovers', ⟨md, hstack₁, hdesc⟩, ⟨md', hstack₁', hdesc'⟩⟩, ?_⟩
  intro x b hon habove
  have hx := hstep₁.others x ⟨.other, b⟩ (by simp)
  exact hx.symm.trans ((h.stack x b hon habove).trans (hstep₁'.others x ⟨.other, b⟩ (by simp)))

/-- A store to the call stack. -/
theorem Alike.store_stack (h : Alike t r0 top m m') {a : Word} (ha : WordAbove r0 top m a)
    (v : Nat) :
    Alike t r0 top (m.withMem (storeN m.mem a 8 v)) (m'.withMem (storeN m'.mem a 8 v)) := by
  obtain ⟨slots, ss, ss', hcovers, hthread, hthread'⟩ := h.slots
  refine ⟨⟨slots, ss, ss', hcovers, ThreadAt.store_other hthread ha.owned v,
    ThreadAt.store_other hthread' (h.wordAbove ha).owned v⟩, ?_⟩
  intro x b hon habove
  by_cases hx : InRange a 8 x
  · have hcell := (h.cell_eq ha hx).1
    simp only [Machine.withMem_mem, storeN, if_pos hx, hcell]
  · rw [Machine.withMem_mem, Machine.withMem_mem, storeN_outside hx, storeN_outside hx]
    exact h.stack x b hon habove

end

end FlashStack.Asm
