/-
Decoding across value re-randomization in the fs/gs mode.

A value change adds to the random value in the metadata, and to the words of the shadow
stack between the slot of the stack pointer and the top. The top is the slot of the stack
pointer of the initialisation, not the end of the region: the frames above it, which the
callers of the initialisation have, are not updated.

* `inLanes_slot`: of the slots of the activations above the current stack pointer, the
  update covers those below the stack pointer of the initialisation;
* `slot_call_iff`: which slots a call keeps in step with the random value;
* `fsgs_decoding`: in runs without a live activation above that stack pointer, whatever is
  live decodes.

`Covered` is the condition on the steps of such a run: a prologue has a slot in the region,
a move keeps the shadow stack, and a value change finds no live activation above the stack
pointer of the initialisation, unless it adds zero. The invariant `Inv` is that of the run,
with the word of each live slot; a step keeps it (`inv_step`). `firstFunction_not_decoded`
is a function that called the initialisation and has its return address decoded with a
random value that its slot has not seen.
-/

import FlashStack.FsGs.Run

namespace FlashStack.FsGs

open Lib.Memory Lib.Pages

/-- The slot of `r` holds `ra` in step with the random value: the sum of the two with
`SPA_ENABLE_GS_MSR`, and else `ra` itself. -/
structure SlotHolds (k : Stack) (msr : Bool) (random : Word) (slots : Word → Word)
    (r ra : Word) : Prop where
  inStack : k.InStack r
  hasSlot : k.HasSlot r
  word : slots (k.slotOffset r) = randomAfter msr random ra

/-- `Kept`, with the slots in the shadow stack, and no value change while an activation at or
above `r0` is live. -/
def Covered (k : Stack) (msr : Bool) (s : State) : Action → Prop
  | .prologue r => k.HasSlot r
  | .rerandomize env fuel rsp => Kept s (.rerandomize env fuel rsp) ∧
      (msr = true → elapsed env (s.metadata .cpuCycles) = true →
        env.rdrand = 0 ∨ ∀ r, (s.live r).isSome = true → r.toNat < k.r0.toNat)
  | _ => True

section Slots

variable {k : Stack} {m : Machine} {p ss rsp r ra : Word} {md : Field → Word}
  {slots slots' : Word → Word} {msr : Bool}

/-- **The two coordinate systems.** The update counts from `call_stack_top`, the slots from
`r0`: what lies at or above `r0` is not covered. -/
theorem inLanes_slot (hrsp : k.InStack rsp) (hr : k.InStack r) (hslot : k.HasSlot r)
    (habove : rsp.toNat ≤ r.toNat) :
    Buddy.InLanes (callStackSize - (k.top - rsp)) callStackSize (k.slotOffset r) ↔
      r.toNat < k.r0.toNat := by
  have hcovered := Holds.toNat_covered hrsp
  have hoff := k.toNat_slotOffset hr hslot
  have haligned := k.r0_aligned
  have hhigh : k.r0.toNat < k.top.toNat := k.r0_high
  have hsize : callStackSize.toNat = defBuddyCallStackSize := by decide
  obtain ⟨hr8, -, -⟩ := hr
  unfold Buddy.InLanes
  unfold defBuddyCallStackSize at *
  omega

theorem randomAfter_add (msr : Bool) (random delta ra : Word) :
    randomAfter msr (randomAfter msr delta random) ra =
      if msr then randomAfter msr random ra + delta else ra := by
  cases msr with
  | false => rfl
  | true =>
      simp only [randomAfter, if_true]
      grind

/-- **A call keeps a slot in step** exactly when the slot is covered or nothing changes. -/
theorem slot_call_iff {s : State} {env : Env} {fuel : Nat} {random : Word}
    (hholds : SlotHolds k msr (md .r) slots r ra) (hrsp : k.InStack rsp)
    (habove : rsp.toNat ≤ r.toNat)
    (heffect : Effect k msr s md slots random slots' (.rerandomize env fuel rsp)) :
    SlotHolds k msr random slots' r ra ↔
      (msr = true → elapsed env (md .cpuCycles) = true →
        env.rdrand = 0 ∨ r.toNat < k.r0.toNat) := by
  have hword : SlotHolds k msr random slots' r ra ↔
      slots' (k.slotOffset r) = randomAfter msr random ra :=
    ⟨SlotHolds.word, fun h => ⟨hholds.inStack, hholds.hasSlot, h⟩⟩
  rw [hword]
  cases helapsed : elapsed env (md .cpuCycles) with
  | false =>
      obtain ⟨rfl, rfl⟩ : random = md .r ∧ slots' = slots := by
        simpa [Effect, helapsed] using heffect
      exact ⟨fun _ _ h => absurd h Bool.false_ne_true, fun _ => hholds.word⟩
  | true =>
      obtain ⟨rfl, rfl⟩ : random = randomAfter msr env.rdrand (md .r) ∧
          slots' = slotsAfter k msr rsp env.rdrand slots := by
        simpa [Effect, helapsed] using heffect
      rw [randomAfter_add]
      cases msr with
      | false => exact ⟨fun _ h => absurd h Bool.false_ne_true, fun _ => hholds.word⟩
      | true =>
          have hlanes := inLanes_slot hrsp hholds.inStack hholds.hasSlot habove
          simp only [slotsAfter, shift, if_true, hholds.word, hlanes, forall_const]
          by_cases hlow : r.toNat < k.r0.toNat
          · simp [hlow]
          · simp only [hlow, if_false, or_false]
            constructor
            · intro heq
              grind
            · intro hzero
              rw [hzero]
              grind

/-- A slot in step decodes, and only such a slot does: the epilogue gives `ra` exactly if the slot
is the encoding of it. -/
theorem AtRest.epilogue_eq_iff (h : AtRest k m p ss md slots) (hr : k.InStack r)
    (hslot : k.HasSlot r) :
    epilogue msr r m = ra ↔ SlotHolds k msr (md .r) slots r ra := by
  have hload : m.mem.word (r + m.get m.gs .diff) = slots (k.slotOffset r) := by
    rw [h.add_diff, h.words _ (k.slotOffset_lt hr hslot)]
  have hword : SlotHolds k msr (md .r) slots r ra ↔
      slots (k.slotOffset r) = randomAfter msr (md .r) ra :=
    ⟨SlotHolds.word, fun hw => ⟨hr, hslot, hw⟩⟩
  have hrandom : m.get m.gs .r = md .r := by rw [h.gs, h.fields]
  rw [hword, epilogue, hload, hrandom]
  cases msr with
  | false => rfl
  | true =>
      simp only [randomAfter, if_true]
      constructor
      · intro heq
        grind
      · intro heq
        grind

end Slots

/-! ### Runs -/

/-- **The invariant**: a thread at rest, with every live slot in step. Slots of no live activation
may hold anything. -/
structure Inv (k : Stack) (msr : Bool) (s : State) (p ss : Word) (md : Field → Word)
    (slots : Word → Word) : Prop where
  rest : AtRest k s.machine p ss md slots
  slot : ∀ r ra, s.live r = some ra → SlotHolds k msr (md .r) slots r ra

section Run

variable {k : Stack} {msr : Bool} {s s' : State} {p ss : Word} {md : Field → Word}
  {slots : Word → Word}

theorem Inv.kept (h : Inv k msr s p ss md slots) {a : Action} (hcond : Covered k msr s a)
    (hstep : Step k msr s a s') : Kept s a := by
  cases hstep with
  | @prologue r hr =>
      rw [Kept, State.metadata, h.rest.add_diff, h.rest.gs]
      exact h.rest.not_inRange_page (k.slotOffset_lt hr hcond)
  | rerandomize => exact hcond.1
  | elsewhere | leave | ratio => trivial

theorem inv_step (h : Inv k msr s p ss md slots) {a : Action} (hcond : Covered k msr s a)
    (hstep : Step k msr s a s') : ∃ p' ss' md' slots', Inv k msr s' p' ss' md' slots' := by
  obtain ⟨p', ss', md', slots', hrest, heffect⟩ := atRest_step h.rest (h.kept hcond hstep) hstep
  refine ⟨p', ss', md', slots', hrest, ?_⟩
  cases hstep with
  | elsewhere =>
      obtain ⟨hr', rfl⟩ := heffect
      rw [hr']
      exact h.slot
  | ratio =>
      obtain ⟨hr', rfl⟩ := heffect
      rw [hr']
      exact h.slot
  | leave r =>
      obtain ⟨hr', rfl⟩ := heffect
      intro r' ra hlive
      by_cases hsame : r' = r
      · subst hsame
        simp at hlive
      · rw [hr']
        exact h.slot r' ra (by simpa [hsame] using hlive)
  | @prologue r hr =>
      obtain ⟨hr', rfl⟩ := heffect
      intro r' ra hlive
      by_cases hsame : r' = r
      · subst hsame
        have hra : s.machine.mem.word r' = ra := by simpa using hlive
        refine ⟨hr, hcond, ?_⟩
        rw [Function.update_self, hr', hra]
      · obtain ⟨hin, hslot, hword⟩ := h.slot r' ra (by simpa [hsame] using hlive)
        refine ⟨hin, hslot, ?_⟩
        rw [Function.update_of_ne fun heq => hsame (k.slotOffset_injective heq), hr', hword]
  | rerandomize hrsp hlive hrun =>
      intro r ra hr
      have hsome : (s.live r).isSome = true := Option.isSome_iff_exists.mpr ⟨ra, hr⟩
      refine (slot_call_iff (h.slot r ra hr) hrsp (hlive r hsome) heffect).mpr ?_
      intro hmsr helapsed
      rw [← h.rest.metadata_eq] at helapsed
      exact (hcond.2 hmsr helapsed).imp_right fun hlow => hlow r hsome

theorem reachable_inv (h : Reachable k msr (Covered k msr) s) :
    ∃ p ss md slots, Inv k msr s p ss md slots := by
  induction h with
  | init hinited hrun =>
      obtain ⟨p, ss, md, slots, hrest, -⟩ := atRest_init hinited hrun
      exact ⟨p, ss, md, slots, hrest, fun r ra hlive => nomatch hlive⟩
  | step hs hcond hstep ih =>
      obtain ⟨p, ss, md, slots, hinv⟩ := ih
      exact inv_step hinv hcond hstep

/-- The condition is more than what keeps the thread at rest. -/
theorem Reachable.kept (h : Reachable k msr (Covered k msr) s) : Reachable k msr Kept s := by
  induction h with
  | init hinited hrun => exact .init hinited hrun
  | step hs hcond hstep ih =>
      obtain ⟨p, ss, md, slots, hinv⟩ := reachable_inv hs
      exact ih.step (hinv.kept hcond hstep) hstep

theorem Inv.epilogue_eq (h : Inv k msr s p ss md slots) {r ra : Word}
    (hr : s.live r = some ra) : epilogue msr r s.machine = ra :=
  have hslot := h.slot r ra hr
  (h.rest.epilogue_eq_iff hslot.inStack hslot.hasSlot).mpr hslot

/-- One call, whatever is live. This is where the frames above `r0` come out: the update does not
reach their slots. -/
theorem Inv.call_epilogue_iff (h : Inv k msr s p ss md slots) {env : Env} {fuel : Nat}
    {rsp : Word} (hstep : Step k msr s (.rerandomize env fuel rsp) s')
    (hkept : Kept s (.rerandomize env fuel rsp)) {r ra : Word} (hr : s.live r = some ra) :
    epilogue msr r s'.machine = ra ↔
      (msr = true → elapsed env (s.metadata .cpuCycles) = true →
        env.rdrand = 0 ∨ r.toNat < k.r0.toNat) := by
  have hslot := h.slot r ra hr
  obtain ⟨p', ss', md', slots', hrest, heffect⟩ := atRest_step h.rest hkept hstep
  rw [hrest.epilogue_eq_iff hslot.inStack hslot.hasSlot, h.rest.metadata_eq]
  cases hstep with
  | rerandomize hrsp hlive hrun =>
      have habove := hlive r (Option.isSome_iff_exists.mpr ⟨ra, hr⟩)
      exact slot_call_iff hslot hrsp habove heffect

end Run

/-- **Decoding across value re-randomization.** In every run in which the slots are in the shadow
stack, the moves have their `mremap`, and the value changes while only activations below `r0`
are live, every live activation decodes to the return address that its latest prologue encoded.
From there a further call keeps an activation exactly when the value does not change or the
activation is below `r0`. -/
theorem fsgs_decoding {k : Stack} {s : State} (h : Reachable k true (Covered k true) s) :
    (∀ r ra, s.live r = some ra → epilogue true r s.machine = ra) ∧
      ∀ env fuel rsp s', Step k true s (.rerandomize env fuel rsp) s' →
        Kept s (.rerandomize env fuel rsp) → ∀ r ra, s.live r = some ra →
          (epilogue true r s'.machine = ra ↔
            (elapsed env (s.metadata .cpuCycles) = true →
              env.rdrand = 0 ∨ r.toNat < k.r0.toNat)) := by
  obtain ⟨p, ss, md, slots, hinv⟩ := reachable_inv h
  refine ⟨fun r ra hr => hinv.epilogue_eq hr, fun env fuel rsp s' hstep hkept r ra hr => ?_⟩
  rw [hinv.call_epilogue_iff hstep hkept hr]
  exact ⟨fun hcovered => hcovered rfl, fun hcovered _ => hcovered⟩

/-- The kernel of a call that changes the value by 99 and moves the regions. -/
def changeEnv : Env := firstEnv 100000000 99 0x7f2000000000 0x7f3000000000

/-- The first thread enters a function at `r`, and its value changes. -/
theorem exists_changed {r : Word} (hr : firstStack.InStack r) (hslot : firstStack.HasSlot r)
    (habove : firstRsp.toNat ≤ r.toNat) :
    ∃ s s', Reachable firstStack true (Covered firstStack true) s ∧
      Step firstStack true s (.rerandomize changeEnv 1 firstRsp) s' ∧
      elapsed changeEnv (s.metadata .cpuCycles) = true ∧
      (∃ ra, s.live r = some ra ∧ s'.live r = some ra) ∧
      ∀ r', (s.live r').isSome = true → r' = r := by
  obtain ⟨m, hinited, hinit, hnew, hnss⟩ := exists_first 0 77
  obtain ⟨p, ss, md, slots, hrest, hcycles⟩ := atRest_init hinited hinit
  have hout := hrest.not_inRange_page (firstStack.slotOffset_lt hr hslot)
  rw [← hrest.add_diff] at hout
  have hentered := hrest.prologue true hout
  have hrun : Reachable firstStack true (Covered firstStack true)
      ⟨_, Function.update (fun _ => none) r (some (m.mem.word r))⟩ :=
    (Reachable.init hinited hinit).step (a := .prologue r) hslot (.prologue hr)
  obtain ⟨m', hcall⟩ := hentered.returns true changeEnv inStack_firstRsp
    (fun _ => rfl) (fun _ => rfl) (hnew.of_isFree fun _ hx => hx) (hnss.of_isFree fun _ hx => hx)
  have hself : Function.update (fun _ => none) r (some (m.mem.word r)) r =
      some (m.mem.word r) := Function.update_self ..
  have hlive : ∀ r', (Function.update (fun _ => none) r (some (m.mem.word r)) r').isSome = true →
      r' = r := by
    intro r' h
    by_contra hne
    rw [Function.update_of_ne hne] at h
    cases h
  refine ⟨_, _, hrun, .rerandomize inStack_firstRsp (fun r' h => ?_)
    ((hentered.call_eq ..).trans hcall), ?_, ⟨m.mem.word r, hself, hself⟩, hlive⟩
  · rw [hlive r' h]
    exact habove
  · rw [State.metadata, hentered.gs, hentered.fields, hcycles]
    decide

/-- The first function of a thread, entered above `r0`: its return address does not decode after
a value change. -/
theorem firstFunction_not_decoded :
    ∃ s, Reachable firstStack true Kept s ∧ ∃ r ra, s.live r = some ra ∧
      epilogue true r s.machine ≠ ra := by
  have hr : firstStack.InStack 0x7ffff7fff040 := ⟨by decide, by decide, by decide⟩
  obtain ⟨s, s', hs, hstep, helapsed, ⟨ra, hlive, hlive'⟩, -⟩ :=
    exists_changed hr (by unfold Stack.HasSlot; decide) (by decide)
  obtain ⟨p, ss, md, slots, hinv⟩ := reachable_inv hs
  have hkept : Kept s (.rerandomize changeEnv 1 firstRsp) := fun _ _ => rfl
  refine ⟨s', hs.kept.step hkept hstep, _, ra, hlive', ?_⟩
  rw [Ne, hinv.call_epilogue_iff hstep hkept hlive]
  intro hcovered
  exact absurd (hcovered rfl helapsed) (by decide)

/-- A function entered below `r0`, after a value change. -/
theorem fsgs_decoding_function :
    ∃ s, Reachable firstStack true (Covered firstStack true) s ∧ ∃ r ra, s.live r = some ra ∧
      epilogue true r s.machine = ra := by
  have hr : firstStack.InStack 0x7ffff7ffefc0 := ⟨by decide, by decide, by decide⟩
  obtain ⟨s, s', hs, hstep, -, ⟨ra, hlive, hlive'⟩, honly⟩ :=
    exists_changed hr (by unfold Stack.HasSlot; decide) (by decide)
  have hcond : Covered firstStack true s (.rerandomize changeEnv 1 firstRsp) := by
    refine ⟨fun _ _ => rfl, fun _ _ => Or.inr fun r h => ?_⟩
    rw [honly r h]
    decide
  have hs' := hs.step hcond hstep
  exact ⟨s', hs', _, ra, hlive', (fsgs_decoding hs').1 _ ra hlive'⟩

end FlashStack.FsGs
