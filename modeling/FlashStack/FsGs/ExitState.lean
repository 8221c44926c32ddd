/-
The state in which `fsgs_runtime_rerandomize` leaves a thread.

The function opens the metadata page for writing before it looks at the clock. What it has
to restore when it returns is `ExitState`: the page is read-only, the flag is clear, and the
pointers of the metadata agree with the GS base and with where the shadow stack is.

* `fsgsRuntimeRerandomize_exit`: in every state of every run, a call restores the protection
  and the pointers exactly when it is not too early and its `mremap`, if it moves, succeeds;
* `earlyCall_exit`: a call that comes too early leaves the metadata page writable.

The condition is one on the state before the call and on the clock. The equivalence reads
off the three ways in which a call returns (`rerandomize_spec`): an early return skips the
second `mprotect`, and a failed `mremap` leaves an address in the metadata that is not
aligned to a page, and so not that of the shadow stack. The runs are those in which every
move so far has kept the shadow stack; behind one that has not, the thread has no shadow
stack to speak of.
-/

import FlashStack.FsGs.Run

namespace FlashStack.FsGs

open Lib.Memory Lib.Pages

/-- What a call that made the metadata page writable has to restore. The fields of the clock and
of the random value are free to change. -/
structure ExitState (m m' : Machine) : Prop where
  readOnly : Protected m'.mem m'.gs realMetaDataSize .read
  idle : m'.get m'.gs .isRandomizing = 0
  selfAddr : m'.get m'.gs .selfAddr = m'.gs
  shadowStack : m'.get m'.gs .shadowStack = m'.saved
  region : Protected m'.mem m'.saved realShadowStackSize .readWrite
  shadowStackTop : m'.get m'.gs .shadowStackTop = m'.get m'.gs .shadowStack + callStackSize
  diff : m'.get m'.gs .diff - m'.get m'.gs .shadowStack = m.get m.gs .diff - m.get m.gs .shadowStack

section Call

variable {k : Stack} {m m' : Machine} {p ss p' ss' : Word} {md md' : Field → Word}
  {slots slots' : Word → Word}

/-- The offset of the slots in the shadow stack, which no call changes. -/
theorem AtRest.diff_sub (h : AtRest k m p ss md slots) :
    m.get m.gs .diff - m.get m.gs .shadowStack = callStackSize - k.r0 := by
  have hdiff : m.get m.gs .diff = ss + callStackSize - k.r0 := h.get_place rfl
  have hshadow : m.get m.gs .shadowStack = ss := h.get_place rfl
  rw [hdiff, hshadow]
  grind

/-- Between two states at rest, the exit state is a matter of the protection of the metadata page
alone. -/
theorem AtRest.exitState_iff (h : AtRest k m p ss md slots) (h' : AtRest k m' p' ss' md' slots') :
    ExitState m m' ↔ Protected m'.mem p' realMetaDataSize .read := by
  constructor
  · intro hexit
    have hread := hexit.readOnly
    rwa [h'.gs] at hread
  · intro hread
    have hself : m'.get m'.gs .selfAddr = p' := h'.get_place rfl
    have hshadow : m'.get m'.gs .shadowStack = ss' := h'.get_place rfl
    have htop : m'.get m'.gs .shadowStackTop = ss' + callStackSize := h'.get_place rfl
    exact {
      readOnly := by rwa [h'.gs]
      idle := by rw [h'.gs, h'.fields, h'.idle]
      selfAddr := hself.trans h'.gs.symm
      shadowStack := hshadow.trans h'.saved.symm
      region := by
        rw [h'.saved]
        exact h'.region
      shadowStackTop := by rw [hshadow, htop]
      diff := h'.diff_sub.trans h.diff_sub.symm }

/-- A page is not writable and read-only at once. -/
theorem not_protected_of_protected {mem : Paged} {a : Word} {n : Nat} {q q' : Prot}
    (hn : 0 < n) (h : Protected mem a n q) (hne : q ≠ q') : ¬ Protected mem a n q' := by
  intro h'
  have hin : InRange a n a := by
    unfold InRange
    simpa using hn
  exact hne ((h a hin).symm.trans (h' a hin))

end Call

/-- **The exit state.** In every state of every run whose moves keep the shadow stack, a call
passes the tests that precede `mprotect`; when it returns, the exit state is as it should be
exactly when `CPU_CYCLES_PER_RANDOMIZATION` have passed and, if the call moves the regions,
`mremap` succeeds. -/
theorem fsgsRuntimeRerandomize_exit {k : Stack} {msr : Bool} {s : State} {env : Env} {fuel : Nat}
    {rsp : Word} {m' : Machine} (hs : Reachable k msr Kept s) (hrsp : k.InStack rsp)
    (hrun : fsgsRuntimeRerandomize msr env fuel rsp s.machine = some m') :
    entersRerandomize s.machine = true ∧
      (ExitState s.machine m' ↔ elapsed env (s.metadata .cpuCycles) = true ∧
        (Moves s.metadata → env.mremap = true)) := by
  obtain ⟨p, ss, md, slots, hrest⟩ := reachable_atRest hs
  refine ⟨hrest.enters, ?_⟩
  rw [hrest.call_eq] at hrun
  rw [hrest.metadata_eq]
  rcases rerandomize_spec hrest hrsp hrun with hearly | hlate | hlost
  · obtain ⟨helapsed, hrest', hwritable⟩ := hearly
    rw [hrest.exitState_iff hrest', helapsed]
    refine ⟨fun hread => absurd hread ?_, fun h => nomatch h.1⟩
    exact not_protected_of_protected (by decide) hwritable (by decide)
  · obtain ⟨helapsed, hmremap, p', ss', md', hrest', -, hread⟩ := hlate
    rw [hrest.exitState_iff hrest']
    exact ⟨fun _ => ⟨helapsed, hmremap⟩, fun _ => hread⟩
  · obtain ⟨helapsed, hmoves, hfails, hfield, hsaved⟩ := hlost
    constructor
    · intro hexit
      have haligned := hrest.aligned
      rw [← hsaved, ← hexit.shadowStack, hfield] at haligned
      exact absurd haligned (by decide)
    · intro h
      rw [h.2 hmoves] at hfails
      cases hfails

/-- A call soon after the initialisation returns with a page that is still writable. -/
theorem earlyCall_exit :
    ∃ s m', Reachable firstStack true Kept s ∧ entersRerandomize s.machine = true ∧
      fsgsRuntimeRerandomize true (firstEnv 1000 77 0x7f2000000000 0x7f3000000000) 1 firstRsp
        s.machine = some m' ∧ ¬ ExitState s.machine m' := by
  obtain ⟨m, hinited, hinit, -, -⟩ := exists_first 0 77
  obtain ⟨p, ss, md, slots, hrest, hcycles⟩ := atRest_init hinited hinit
  have hearly : elapsed (firstEnv 1000 77 0x7f2000000000 0x7f3000000000) (md .cpuCycles) =
      false := by
    rw [hcycles]
    decide
  obtain ⟨m', hrun, hrest', hwritable⟩ := hrest.early true 1 firstRsp hearly
  refine ⟨⟨m, fun _ => none⟩, m', .init hinited hinit, hrest.enters,
    (hrest.call_eq ..).trans hrun, ?_⟩
  rw [hrest.exitState_iff hrest']
  exact not_protected_of_protected (by decide) hwritable (by decide)

/-- A call in time; it moves the regions. -/
theorem fsgsRuntimeRerandomize_exit_inTime :
    ∃ s m', Reachable firstStack true Kept s ∧
      fsgsRuntimeRerandomize true (firstEnv 100000000 99 0x7f2000000000 0x7f3000000000) 1 firstRsp
        s.machine = some m' ∧ ExitState s.machine m' := by
  obtain ⟨m, hinited, hinit, hnew, hnss⟩ := exists_first 0 77
  obtain ⟨p, ss, md, slots, hrest, hcycles⟩ := atRest_init hinited hinit
  obtain ⟨m', hrun⟩ := hrest.returns true
    (firstEnv 100000000 99 0x7f2000000000 0x7f3000000000) inStack_firstRsp
    (fun _ => rfl) (fun _ => rfl) hnew hnss
  have hcall := (hrest.call_eq ..).trans hrun
  have hs : Reachable firstStack true Kept ⟨m, fun _ => none⟩ := .init hinited hinit
  obtain ⟨-, hexit⟩ := fsgsRuntimeRerandomize_exit hs inStack_firstRsp hcall
  refine ⟨_, m', hs, hcall, hexit.mpr ⟨?_, fun _ => rfl⟩⟩
  rw [State.metadata, hrest.gs, hrest.fields, hcycles]
  decide

end FlashStack.FsGs
