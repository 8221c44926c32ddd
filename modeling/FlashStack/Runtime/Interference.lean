/-
The runtime functions among other threads, action by action.

Between two actions of a runtime call of thread `t`, other threads may do anything that
leaves the shadow stack and the registers of `t` undisturbed. Each action of `t` is confined
in the same sense: it leaves the memory and the registers of everybody else as they were. So
the phases of a call, which are those of the module on reentrancy, are stable, and:

* `safe_rerandomize`: no interleaving makes `gs_rsp_runtime_rerandomize` fault, and it ends
  with the slots in one region, found through GS base and metadata;
* `safe_initShadowStack`: the same of the initialisation of a thread.

The loop of `get_memory_at_random` is proved once for both, for any assertion that a fresh
mapping extends and its removal restores (`Placing`). What memory is free when the next
attempt is made is up to the others, and so nothing can be said about which region is taken.

The rules are those of `Lib.Interleaving`, at the relation that others keep. Both functions
are taken at an `arch_prctl` that succeeds, and the re-randomization below the stack pointer
of the initialisation. Signals are left out here, and other threads there: the two are not
mixed.
-/

import FlashStack.Lib.Interleaving
import FlashStack.Runtime.Reentrancy

namespace FlashStack.Runtime

open Lib.Memory Lib.Program Lib.Interleaving

/-! ### What an action of one thread leaves alone -/

/-- Only memory and registers of thread `t` may have changed. In contrast to a frame of a whole
call, it is promised for each action. -/
structure Confined (t : Tid) (m m' : Machine) : Prop where
  others : OthersKept t m.mem m'.mem
  threads : ∀ u, u ≠ t → m'.threads u = m.threads u

theorem Confined.refl (t : Tid) (m : Machine) : Confined t m m :=
  ⟨OthersKept.refl t m.mem, fun _ _ => rfl⟩

theorem Confined.undisturbed {t u : Tid} {m m' : Machine} (h : Confined t m m') (hu : u ≠ t) :
    Undisturbed u m m' :=
  ⟨h.others.kept hu, h.threads u hu⟩

theorem Confined.keeps_other {t : Tid} {m m' : Machine} (h : Confined t m m') (x : Word)
    (hx : ownerOf m.mem x = some .other) : ownerOf m'.mem x = some .other :=
  (h.others.ownerOf_iff (by simp) x).mp hx

theorem Confined.ownedBy {t : Tid} {m m' : Machine} (h : Confined t m m') {a : Word} {n : Nat}
    (ho : OwnedBy m.mem .other a n) : OwnedBy m'.mem .other a n :=
  fun i hi => h.keeps_other _ (ho i hi)

/-- What an action must own to be confined, that is, to leave alone what belongs to other threads.
-/
def Op.Confines (t : Tid) (m : Machine) : Op → Prop
  | .memset _ n => n ≤ 2 ^ 64
  | .munmap a n => n ≤ 2 ^ 64 ∧ OwnedBy m.mem (.shadow t) a n
  | .mremap old n new =>
      n ≤ 2 ^ 64 ∧ OwnedBy m.mem (.shadow t) old n ∧ OwnedBy m.mem (.shadow t) new n
  | _ => True

section Confined

variable {t : Tid} {env : Env} {m m' : Machine}

theorem Machine.check_owns {a : Word} {n : Nat} (h : m.check t a n = .ok ()) :
    OwnedBy m.mem (.shadow t) a n := by
  unfold Machine.check at h
  split_ifs at h with hmapped howned
  exact howned

theorem confined_store {a : Word} {n v : Nat} (hn : n ≤ 2 ^ 64)
    (h : OwnedBy m.mem (.shadow t) a n) : Confined t m (m.withMem (storeN m.mem a n v)) :=
  ⟨othersKept_storeN hn h, fun _ _ => rfl⟩

theorem confined_setThread (th : Thread) : Confined t m (m.setThread t th) :=
  ⟨OthersKept.refl t m.mem, fun _ hu => m.setThread_ne th hu⟩

/-- A store to the slot of a stack pointer. -/
theorem ThreadAt.store_slot {r0 ss rsp : Word} {slots : Slots} (h : ThreadAt m t r0 ss slots)
    (hslot : HasSlot r0 rsp) (v : Word) :
    Mapped m.mem (slotAddr (m.threads t).gs rsp) 8 ∧
      ThreadAt (m.withMem (storeN m.mem (slotAddr (m.threads t).gs rsp) 8 v.toNat)) t r0 ss
        (Function.update slots rsp (some v)) ∧
      Confined t m (m.withMem (storeN m.mem (slotAddr (m.threads t).gs rsp) 8 v.toNat)) := by
  obtain ⟨md, hstack, hdesc⟩ := h
  have hown := hstack.slot_owned hslot
  obtain ⟨m', hstep, hstack', -⟩ := hstack.prologue hslot v
  obtain rfl := Except.ok.inj ((Machine.store_owned hown).symm.trans hstep)
  exact ⟨hown.mapped, ⟨md, hstack', hdesc⟩, confined_store (by decide) hown⟩

/-- **An action of thread `t` is confined** to what belongs to `t`, or to memory that was free.
The cases are the actions of the machine. -/
theorem exec_confined {op : Op} {r : op.Res} (h : exec t env op m = .ok (r, m'))
    (hop : op.Confines t m) : Confined t m m' := by
  cases op with
  | getInited | rdtsc _ | rdrand _ _ | getGs =>
      cases h
      exact Confined.refl t m
  | setInited =>
      cases h
      exact confined_setThread _
  | load a =>
      rw [exec] at h
      split at h
      · cases h
      · cases h
        exact Confined.refl t m
  | store a v =>
      simp only [exec, Machine.store] at h
      cases hcheck : m.check t a 8 with
      | error e => simp [hcheck] at h
      | ok _ =>
          rw [hcheck] at h
          cases h
          exact confined_store (by decide) (Machine.check_owns hcheck)
  | memset a n =>
      simp only [exec] at h
      cases hcheck : m.check t a n with
      | error e => simp [hcheck] at h
      | ok _ =>
          rw [hcheck] at h
          cases h
          exact confined_store hop (Machine.check_owns hcheck)
  | setGs v =>
      rw [exec] at h
      split_ifs at h
      · cases h
        exact confined_setThread _
      · cases h
        exact Confined.refl t m
  | mmap call i hint size =>
      simp only [exec, Except.ok.injEq] at h
      cases hmmap : env.mmap call i with
      | none =>
          rw [hmmap] at h
          cases h
          exact Confined.refl t m
      | some a =>
          rw [hmmap, Machine.mmap] at h
          split_ifs at h with hfits
          · cases h
            exact ⟨othersKept_mapZero (by omega) hfits.2, fun _ _ => rfl⟩
          · cases h
            exact Confined.refl t m
  | munmap a size =>
      cases h
      exact ⟨othersKept_unmap hop.1 hop.2, fun _ _ => rfl⟩
  | mremap old size new =>
      simp only [exec, Except.ok.injEq, Machine.mremap] at h
      split_ifs at h
      · cases h
        exact ⟨othersKept_remap hop.1 hop.2.1 hop.2.2, fun _ _ => rfl⟩
      · cases h
        exact Confined.refl t m
  | count _ _ | addMemoryRegion _ =>
      cases h
      exact ⟨OthersKept.refl t m.mem, fun _ _ => rfl⟩

end Confined

/-! ### The phases are stable -/

section Stability

variable {t : Tid} {r0 ss new sh df : Word} {saved : Slots} {fresh : Option Word}

theorem stable_idleAt : Stable (Undisturbed t) (IdleAt t r0 saved ss) := by
  rintro m m' ⟨slots, hthread, hsaved⟩ hund
  exact ⟨slots, hthread.of_undisturbed hund, hsaved⟩

theorem stable_idle : Stable (Undisturbed t) (Idle t r0 saved) := by
  rintro m m' ⟨ss, hidle⟩ hund
  exact ⟨ss, stable_idleAt m m' hidle hund⟩

theorem stable_busyAt : Stable (Undisturbed t) (BusyAt t r0 saved ss fresh sh df) := by
  rintro m m' ⟨md, slots, hstack, hclaimed, hsaved⟩ hund
  exact ⟨md, slots, hstack.of_undisturbed hund, hclaimed, hsaved⟩

/-- No other thread reaches the region while the GS base does not point to it. -/
theorem stable_detached : Stable (Undisturbed t) (Detached t r0 saved new) := by
  rintro m m' hm hund
  refine stable_busyAt _ _ hm ⟨hund.kept, ?_⟩
  simp [Machine.follow, hund.thread]

end Stability

/-! ### The rules for the actions of a thread -/

/-- `p` takes `P` to `Q` among other threads, which may do anything between its actions but
disturb thread `t`. -/
abbrev SafeAmong (t : Tid) (env : Env) {α : Type} (P : Machine → Prop) (p : Program α)
    (Q : α → Machine → Prop) : Prop :=
  Safe (exec t env) (Undisturbed t) (fun _ => Confined t) P p Q

section Rules

variable {t : Tid} {r0 ss sh df : Word} {saved : Slots} {fresh : Option Word} {env : Env}
  {α : Type} {P : Machine → Prop} {Q : α → Machine → Prop}

theorem safe_op {op : Op} {k : op.Res → Program α} {R : op.Res → Machine → Prop}
    (hstable : Stable (Undisturbed t) P) (hconf : ∀ m, P m → op.Confines t m)
    (hexec : ∀ m, P m → ∃ r m', exec t env op m = .ok (r, m') ∧ R r m')
    (hrest : ∀ r, SafeAmong t env (R r) (k r) Q) : SafeAmong t env P (.act op k) Q := by
  refine safe_act hstable (fun m hm => ?_) hrest
  obtain ⟨r, m', hop, hR⟩ := hexec m hm
  exact ⟨r, m', hop, exec_confined hop (hconf m hm), hR⟩

/-- An action that changes nothing the assertion speaks of. -/
theorem safe_same {op : Op} {k : op.Res → Program α} (hstable : Stable (Undisturbed t) P)
    (hconf : ∀ m, op.Confines t m)
    (hexec : ∀ m, P m → ∃ r m', exec t env op m = .ok (r, m') ∧ P m')
    (hrest : ∀ r, SafeAmong t env P (k r) Q) : SafeAmong t env P (.act op k) Q :=
  safe_op (R := fun _ => P) hstable (fun m _ => hconf m) hexec hrest

theorem safe_count {k : Unit → Program α} {c : Counter} {v : Word}
    (hstable : Stable (Undisturbed t) P) (hbump : ∀ m, P m → P (m.bump c v))
    (hrest : SafeAmong t env P (k ()) Q) : SafeAmong t env P (.act (.count c v) k) Q :=
  safe_same hstable (fun _ => trivial) (fun m hm => ⟨(), m.bump c v, rfl, hbump m hm⟩)
    fun _ => hrest

theorem safe_count_busy {k : Unit → Program α} (c : Counter) (v : Word)
    (hrest : SafeAmong t env (BusyAt t r0 saved ss fresh sh df) (k ()) Q) :
    SafeAmong t env (BusyAt t r0 saved ss fresh sh df) (.act (.count c v) k) Q :=
  safe_count stable_busyAt (fun _ hm => hm.bump c v) hrest

theorem safe_count_idle {k : Unit → Program α} (c : Counter) (v : Word)
    (hrest : SafeAmong t env (Idle t r0 saved) (k ()) Q) :
    SafeAmong t env (Idle t r0 saved) (.act (.count c v) k) Q :=
  safe_count stable_idle (fun _ hm => hm.bump c v) hrest

/-- A load from the claimed metadata. -/
theorem safe_load_busy {k : Word → Program α} (f : Field)
    (hrest : ∀ md, Claimed md sh df →
      SafeAmong t env (BusyAt t r0 saved ss fresh sh df) (k (md f)) Q) :
    SafeAmong t env (BusyAt t r0 saved ss fresh sh df)
      (.act (.load (f.addr (getGsRspMetadataByShadowStack ss))) k) Q := by
  refine safe_op (R := fun v m => (∃ md, Claimed md sh df ∧ v = md f) ∧
    BusyAt t r0 saved ss fresh sh df m) stable_busyAt (fun _ _ => trivial) (fun m hm => ?_)
    fun v => safe_of_fact ?_
  · obtain ⟨v, hexec, hv⟩ := hm.exec_load f
    exact ⟨v, m, hexec, hv⟩
  · rintro ⟨md, hclaimed, rfl⟩
    exact hrest md hclaimed

/-- A store to the claimed metadata. -/
theorem safe_store_busy {k : Unit → Program α} (f : Field) (v sh' df' : Word)
    (hclaimed : ∀ md, Claimed md sh df → Claimed (Function.update md f v) sh' df')
    (hrest : SafeAmong t env (BusyAt t r0 saved ss fresh sh' df') (k ()) Q) :
    SafeAmong t env (BusyAt t r0 saved ss fresh sh df)
      (.act (.store (f.addr (getGsRspMetadataByShadowStack ss)) v) k) Q :=
  safe_op stable_busyAt (fun _ _ => trivial) (fun _ hm => hm.exec_store f v hclaimed)
    fun _ => hrest

theorem safe_munmap_busy {new : Word} {k : Unit → Program α}
    (hrest : SafeAmong t env (BusyAt t r0 saved ss none sh df) (k ()) Q) :
    SafeAmong t env (BusyAt t r0 saved ss (some new) sh df)
      (.act (.munmap new realShadowStackSize) k) Q := by
  refine safe_op (R := fun _ => BusyAt t r0 saved ss none sh df) stable_busyAt ?_
    (fun _ hm => hm.exec_munmap) fun _ => hrest
  rintro m ⟨md, slots, hstack, -⟩
  obtain ⟨content, hm⟩ := hstack.anchored
  exact ⟨realShadowStackSize_le, (ownedBy_iff realShadowStackSize_le).mpr fun x hx =>
    (hm.region.owns x).mpr (.inr ⟨new, rfl, hx⟩)⟩

end Rules

/-! ### Random placement -/

/-- What the loop of `get_memory_at_random` needs of its assertion `B`, which says whether
a fresh region is mapped, and where. -/
structure Placing (t : Tid) (env : Env) (B : Option Word → Machine → Prop) : Prop where
  stable : ∀ fresh, Stable (Undisturbed t) (B fresh)
  mmap : ∀ call i hint m, B none m →
    ∃ r m', exec t env (.mmap call i hint realShadowStackSize) m = .ok (r, m') ∧ B r m'
  owned : ∀ new m, B (some new) m → OwnedBy m.mem (.shadow t) new realShadowStackSize
  munmap : ∀ new m, B (some new) m →
    ∃ r m', exec t env (.munmap new realShadowStackSize) m = .ok (r, m') ∧ B none m'
  bump : ∀ fresh c v m, B fresh m → B fresh (m.bump c v)

section Placement

variable {t : Tid} {env : Env} {B : Option Word → Machine → Prop}

/-- Each attempt ends without a region, or with a fresh one that the runtime accepts. -/
theorem safe_getMemoryAtRandomLoop (hB : Placing t env B) (call : Nat) (adjustedRsp : Word)
    (fuel i : Nat) :
    SafeAmong t env (B none) (getMemoryAtRandomLoop call adjustedRsp realShadowStackSize fuel i)
      fun out m => (∀ new ∈ out.1, new.toNat % 2 ^ 23 = 0) ∧ B out.1 m := by
  have hfailed : ∀ i, SafeAmong t env (B none) (.ret (none, i) : Program (Option Word × Nat))
      fun out m => (∀ new ∈ out.1, new.toNat % 2 ^ 23 = 0) ∧ B out.1 m :=
    fun i => safe_ret (hB.stable none) fun m hm => ⟨by simp, hm⟩
  induction fuel generalizing i with
  | zero => exact hfailed i
  | succ fuel ih =>
      simp only [getMemoryAtRandomLoop, munmap, perform, Prog.lift_bind]
      refine safe_same (hB.stable none) (fun _ => trivial) (fun m hm => ⟨_, m, rfl, hm⟩)
        fun x => ?_
      by_cases hlast : i > spaMaxMmapAttempts
      · rw [if_pos hlast]
        exact hfailed i
      · rw [if_neg hlast]
        refine safe_op (hB.stable none) (fun _ _ => trivial) (hB.mmap call i _) fun addr => ?_
        cases addr with
        | none => exact ih (i + 1)
        | some a =>
            simp only
            cases hrej : rejected adjustedRsp a with
            | true =>
                rw [if_pos rfl]
                exact safe_op (R := fun _ => B none) (hB.stable (some a))
                  (fun m hm => ⟨realShadowStackSize_le, hB.owned a m hm⟩) (hB.munmap a)
                  fun _ => ih (i + 1)
            | false =>
                rw [if_neg (by decide)]
                refine safe_ret (hB.stable (some a)) fun m hm => ⟨?_, hm⟩
                rintro _ ⟨⟩
                exact (accepted_iff.mp hrej).1

theorem safe_getMemoryAtRandom (hB : Placing t env B) (call : Nat) (rsp : Word) (init : Bool) :
    SafeAmong t env (B none) (getMemoryAtRandom call rsp realShadowStackSize init)
      fun addr m => (∀ new ∈ addr, new.toNat % 2 ^ 23 = 0) ∧ B addr m := by
  rw [getMemoryAtRandom]
  refine safe_bind (safe_getMemoryAtRandomLoop hB call _ _ 0) ?_
  rintro ⟨addr, i⟩
  refine safe_of_fact fun haligned => ?_
  have hdone : SafeAmong t env (B addr) (.ret addr : Program (Option Word)) fun addr m =>
      (∀ new ∈ addr, new.toNat % 2 ^ 23 = 0) ∧ B addr m :=
    safe_ret (hB.stable addr) fun m hm => ⟨haligned, hm⟩
  have hcount : ∀ c v, SafeAmong t env (B addr)
      (.act (.count c v) fun _ => .ret addr : Program (Option Word)) fun addr m =>
        (∀ new ∈ addr, new.toNat % 2 ^ 23 = 0) ∧ B addr m :=
    fun c v => safe_count (hB.stable addr) (hB.bump addr c v) hdone
  by_cases hi : i < spaMaxMmapAttempts
  · cases init with
    | true =>
        simp only [hi, if_true, Bool.not_true, Bool.false_eq_true, if_false, Prog.pure_eq]
        exact hdone
    | false =>
        simp only [hi, if_true, Bool.not_false, syncFetchAndAdd, perform, Prog.lift_bind,
          Prog.pure_eq]
        exact hcount _ _
  · simp only [hi, if_false, syncFetchAndAdd, perform, Prog.lift_bind, Prog.pure_eq]
    exact hcount _ _

end Placement

/-! ### Re-randomization -/

section Rerandomize

variable {t : Tid} {r0 ss new rspAlloc start : Word} {saved : Slots} {env : Env}

theorem placing_busy {sh df : Word} :
    Placing t env fun fresh => BusyAt t r0 saved ss fresh sh df where
  stable _ := stable_busyAt
  mmap call i hint _ hm := hm.exec_mmap call i hint
  owned new m hm := by
    obtain ⟨md, slots, hstack, -⟩ := hm
    obtain ⟨content, hm⟩ := hstack.anchored
    exact (ownedBy_iff realShadowStackSize_le).mpr fun x hx =>
      (hm.region.owns x).mpr (.inr ⟨new, rfl, hx⟩)
  munmap _ _ hm := hm.exec_munmap
  bump _ c v _ hm := hm.bump c v

/-- The end of the call. -/
theorem safe_randExit :
    SafeAmong t env (BusyAt t r0 saved ss none ss (initDiff ss r0))
      (randExit (getGsRspMetadataByShadowStack ss) start) fun _ => Idle t r0 saved := by
  simp only [randExit, store, syncFetchAndAdd, rdtsc, perform, Prog.lift_bind]
  refine safe_op (R := fun _ => Idle t r0 saved) stable_busyAt (fun _ _ => trivial)
    (fun m hm => ?_) fun _ => ?_
  · obtain ⟨r, m', hexec, hidle⟩ := hm.exec_unclaim
    exact ⟨r, m', hexec, ss, hidle⟩
  · refine safe_count_idle .totalRand 1 ?_
    refine safe_same stable_idle (fun _ => trivial) (fun m hm => ⟨_, m, rfl, hm⟩)
      fun finish => ?_
    exact safe_count_idle .cpuCycles (finish - start) (safe_ret stable_idle fun _ h => h)

/-- The roll-back returns to the claimed metadata of the region that did not move. -/
theorem safe_rollBack :
    SafeAmong t env (BusyAt t r0 saved ss (some new) new (initDiff new r0))
      (rollBack (getGsRspMetadataByShadowStack ss) ss new (new - ss))
      fun _ => BusyAt t r0 saved ss none ss (initDiff ss r0) := by
  have hback : initDiff new r0 - (new - ss) = initDiff ss r0 := by
    unfold initDiff
    grind
  simp only [rollBack, syncFetchAndAdd, store, load, munmap, perform, Prog.lift_bind]
  refine safe_count_busy .failRand 1 ?_
  refine safe_store_busy .shadowStack ss ss (initDiff new r0)
    (fun md h => ⟨rfl, h.diff, h.isRandomizing, h.state⟩) ?_
  refine safe_load_busy .diff fun md h => ?_
  rw [h.diff, hback]
  refine safe_store_busy .diff (initDiff ss r0) ss (initDiff ss r0)
    (fun md h => ⟨h.shadowStack, rfl, h.isRandomizing, h.state⟩) ?_
  exact safe_munmap_busy (safe_ret stable_busyAt fun _ h => h)

/-- `mremap` and what follows it. -/
theorem safe_afterMremap (haligned : new.toNat % 2 ^ 23 = 0) (hset : env.setGs = true) :
    SafeAmong t env (BusyAt t r0 saved ss (some new) new (initDiff new r0))
      (.act (.mremap ss realShadowStackSize new) fun moved =>
        afterMremap (getGsRspMetadataByShadowStack ss) ss new (new - ss) (initDiff new r0) start
          moved) fun _ => Idle t r0 saved := by
  refine safe_op stable_busyAt (fun m hm => ?_) (fun m hm => hm.exec_mremap haligned)
    fun moved => ?_
  · have hplacing : Placing t env fun fresh =>
        BusyAt t r0 saved ss fresh new (initDiff new r0) := placing_busy
    have hnew := hplacing.owned new m hm
    obtain ⟨md, slots, hstack, -⟩ := hm
    obtain ⟨content, hm⟩ := hstack.anchored
    exact ⟨realShadowStackSize_le, hm.region.owned_all, hnew⟩
  · cases moved with
    | none => exact safe_bind safe_rollBack fun _ => safe_randExit
    | some a =>
        refine safe_of_fact ?_
        rintro rfl
        simp only [afterMremap, perform, Prog.lift_bind]
        -- the other threads do not read the GS base of this one
        refine safe_op stable_detached (fun _ _ => trivial) (fun m hm => hm.exec_setGs hset)
          fun r => safe_of_fact ?_
        rintro rfl
        exact safe_randExit

theorem safe_moveShadowStack (haligned : new.toNat % 2 ^ 23 = 0) (hset : env.setGs = true) :
    SafeAmong t env (BusyAt t r0 saved ss (some new) ss (initDiff ss r0))
      (moveShadowStack (getGsRspMetadataByShadowStack ss) new start) fun _ => Idle t r0 saved := by
  simp only [moveShadowStack, load, store, munmap, perform, Prog.lift_bind]
  refine safe_load_busy .shadowStack fun md h => ?_
  rw [h.shadowStack]
  refine safe_load_busy .diff fun md h => ?_
  rw [h.diff, initDiff_add]
  cases hout : diffOutOfRange (initDiff new r0) with
  | true =>
      rw [if_pos rfl]
      exact safe_munmap_busy safe_randExit
  | false =>
      rw [if_neg (by decide)]
      refine safe_load_busy .shadowStack fun md h => ?_
      rw [h.shadowStack]
      refine safe_store_busy .shadowStack new new (initDiff ss r0)
        (fun md h => ⟨rfl, h.diff, h.isRandomizing, h.state⟩) ?_
      refine safe_store_busy .diff (initDiff new r0) new (initDiff new r0)
        (fun md h => ⟨h.shadowStack, rfl, h.isRandomizing, h.state⟩) ?_
      exact safe_afterMremap haligned hset

theorem safe_rerandomizeClaimed (hset : env.setGs = true) :
    SafeAmong t env (BusyAt t r0 saved ss none ss (initDiff ss r0))
      (rerandomizeClaimed (getGsRspMetadataByShadowStack ss) rspAlloc start)
      fun _ => Idle t r0 saved := by
  simp only [rerandomizeClaimed, load, store, rdtsc, perform, Prog.lift_bind]
  refine safe_load_busy .cpuCycles fun md _ => ?_
  refine safe_same stable_busyAt (fun _ => trivial) (fun m hm => ⟨_, m, rfl, hm⟩)
    fun curClocks => ?_
  split
  · refine safe_op (R := fun _ => Idle t r0 saved) stable_busyAt (fun _ _ => trivial)
      (fun m hm => ?_) fun _ => safe_ret stable_idle fun _ h => h
    obtain ⟨r, m', hexec, hidle⟩ := hm.exec_unclaim
    exact ⟨r, m', hexec, ss, hidle⟩
  · refine safe_store_busy .cpuCycles curClocks _ _
      (fun md h => ⟨h.shadowStack, h.diff, h.isRandomizing, h.state⟩) ?_
    refine safe_bind (safe_getMemoryAtRandom placing_busy 0 rspAlloc false) fun placed => ?_
    refine safe_of_fact fun haligned => ?_
    cases placed with
    | some new => exact safe_moveShadowStack (haligned new rfl) hset
    | none =>
        simp only [afterPlacement, syncFetchAndAdd, perform, Prog.lift_bind]
        exact safe_count_busy .failRand 1 safe_randExit

theorem safe_rerandomizeFound (hset : env.setGs = true) :
    SafeAmong t env (IdleAt t r0 saved ss)
      (rerandomizeFound (getGsRspMetadataByShadowStack ss) rspAlloc start)
      fun _ => Idle t r0 saved := by
  have hdone : SafeAmong t env (IdleAt t r0 saved ss) (.ret () : Program Unit)
      fun _ => Idle t r0 saved := safe_ret stable_idleAt fun m hm => ⟨ss, hm⟩
  have hload : ∀ f m, IdleAt t r0 saved ss m → ∃ r m',
      exec t env (.load (Field.addr (getGsRspMetadataByShadowStack ss) f)) m = .ok (r, m') ∧
        IdleAt t r0 saved ss m' := by
    rintro f m ⟨slots, ⟨md, hstack, hdesc⟩, hsaved⟩
    exact ⟨md f, m, hstack.exec_load f, slots, ⟨md, hstack, hdesc⟩, hsaved⟩
  simp only [rerandomizeFound, load, store, perform, Prog.lift_bind, Prog.pure_eq]
  refine safe_same stable_idleAt (fun _ => trivial) (hload .state) fun state => ?_
  split
  · exact hdone
  refine safe_same stable_idleAt (fun _ => trivial) (hload .isRandomizing)
    fun isRandomizing => ?_
  split
  · exact hdone
  exact safe_op stable_idleAt (fun _ _ => trivial) (fun m hm => hm.exec_claim)
    fun _ => safe_rerandomizeClaimed hset

/-- **A re-randomization among other threads.** It ends with the thread idle again, its region
where it was or at a new place. -/
theorem safe_rerandomize {rsp : Word} (hrsp : BelowStart r0 rsp) (hset : env.setGs = true) :
    SafeAmong t env (Idle t r0 saved) (gsRspRuntimeRerandomize rsp rspAlloc)
      fun _ => Idle t r0 saved := by
  simp only [gsRspRuntimeRerandomize, getGsRspMetadataByRsp, rdtsc, perform, Prog.lift_bind,
    Prog.pure_eq]
  refine safe_same stable_idle (fun _ => trivial) (fun m hm => ⟨_, m, rfl, hm⟩) fun start => ?_
  refine safe_same stable_idle (fun _ => trivial) (fun m hm => ⟨_, m, rfl, hm⟩) fun inited => ?_
  split
  · exact safe_ret stable_idle fun _ h => h
  -- the answer of `arch_prctl(ARCH_GET_GS)` tells where the region is
  refine safe_op (R := fun gs m => ∃ ss, (∀ base, gs = some base →
    shadowStackByRsp rsp base = ss) ∧ IdleAt t r0 saved ss m) stable_idle (fun _ _ => trivial)
    (fun m hm => ?_) fun gs => safe_exists fun ss => safe_of_fact fun hss => ?_
  · obtain ⟨ss, slots, hthread, hsaved⟩ := hm
    obtain ⟨md, content, hc⟩ := hthread.coherent
    cases hget : env.getGs with
    | false =>
        exact ⟨none, m, by simp [exec, hget], ss, fun _ h => absurd h (by simp), slots,
          hthread, hsaved⟩
    | true =>
        refine ⟨some (initDiff ss r0), m, by simp [exec, hget, hc.gs], ss, ?_, slots, hthread,
          hsaved⟩
        intro base hbase
        obtain rfl := Option.some.inj hbase
        exact shadowStackByRsp_initDiff hc.aligned hrsp
  · cases gs with
    | none => exact safe_ret stable_idleAt fun m hm => ⟨ss, hm⟩
    | some gs =>
        obtain rfl := hss gs rfl
        exact safe_rerandomizeFound hset

end Rerandomize

/-! ### Initialisation -/

section Init

variable {t : Tid} {r0 ss rspAlloc : Word} {env : Env}

/-- Before the first region of `t`, or with one that was just mapped. -/
def Looking (t : Tid) (fresh : Option Word) (m : Machine) : Prop :=
  (m.threads t).inited = true ∧
    match fresh with
    | none => NoShadow m t
    | some new => ShadowRegion m.mem t new none (fun _ => 0) fun _ => 0

/-- The metadata of the new region is being written. Every slot is still zero. -/
def Writing (t : Tid) (ss : Word) (md : Field → Word) (m : Machine) : Prop :=
  (m.threads t).inited = true ∧ ShadowRegion m.mem t ss none md fun _ => 0

theorem stable_noShadow : Stable (Undisturbed t) fun m => NoShadow m t :=
  fun _ _ hno hund => hno.of_kept hund.kept

theorem stable_writing {md : Field → Word} : Stable (Undisturbed t) (Writing t ss md) := by
  rintro m m' ⟨hin, hregion⟩ hund
  exact ⟨by rw [hund.thread]; exact hin, hregion.of_kept hund.kept⟩

theorem stable_looking (fresh : Option Word) : Stable (Undisturbed t) (Looking t fresh) := by
  rintro m m' ⟨hin, h⟩ hund
  refine ⟨by rw [hund.thread]; exact hin, ?_⟩
  cases fresh with
  | none => exact stable_noShadow m m' h hund
  | some new => exact h.of_kept hund.kept

theorem noShadow_unmap {m : Machine} {md : Field → Word} {content : Nat → Byte}
    (h : ShadowRegion m.mem t ss none md content) :
    NoShadow (m.withMem (unmap m.mem ss realShadowStackSize)) t := by
  intro x hx
  by_cases hin : InRange ss realShadowStackSize x
  · simp [ownerOf, unmap_inside hin] at hx
  · have hown := h.owns x
    simp only [Machine.withMem_mem, ownerOf, unmap_outside hin] at hx
    simp only [Option.mem_def, reduceCtorEq, false_and, exists_false, or_false] at hown
    exact hin (hown.mp hx)

theorem placing_looking : Placing t env (Looking t) where
  stable := stable_looking
  mmap call i hint m hm := by
    refine ⟨_, _, rfl, ?_⟩
    cases hmmap : env.mmap call i with
    | none => exact hm
    | some a =>
        simp only
        split_ifs with hfits
        · exact ⟨hm.1, ShadowRegion.of_mapZero hm.2⟩
        · exact hm
  owned new m hm := hm.2.owned_all
  munmap new m hm := ⟨(), _, rfl, hm.1, noShadow_unmap hm.2⟩
  bump fresh c v m hm := by
    cases fresh with
    | none => exact hm
    | some new => exact hm

/-- The allocation ends with a region that the runtime accepts, or is cut off before. -/
theorem safe_allocateShadowStack (fuel call : Nat) :
    SafeAmong t env (Looking t none) (allocateShadowStack rspAlloc fuel call)
      fun addr m => (∀ new ∈ addr, new.toNat % 2 ^ 23 = 0) ∧ Looking t addr m := by
  induction fuel generalizing call with
  | zero => exact safe_ret (stable_looking none) fun m hm => ⟨by simp, hm⟩
  | succ fuel ih =>
      rw [allocateShadowStack]
      refine safe_bind (safe_getMemoryAtRandom placing_looking call rspAlloc true) fun addr => ?_
      refine safe_of_fact fun haligned => ?_
      cases addr with
      | none => exact ih (call + 1)
      | some ss => exact safe_ret (stable_looking (some ss)) fun m hm => ⟨haligned, hm⟩

theorem safe_store_writing {α : Type} {Q : α → Machine → Prop} {md : Field → Word}
    {k : Unit → Program α} (f : Field) (v : Word)
    (hrest : SafeAmong t env (Writing t ss (Function.update md f v)) (k ()) Q) :
    SafeAmong t env (Writing t ss md)
      (.act (.store (f.addr (getGsRspMetadataByShadowStack ss)) v) k) Q := by
  refine safe_op (R := fun _ => Writing t ss (Function.update md f v)) stable_writing
    (fun _ _ => trivial) ?_ fun _ => hrest
  rintro m ⟨hin, hregion⟩
  exact ⟨(), _, exec_store_owned (hregion.owned_field f) v, hin, hregion.store_field f v⟩

theorem safe_initMetadataOnShadowStack (diff : Word) :
    SafeAmong t env (Writing t ss fun _ => 0) (initMetadataOnShadowStack ss diff)
      fun _ m => ∃ md, Function.update md .state flashStackInited = initialMetadata ss diff ∧
        Writing t ss md m := by
  have hsize : sizeofMetadata ≤ 2 ^ 64 := by decide
  simp only [initMetadataOnShadowStack, store, perform, Prog.lift_bind]
  refine safe_op (R := fun _ => Writing t ss fun _ => 0) stable_writing (fun _ _ => hsize) ?_
    fun _ => ?_
  · rintro m ⟨hin, hregion⟩
    have hown : OwnedBy m.mem (.shadow t) (getGsRspMetadataByShadowStack ss) sizeofMetadata :=
      hregion.owned (by decide)
    refine ⟨(), m.withMem (storeN m.mem (getGsRspMetadataByShadowStack ss) sizeofMetadata 0), ?_,
      hin, hregion.memset_metadata⟩
    rw [exec, Machine.check_owned hown]
  · refine safe_store_writing .shadowStack ss (safe_store_writing .isRandomizing 0
      (safe_store_writing .cpuCycles 0 (safe_store_writing .relaxing 0
        (safe_store_writing .diff diff ?_))))
    refine safe_ret stable_writing fun m hm => ⟨_, ?_, hm⟩
    funext f
    cases f <;> simp [Function.update, initialMetadata]

/-- What an initialisation ends with: a region with no recorded slot, or none when the allocation
loop was cut off. -/
def Started (t : Tid) (r0 : Word) (done : Bool) (m : Machine) : Prop :=
  if done then ∃ ss, ThreadAt m t r0 ss fun _ => none else NoShadow m t

theorem safe_doInitShadowStack (hr0 : r0.toNat % 8 = 0) (hset : env.setGs = true)
    (fuel : Nat) :
    SafeAmong t env (Looking t none) (doInitShadowStack fuel r0 rspAlloc) (Started t r0) := by
  rw [doInitShadowStack]
  refine safe_bind (safe_allocateShadowStack fuel 0) fun addr => safe_of_fact fun haligned => ?_
  cases addr with
  | none => exact safe_ret (stable_looking none) fun m hm => hm.2
  | some ss =>
      simp only [store, perform, Prog.lift_bind, Prog.pure_eq]
      refine safe_bind (safe_initMetadataOnShadowStack (initDiff ss r0)) fun _ => ?_
      refine safe_exists fun md => safe_of_fact fun hmd => ?_
      refine safe_op (R := fun _ m => Writing t ss md m ∧ (m.threads t).gs = initDiff ss r0)
        stable_writing (fun _ _ => trivial) ?_ fun _ => ?_
      · rintro m ⟨hin, hregion⟩
        refine ⟨true, m.setThread t { m.threads t with gs := initDiff ss r0 }, ?_,
          ⟨?_, hregion⟩, ?_⟩
        · simp [exec, hset]
        · simpa using hin
        · simp
      · have hstable : Stable (Undisturbed t)
            fun m => Writing t ss md m ∧ (m.threads t).gs = initDiff ss r0 := by
          rintro m m' ⟨hw, hgs⟩ hund
          exact ⟨stable_writing m m' hw hund, by rw [hund.thread]; exact hgs⟩
        have hdone : Stable (Undisturbed t) (Started t r0 true) := by
          rintro m m' ⟨ss, hthread⟩ hund
          exact ⟨ss, hthread.of_undisturbed hund⟩
        refine safe_op (R := fun _ => Started t r0 true) hstable (fun _ _ => trivial) ?_
          fun _ => safe_ret hdone fun _ h => h
        rintro m ⟨⟨hin, hregion⟩, hgs⟩
        refine ⟨(), _, exec_store_owned (hregion.owned_field .state) flashStackInited, ss, ?_⟩
        have hstored := hregion.store_field .state flashStackInited
        rw [hmd] at hstored
        have hmd' : ∃ md', Coherent (m.withMem (storeN m.mem
            (Field.addr (getGsRspMetadataByShadowStack ss) .state) 8 flashStackInited.toNat)) t r0
            ss md' fun _ => 0 :=
          ⟨_, ⟨hstored, haligned ss rfl, hgs, hin⟩, rfl, rfl, rfl, rfl⟩
        obtain ⟨md', hcoherent⟩ := hmd'
        exact System.threadAt_of_coherent hcoherent hr0

/-- **The initialisation of a thread among other threads**, up to the region that it gets, or cut
off before it has one. -/
theorem safe_initShadowStack (hr0 : r0.toNat % 8 = 0) (hset : env.setGs = true) (fuel : Nat) :
    SafeAmong t env (fun m => (m.threads t).inited = false ∧ NoShadow m t)
      (initShadowStack fuel r0 rspAlloc) (Started t r0) := by
  have hstable : Stable (Undisturbed t) fun m => (m.threads t).inited = false ∧ NoShadow m t := by
    rintro m m' ⟨hin, hno⟩ hund
    exact ⟨by rw [hund.thread]; exact hin, stable_noShadow m m' hno hund⟩
  simp only [initShadowStack, perform, Prog.lift_bind, Prog.pure_eq]
  refine safe_op (R := fun inited m => inited = false ∧ (m.threads t).inited = false ∧
    NoShadow m t) hstable (fun _ _ => trivial) (fun m hm => ⟨_, m, rfl, hm.1, hm⟩)
    fun inited => safe_of_fact ?_
  rintro rfl
  rw [if_neg (by decide)]
  refine safe_op (R := fun _ => Looking t none) hstable (fun _ _ => trivial) ?_
    fun _ => safe_doInitShadowStack hr0 hset fuel
  rintro m ⟨-, hno⟩
  exact ⟨(), _, rfl, congrArg Thread.inited (m.setThread_self t _), hno⟩

end Init

end FlashStack.Runtime
