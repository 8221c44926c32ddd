/-
Signals inside `gs_rsp_runtime_rerandomize`.

A signal handler runs between two actions of the call, on the same thread: it stores and
loads shadow slots, writes memory, and may call `gs_rsp_runtime_rerandomize` itself. The
call goes through three phases, and a handler keeps each of them unless it falls into a
window that the code leaves open:

* `IdleAt ss`: nothing is claimed, the metadata describes the region at `ss`. A nested call
  may move the region, which is harmless unless the outer call already holds a pointer to
  it;
* `BusyAt ss fresh sh df`: `is_randomizing` is set, a nested call returns at once. The
  metadata says `sh` and `df`, which need not be where the region is;
* `Detached new`: the region is at `new` but the GS base is not. No access is possible.

`rerandomize_reentrant` is the result for handlers that stay out of the windows, in calls
below the stack pointer of the initialisation; `rerandomize_not_reentrant` is one that does
not.

Each phase has a lemma for every action of a handler and one for every action of the call;
the text of the call is then gone through once, with a rule for each action
(`withstands_busy`, …) in place of an equation between runs. `saved` are the slots of the
frames that were there before, which no handler overwrites, and what is in them at the end
is the point of the result.
-/

import FlashStack.Runtime.Atomicity

namespace FlashStack.Runtime

open Lib.Memory Lib.Program Lib.Events

/-! ### Handlers -/

/-- Run a handler: the actions of its functions, one after the other. Its own registers are of no
interest here. -/
def deliver (t : Tid) (h : List Action) (m : Machine) : Except Fault Machine :=
  runAll (fun a m => a.step t m) h m

/-- The slots of the interrupted functions lie above the frames of the handler, so that its
prologues do not overwrite them. -/
def Action.Spares (saved : Slots) : Action → Prop
  | .prologue rsp _ => saved rsp = none
  | _ => True

/-- A handler made of instrumented functions: its frames lie in the range of the
thread and spare the slots in `saved`. -/
def Handler (t : Tid) (r0 : Word) (saved : Slots) (h : List Action) (m : Machine) : Prop :=
  Along (fun a m => a.step t m) (fun a m => a.Allowed r0 m ∧ a.Spares saved) h m

/-- The accesses through `pMetadata`. A handler that moves the region just before one of them
makes the pointer stale. -/
def Op.isAccess : Op → Bool
  | .load _ => true
  | .store _ _ => true
  | _ => false

def Op.isSetGs : Op → Bool
  | .setGs _ => true
  | _ => false

/-- The windows, for one action of a handler delivered just before `op`: a nested call
completes the move it gets to, moves nothing just before an access through
`pMetadata`, and just before `arch_prctl(ARCH_SET_GS)` the handler stays off the
shadow stack. -/
structure Action.StaysOut (t : Tid) (op : Op) (a : Action) (m : Machine) : Prop where
  completes : a.Completes t m
  stays : op.isAccess = true → a.target t m = none
  quiet : op.isSetGs = true → a.isWrite = true

/-- What signals can do at a boundary: any number of actions of a handler, or nothing. -/
def Delivered (t : Tid) (r0 : Word) (saved : Slots) (_ : Op) (h : Option (List Action))
    (m : Machine) : Prop :=
  ∀ h' ∈ h, Handler t r0 saved h' m

/-- A boundary at which no window is entered. It is the condition under which a call is withstood.
-/
def OutsideWindows (t : Tid) (env : Env) (op : Op) (h : Option (List Action)) (m : Machine) :
    Prop :=
  (op.isSetGs = true → env.setGs = true) ∧
    ∀ h' ∈ h, Along (fun a m => a.step t m) (fun a m => a.StaysOut t op m) h' m

/-! ### The phases -/

/-- The values in `saved` are among the recorded ones: whatever a handler has stored, these slots
are as they were. -/
def Saved (saved slots : Slots) : Prop := ∀ rsp v, saved rsp = some v → slots rsp = some v

theorem Saved.record {saved slots : Slots} (h : Saved saved slots) {a : Action}
    (ha : a.Spares saved) : Saved saved (a.record slots) := by
  intro rsp v hv
  cases a with
  | prologue rsp' v' =>
      have hne : rsp ≠ rsp' := by
        rintro rfl
        rw [Action.Spares, hv] at ha
        cases ha
      rw [Action.record, Function.update_of_ne hne]
      exact h rsp v hv
  | epilogue _ => exact h rsp v hv
  | write _ _ _ => exact h rsp v hv
  | rerandomize _ _ _ => exact h rsp v hv

/-- The metadata while `is_randomizing` is set. Address and GS base may be those of the new region
already. -/
structure Claimed (md : Field → Word) (sh df : Word) : Prop where
  shadowStack : md .shadowStack = sh
  diff : md .diff = df
  isRandomizing : md .isRandomizing = 1
  state : md .state = flashStackInited

section Phases

variable (t : Tid) (r0 : Word) (saved : Slots)

def IdleAt (ss : Word) (m : Machine) : Prop :=
  ∃ slots, ThreadAt m t r0 ss slots ∧ Saved saved slots

def Idle (m : Machine) : Prop := ∃ ss, IdleAt t r0 saved ss m

def BusyAt (ss : Word) (fresh : Option Word) (sh df : Word) (m : Machine) : Prop :=
  ∃ md slots, StackAt m t r0 ss fresh md slots ∧ Claimed md sh df ∧ Saved saved slots

/-- The machine as it will be once the GS base follows the region to `new`. -/
def Machine.follow (m : Machine) (t : Tid) (r0 new : Word) : Machine :=
  m.setThread t { m.threads t with gs := initDiff new r0 }

def Detached (new : Word) (m : Machine) : Prop :=
  BusyAt t r0 saved new none new (initDiff new r0) (m.follow t r0 new)

end Phases

/-! ### Handlers keep the phases -/

section Handlers

variable {t : Tid} {r0 ss new sh df : Word} {saved : Slots} {fresh : Option Word} {m : Machine}
  {op : Op} {env : Env}

theorem IdleAt.act (h : IdleAt t r0 saved ss m) {a : Action} (ha : a.Allowed r0 m)
    (hspares : a.Spares saved) (hdone : a.Completes t m) :
    ∃ m', a.step t m = .ok m' ∧ IdleAt t r0 saved ((a.target t m).getD ss) m' := by
  obtain ⟨slots, hthread, hsaved⟩ := h
  obtain ⟨m', hstep, hthread', -⟩ := Action.step_thread hthread ha hdone
  exact ⟨m', hstep, _, hthread', hsaved.record hspares⟩

theorem BusyAt.act (h : BusyAt t r0 saved ss fresh sh df m) {a : Action}
    (ha : a.Allowed r0 m) (hspares : a.Spares saved) :
    ∃ m', a.step t m = .ok m' ∧ BusyAt t r0 saved ss fresh sh df m' := by
  obtain ⟨md, slots, hstack, hclaimed, hsaved⟩ := h
  cases a with
  | prologue rsp v =>
      obtain ⟨m', hstep, hstack', -⟩ := hstack.prologue ha v
      exact ⟨m', hstep, md, _, hstack', hclaimed, hsaved.record hspares⟩
  | epilogue rsp => exact ⟨m, hstack.epilogue ha, md, slots, hstack, hclaimed, hsaved⟩
  | write addr n v =>
      obtain ⟨m', hstep, hall, -⟩ := StackAt.write (t := t) ha v
      exact ⟨m', hstep, md, slots, hstack.of_undisturbed (hall t), hclaimed, hsaved⟩
  | rerandomize rsp rspAlloc env =>
      obtain ⟨content, hm⟩ := hstack.anchored
      have hbusy : md .isRandomizing ≠ 0 := by
        rw [hclaimed.isRandomizing]
        decide
      have hrun : run (exec t env) (gsRspRuntimeRerandomize rsp rspAlloc) m = .ok ((), m) :=
        run_busy hm ha hclaimed.state hbusy
      exact ⟨m, by rw [Action.step, hrun], md, slots, hstack, hclaimed, hsaved⟩

/-- A write does not care where the GS base points. Nothing else is allowed between `mremap` and
`arch_prctl(ARCH_SET_GS)`. -/
theorem Detached.act (h : Detached t r0 saved new m) {a : Action} (ha : a.Allowed r0 m)
    (hquiet : a.isWrite = true) :
    ∃ m', a.step t m = .ok m' ∧ Detached t r0 saved new m' := by
  obtain ⟨md, slots, hstack, hclaimed, hsaved⟩ := h
  cases a with
  | write addr n v =>
      refine ⟨_, rfl, md, slots, hstack.of_undisturbed ⟨?_, ?_⟩, hclaimed, hsaved⟩
      · exact kept_write (m := m) ha t
      · simp [Machine.follow]
  | prologue _ _ => cases hquiet
  | epilogue _ => cases hquiet
  | rerandomize _ _ _ => cases hquiet

theorem IdleAt.deliver (h : IdleAt t r0 saved ss m) {hs : List Action}
    (hh : Delivered t r0 saved op (some hs) m) (hout : OutsideWindows t env op (some hs) m)
    (hop : op.isAccess = true) :
    ∃ m', deliver t hs m = .ok m' ∧ IdleAt t r0 saved ss m' := by
  refine run_keeps (fun a m hm hc => ?_) h ((hh hs rfl).and (hout.2 hs rfl))
  obtain ⟨m', hstep, hidle⟩ := hm.act hc.1.1 hc.1.2 hc.2.completes
  rw [hc.2.stays hop] at hidle
  exact ⟨m', hstep, hidle⟩

theorem Idle.deliver (h : Idle t r0 saved m) {hs : List Action}
    (hh : Delivered t r0 saved op (some hs) m) (hout : OutsideWindows t env op (some hs) m) :
    ∃ m', deliver t hs m = .ok m' ∧ Idle t r0 saved m' := by
  refine run_keeps (fun a m hm hc => ?_) h ((hh hs rfl).and (hout.2 hs rfl))
  obtain ⟨ss, hidle⟩ := hm
  obtain ⟨m', hstep, hidle'⟩ := hidle.act hc.1.1 hc.1.2 hc.2.completes
  exact ⟨m', hstep, _, hidle'⟩

theorem BusyAt.deliver (h : BusyAt t r0 saved ss fresh sh df m) {hs : List Action}
    (hh : Delivered t r0 saved op (some hs) m) :
    ∃ m', deliver t hs m = .ok m' ∧ BusyAt t r0 saved ss fresh sh df m' :=
  run_keeps (fun _ _ hm hc => hm.act hc.1 hc.2) h (hh hs rfl)

theorem Detached.deliver (h : Detached t r0 saved new m) {hs : List Action}
    (hh : Delivered t r0 saved op (some hs) m) (hout : OutsideWindows t env op (some hs) m)
    (hop : op.isSetGs = true) :
    ∃ m', deliver t hs m = .ok m' ∧ Detached t r0 saved new m' := by
  refine run_keeps (fun a m hm hc => ?_) h ((hh hs rfl).and (hout.2 hs rfl))
  exact hm.act hc.1.1 (hc.2.quiet hop)

end Handlers

/-! ### The actions of the call, phase by phase -/

section Actions

variable {t : Tid} {r0 ss new sh df : Word} {saved : Slots} {fresh : Option Word}
  {m : Machine} {env : Env} {md : Field → Word} {slots : Slots}

theorem StackAt.exec_load (h : StackAt m t r0 ss fresh md slots) (f : Field) :
    exec t env (.load (f.addr (getGsRspMetadataByShadowStack ss))) m = .ok (md f, m) := by
  obtain ⟨content, hm⟩ := h.anchored
  exact exec_load_owned (hm.region.owned_field f) (hm.region.fields f)

theorem StackAt.exec_store (h : StackAt m t r0 ss fresh md slots) (f : Field) (v : Word) :
    ∃ m', exec t env (.store (f.addr (getGsRspMetadataByShadowStack ss)) v) m = .ok ((), m') ∧
      StackAt m' t r0 ss fresh (Function.update md f v) slots := by
  obtain ⟨content, hm⟩ := h.anchored
  refine ⟨_, exec_store_owned (hm.region.owned_field f) v, ?_⟩
  exact h.of_content hm.region ⟨hm.region.store_field f v, hm.aligned, hm.gs, hm.inited⟩

theorem BusyAt.exec_load (h : BusyAt t r0 saved ss fresh sh df m) (f : Field) :
    ∃ v, exec t env (.load (f.addr (getGsRspMetadataByShadowStack ss))) m = .ok (v, m) ∧
      (∃ md, Claimed md sh df ∧ v = md f) ∧ BusyAt t r0 saved ss fresh sh df m := by
  obtain ⟨md, slots, hstack, hclaimed, hsaved⟩ := h
  exact ⟨md f, hstack.exec_load f, ⟨md, hclaimed, rfl⟩, md, slots, hstack, hclaimed, hsaved⟩

/-- A store that leaves the metadata claimed. -/
theorem BusyAt.exec_store {sh' df' : Word} (h : BusyAt t r0 saved ss fresh sh df m) (f : Field)
    (v : Word)
    (hclaimed' : ∀ md, Claimed md sh df → Claimed (Function.update md f v) sh' df') :
    ∃ r m', exec t env (.store (f.addr (getGsRspMetadataByShadowStack ss)) v) m = .ok (r, m') ∧
      BusyAt t r0 saved ss fresh sh' df' m' := by
  obtain ⟨md, slots, hstack, hclaimed, hsaved⟩ := h
  obtain ⟨m', hexec, hstack'⟩ := hstack.exec_store f v
  exact ⟨(), m', hexec, _, slots, hstack', hclaimed' md hclaimed, hsaved⟩

/-- Giving up the claim, once the metadata describes the region again. -/
theorem BusyAt.exec_unclaim (h : BusyAt t r0 saved ss none ss (initDiff ss r0) m) :
    ∃ r m', exec t env
        (.store (Field.isRandomizing.addr (getGsRspMetadataByShadowStack ss)) 0) m =
        .ok (r, m') ∧ IdleAt t r0 saved ss m' := by
  obtain ⟨md, slots, hstack, hclaimed, hsaved⟩ := h
  obtain ⟨m', hexec, hstack'⟩ := hstack.exec_store .isRandomizing 0
  refine ⟨(), m', hexec, slots, ⟨_, hstack', ⟨?_, ?_, ?_, ?_⟩⟩, hsaved⟩
  · simp [Function.update, hclaimed.shadowStack]
  · simp [Function.update, hclaimed.diff]
  · simp [Function.update]
  · simp [Function.update, hclaimed.state]

/-- Taking the claim. -/
theorem IdleAt.exec_claim (h : IdleAt t r0 saved ss m) :
    ∃ r m', exec t env
        (.store (Field.isRandomizing.addr (getGsRspMetadataByShadowStack ss)) 1) m =
        .ok (r, m') ∧ BusyAt t r0 saved ss none ss (initDiff ss r0) m' := by
  obtain ⟨slots, ⟨md, hstack, hdesc⟩, hsaved⟩ := h
  obtain ⟨m', hexec, hstack'⟩ := hstack.exec_store .isRandomizing 1
  refine ⟨(), m', hexec, _, slots, hstack', ⟨?_, ?_, ?_, ?_⟩, hsaved⟩
  · simp [Function.update, hdesc.shadowStack]
  · simp [Function.update, hdesc.diff]
  · simp [Function.update]
  · simp [Function.update, hdesc.state]

theorem StackAt.bump (h : StackAt m t r0 ss fresh md slots) (c : Counter) (v : Word) :
    StackAt (m.bump c v) t r0 ss fresh md slots :=
  h.of_undisturbed ⟨Kept.refl t m.mem, rfl⟩

theorem BusyAt.bump (h : BusyAt t r0 saved ss fresh sh df m) (c : Counter) (v : Word) :
    BusyAt t r0 saved ss fresh sh df (m.bump c v) := by
  obtain ⟨md, slots, hstack, hclaimed, hsaved⟩ := h
  exact ⟨md, slots, hstack.bump c v, hclaimed, hsaved⟩

theorem Idle.bump (h : Idle t r0 saved m) (c : Counter) (v : Word) :
    Idle t r0 saved (m.bump c v) := by
  obtain ⟨ss, slots, ⟨md, hstack, hdesc⟩, hsaved⟩ := h
  exact ⟨ss, slots, ⟨md, hstack.bump c v, hdesc⟩, hsaved⟩

/-- `mmap` fails, or maps a fresh region. -/
theorem BusyAt.exec_mmap (h : BusyAt t r0 saved ss none sh df m) (call i : Nat) (hint : Word) :
    ∃ r m', exec t env (.mmap call i hint realShadowStackSize) m = .ok (r, m') ∧
      BusyAt t r0 saved ss r sh df m' := by
  obtain ⟨md, slots, hstack, hclaimed, hsaved⟩ := h
  obtain ⟨content, hm⟩ := hstack.anchored
  have hbusy : BusyAt t r0 saved ss none sh df m := ⟨md, slots, hstack, hclaimed, hsaved⟩
  refine ⟨_, _, rfl, ?_⟩
  cases hmmap : env.mmap call i with
  | none => exact hbusy
  | some a =>
      by_cases hok : a.toNat + realShadowStackSize ≤ 2 ^ 64 ∧ Free m.mem a realShadowStackSize
      · simp only [if_pos hok]
        exact ⟨md, slots, hstack.of_content hm.region
          ⟨hm.region.map_fresh hok.2, hm.aligned, hm.gs, hm.inited⟩, hclaimed, hsaved⟩
      · simp only [if_neg hok]
        exact hbusy

theorem BusyAt.exec_munmap (h : BusyAt t r0 saved ss (some new) sh df m) :
    ∃ r m', exec t env (.munmap new realShadowStackSize) m = .ok (r, m') ∧
      BusyAt t r0 saved ss none sh df m' := by
  obtain ⟨md, slots, hstack, hclaimed, hsaved⟩ := h
  obtain ⟨content, hm⟩ := hstack.anchored
  exact ⟨(), _, rfl, md, slots, hstack.of_content hm.region
    ⟨hm.region.unmap_fresh, hm.aligned, hm.gs, hm.inited⟩, hclaimed, hsaved⟩

/-- `mremap` fails, or leaves the region where the GS base does not point yet. -/
theorem BusyAt.exec_mremap (h : BusyAt t r0 saved ss (some new) new (initDiff new r0) m)
    (haligned : new.toNat % 2 ^ 23 = 0) :
    ∃ r m', exec t env (.mremap ss realShadowStackSize new) m = .ok (r, m') ∧
      match r with
      | none => BusyAt t r0 saved ss (some new) new (initDiff new r0) m'
      | some a => a = new ∧ Detached t r0 saved new m' := by
  obtain ⟨md, slots, hstack, hclaimed, hsaved⟩ := h
  obtain ⟨content, hm⟩ := hstack.anchored
  cases hmremap : env.mremap with
  | false =>
      refine ⟨none, m, ?_, md, slots, hstack, hclaimed, hsaved⟩
      simp [exec, Machine.mremap, hmremap]
  | true =>
      refine ⟨some new, m.withMem (remap m.mem ss new realShadowStackSize), ?_, rfl, md, slots,
        ?_, hclaimed, hsaved⟩
      · simp [exec, Machine.mremap, hmremap, hm.region.owned_all.mapped]
      · refine hstack.of_content hm.region ⟨hm.region.move, haligned, ?_, ?_⟩
        · simp [Machine.follow]
        · simpa [Machine.follow] using hm.inited

theorem Detached.exec_setGs (h : Detached t r0 saved new m) (hset : env.setGs = true) :
    ∃ r m', exec t env (.setGs (initDiff new r0)) m = .ok (r, m') ∧
      r = true ∧ BusyAt t r0 saved new none new (initDiff new r0) m' :=
  ⟨true, m.follow t r0 new, by simp [exec, hset, Machine.follow], rfl, h⟩

end Actions

/-! ### The call withstands its signals -/

section Withstand

/-- A boundary where a handler may run and stays out of the windows. -/
def Boundary (t : Tid) (r0 : Word) (saved : Slots) (env : Env) (op : Op)
    (h : Option (List Action)) (m : Machine) : Prop :=
  Delivered t r0 saved op h m ∧ OutsideWindows t env op h m

variable {t : Tid} {r0 ss new sh df rspAlloc start : Word} {saved : Slots} {fresh : Option Word}
  {env : Env} {α : Type} {Q : α → Machine → Prop}

theorem withstands_busy {op : Op} {k : op.Res → Program α} {R : op.Res → Machine → Prop}
    (hexec : ∀ m, BusyAt t r0 saved ss fresh sh df m →
      ∃ r m', exec t env op m = .ok (r, m') ∧ R r m')
    (hrest : ∀ r, Withstands (exec t env) (deliver t) (Boundary t r0 saved env) (R r) (k r) Q) :
    Withstands (exec t env) (deliver t) (Boundary t r0 saved env)
      (BusyAt t r0 saved ss fresh sh df) (.act op k) Q :=
  withstands_act (fun _ _ hm hallowed => hm.deliver hallowed.1) (fun m _ _ hm _ => hexec m hm)
    hrest

theorem withstands_idle {op : Op} {k : op.Res → Program α} {R : op.Res → Machine → Prop}
    (hexec : ∀ m, Idle t r0 saved m → ∃ r m', exec t env op m = .ok (r, m') ∧ R r m')
    (hrest : ∀ r, Withstands (exec t env) (deliver t) (Boundary t r0 saved env) (R r) (k r) Q) :
    Withstands (exec t env) (deliver t) (Boundary t r0 saved env) (Idle t r0 saved)
      (.act op k) Q :=
  withstands_act (fun _ _ hm hallowed => hm.deliver hallowed.1 hallowed.2)
    (fun m _ _ hm _ => hexec m hm) hrest

/-- Just before an access, a handler leaves the region where it is. -/
theorem withstands_idleAt {op : Op} {k : op.Res → Program α} {R : op.Res → Machine → Prop}
    (hop : op.isAccess = true)
    (hexec : ∀ m, IdleAt t r0 saved ss m → ∃ r m', exec t env op m = .ok (r, m') ∧ R r m')
    (hrest : ∀ r, Withstands (exec t env) (deliver t) (Boundary t r0 saved env) (R r) (k r) Q) :
    Withstands (exec t env) (deliver t) (Boundary t r0 saved env) (IdleAt t r0 saved ss)
      (.act op k) Q :=
  withstands_act (fun _ _ hm hallowed => hm.deliver hallowed.1 hallowed.2 hop)
    (fun m _ _ hm _ => hexec m hm) hrest

theorem withstands_count_busy {k : Unit → Program α} (c : Counter) (v : Word)
    (hrest : Withstands (exec t env) (deliver t) (Boundary t r0 saved env)
      (BusyAt t r0 saved ss fresh sh df) (k ()) Q) :
    Withstands (exec t env) (deliver t) (Boundary t r0 saved env)
      (BusyAt t r0 saved ss fresh sh df) (.act (.count c v) k) Q :=
  withstands_busy (fun m hm => ⟨(), m.bump c v, rfl, hm.bump c v⟩) fun _ => hrest

theorem withstands_count_idle {k : Unit → Program α} (c : Counter) (v : Word)
    (hrest : Withstands (exec t env) (deliver t) (Boundary t r0 saved env) (Idle t r0 saved)
      (k ()) Q) :
    Withstands (exec t env) (deliver t) (Boundary t r0 saved env) (Idle t r0 saved)
      (.act (.count c v) k) Q :=
  withstands_idle (fun m hm => ⟨(), m.bump c v, rfl, hm.bump c v⟩) fun _ => hrest

/-- A load from the claimed metadata. -/
theorem withstands_load_busy {k : Word → Program α} (f : Field)
    (hrest : ∀ md, Claimed md sh df →
      Withstands (exec t env) (deliver t) (Boundary t r0 saved env)
        (BusyAt t r0 saved ss fresh sh df) (k (md f)) Q) :
    Withstands (exec t env) (deliver t) (Boundary t r0 saved env)
      (BusyAt t r0 saved ss fresh sh df)
      (.act (.load (f.addr (getGsRspMetadataByShadowStack ss))) k) Q := by
  refine withstands_busy (R := fun v m => (∃ md, Claimed md sh df ∧ v = md f) ∧
    BusyAt t r0 saved ss fresh sh df m) (fun m hm => ?_) fun v => withstands_of_fact ?_
  · obtain ⟨v, hexec, hv⟩ := hm.exec_load f
    exact ⟨v, m, hexec, hv⟩
  · rintro ⟨md, hclaimed, rfl⟩
    exact hrest md hclaimed

/-- The end of the call. -/
theorem withstands_randExit :
    Withstands (exec t env) (deliver t) (Boundary t r0 saved env)
      (BusyAt t r0 saved ss none ss (initDiff ss r0))
      (randExit (getGsRspMetadataByShadowStack ss) start) fun _ => Idle t r0 saved := by
  simp only [randExit, store, syncFetchAndAdd, rdtsc, perform, Prog.lift_bind]
  refine withstands_busy (R := fun _ => Idle t r0 saved) (fun m hm => ?_) fun _ => ?_
  · obtain ⟨r, m', hexec, hidle⟩ := hm.exec_unclaim
    exact ⟨r, m', hexec, ss, hidle⟩
  · -- from here on the region may move again
    refine withstands_count_idle .totalRand 1 ?_
    refine withstands_idle (R := fun _ => Idle t r0 saved) (fun m hm => ⟨_, m, rfl, hm⟩)
      fun finish => ?_
    exact withstands_count_idle .cpuCycles (finish - start) (withstands_ret fun _ h => h)

/-- The roll-back returns to the claimed metadata of the region that did not move. -/
theorem withstands_rollBack :
    Withstands (exec t env) (deliver t) (Boundary t r0 saved env)
      (BusyAt t r0 saved ss (some new) new (initDiff new r0))
      (rollBack (getGsRspMetadataByShadowStack ss) ss new (new - ss))
      fun _ => BusyAt t r0 saved ss none ss (initDiff ss r0) := by
  have hback : initDiff new r0 - (new - ss) = initDiff ss r0 := by
    unfold initDiff
    grind
  simp only [rollBack, syncFetchAndAdd, store, load, munmap, perform, Prog.lift_bind]
  refine withstands_count_busy .failRand 1 ?_
  refine withstands_busy (R := fun _ => BusyAt t r0 saved ss (some new) ss (initDiff new r0))
    (fun m hm => hm.exec_store .shadowStack ss fun md h => ?_) fun _ => ?_
  · exact ⟨rfl, h.diff, h.isRandomizing, h.state⟩
  refine withstands_load_busy .diff fun md h => ?_
  rw [h.diff, hback]
  refine withstands_busy (R := fun _ => BusyAt t r0 saved ss (some new) ss (initDiff ss r0))
    (fun m hm => hm.exec_store .diff (initDiff ss r0) fun md h => ?_) fun _ => ?_
  · exact ⟨h.shadowStack, rfl, h.isRandomizing, h.state⟩
  exact withstands_busy (R := fun _ => BusyAt t r0 saved ss none ss (initDiff ss r0))
    (fun m hm => hm.exec_munmap) fun _ => withstands_ret fun _ h => h

/-- `mremap` and what follows it. -/
theorem withstands_afterMremap (haligned : new.toNat % 2 ^ 23 = 0) :
    Withstands (exec t env) (deliver t) (Boundary t r0 saved env)
      (BusyAt t r0 saved ss (some new) new (initDiff new r0))
      (.act (.mremap ss realShadowStackSize new) fun moved =>
        afterMremap (getGsRspMetadataByShadowStack ss) ss new (new - ss) (initDiff new r0) start
          moved) fun _ => Idle t r0 saved := by
  refine withstands_busy (fun m hm => hm.exec_mremap haligned) fun moved => ?_
  cases moved with
  | none => exact withstands_bind withstands_rollBack fun _ => withstands_randExit
  | some a =>
      refine withstands_of_fact ?_
      rintro rfl
      simp only [afterMremap, perform, Prog.lift_bind]
      -- until `arch_prctl`, nothing but writes outside the shadow stack is possible
      refine withstands_act (R := fun r m => r = true ∧
        BusyAt t r0 saved a none a (initDiff a r0) m)
        (fun h m hm hallowed => hm.deliver hallowed.1 hallowed.2 rfl)
        (fun m h m₀ hm hallowed => hm.exec_setGs (hallowed.2.1 rfl)) fun r => ?_
      refine withstands_of_fact ?_
      rintro rfl
      exact withstands_randExit

theorem withstands_moveShadowStack (haligned : new.toNat % 2 ^ 23 = 0) :
    Withstands (exec t env) (deliver t) (Boundary t r0 saved env)
      (BusyAt t r0 saved ss (some new) ss (initDiff ss r0))
      (moveShadowStack (getGsRspMetadataByShadowStack ss) new start) fun _ => Idle t r0 saved := by
  simp only [moveShadowStack, load, store, munmap, perform, Prog.lift_bind]
  refine withstands_load_busy .shadowStack fun md h => ?_
  rw [h.shadowStack]
  refine withstands_load_busy .diff fun md h => ?_
  rw [h.diff, initDiff_add]
  cases hout : diffOutOfRange (initDiff new r0) with
  | true =>
      rw [if_pos rfl]
      exact withstands_busy (R := fun _ => BusyAt t r0 saved ss none ss (initDiff ss r0))
        (fun m hm => hm.exec_munmap) fun _ => withstands_randExit
  | false =>
      rw [if_neg (by decide)]
      refine withstands_load_busy .shadowStack fun md h => ?_
      rw [h.shadowStack]
      refine withstands_busy (R := fun _ => BusyAt t r0 saved ss (some new) new (initDiff ss r0))
        (fun m hm => hm.exec_store .shadowStack new fun md h => ?_) fun _ => ?_
      · exact ⟨rfl, h.diff, h.isRandomizing, h.state⟩
      refine withstands_busy (R := fun _ => BusyAt t r0 saved ss (some new) new (initDiff new r0))
        (fun m hm => hm.exec_store .diff (initDiff new r0) fun md h => ?_) fun _ => ?_
      · exact ⟨h.shadowStack, rfl, h.isRandomizing, h.state⟩
      exact withstands_afterMremap haligned

/-- Each attempt ends without a region, or with a fresh one that the runtime accepts. -/
theorem withstands_getMemoryAtRandomLoop (call : Nat) (adjustedRsp : Word) (fuel i : Nat) :
    Withstands (exec t env) (deliver t) (Boundary t r0 saved env)
      (BusyAt t r0 saved ss none sh df)
      (getMemoryAtRandomLoop call adjustedRsp realShadowStackSize fuel i) fun out m =>
        (∀ new ∈ out.1, new.toNat % 2 ^ 23 = 0) ∧ BusyAt t r0 saved ss out.1 sh df m := by
  have hfailed : ∀ i, Withstands (exec t env) (deliver t) (Boundary t r0 saved env)
      (BusyAt t r0 saved ss none sh df) (.ret (none, i) : Program (Option Word × Nat))
      fun out m => (∀ new ∈ out.1, new.toNat % 2 ^ 23 = 0) ∧
        BusyAt t r0 saved ss out.1 sh df m :=
    fun i => withstands_ret fun m hm => ⟨by simp, hm⟩
  induction fuel generalizing i with
  | zero => exact hfailed i
  | succ fuel ih =>
      simp only [getMemoryAtRandomLoop, munmap, perform, Prog.lift_bind]
      refine withstands_busy (R := fun _ => BusyAt t r0 saved ss none sh df)
        (fun m hm => ⟨_, m, rfl, hm⟩) fun x => ?_
      by_cases hlast : i > spaMaxMmapAttempts
      · rw [if_pos hlast]
        exact hfailed i
      · rw [if_neg hlast]
        refine withstands_busy (fun m hm => hm.exec_mmap call i _) fun addr => ?_
        cases addr with
        | none => exact ih (i + 1)
        | some a =>
            simp only
            cases hrej : rejected adjustedRsp a with
            | true =>
                rw [if_pos rfl]
                exact withstands_busy (R := fun _ => BusyAt t r0 saved ss none sh df)
                  (fun m hm => hm.exec_munmap) fun _ => ih (i + 1)
            | false =>
                rw [if_neg (by decide)]
                refine withstands_ret fun m hm => ⟨?_, hm⟩
                rintro _ ⟨⟩
                exact (accepted_iff.mp hrej).1

theorem withstands_getMemoryAtRandom (call : Nat) (rsp : Word) :
    Withstands (exec t env) (deliver t) (Boundary t r0 saved env)
      (BusyAt t r0 saved ss none sh df)
      (getMemoryAtRandom call rsp realShadowStackSize false) fun addr m =>
        (∀ new ∈ addr, new.toNat % 2 ^ 23 = 0) ∧ BusyAt t r0 saved ss addr sh df m := by
  rw [getMemoryAtRandom]
  refine withstands_bind (withstands_getMemoryAtRandomLoop call _ _ 0) ?_
  rintro ⟨addr, i⟩
  refine withstands_of_fact fun haligned => ?_
  have hdone : Withstands (exec t env) (deliver t) (Boundary t r0 saved env)
      (BusyAt t r0 saved ss addr sh df) (.ret addr : Program (Option Word)) fun addr m =>
        (∀ new ∈ addr, new.toNat % 2 ^ 23 = 0) ∧ BusyAt t r0 saved ss addr sh df m :=
    withstands_ret fun m hm => ⟨haligned, hm⟩
  by_cases hi : i < spaMaxMmapAttempts
  · simp only [hi, if_true, Bool.not_false, syncFetchAndAdd, perform, Prog.lift_bind,
      Prog.pure_eq]
    exact withstands_count_busy _ _ hdone
  · simp only [hi, if_false, syncFetchAndAdd, perform, Prog.lift_bind, Prog.pure_eq]
    exact withstands_count_busy _ _ hdone

theorem withstands_rerandomizeClaimed :
    Withstands (exec t env) (deliver t) (Boundary t r0 saved env)
      (BusyAt t r0 saved ss none ss (initDiff ss r0))
      (rerandomizeClaimed (getGsRspMetadataByShadowStack ss) rspAlloc start)
      fun _ => Idle t r0 saved := by
  simp only [rerandomizeClaimed, load, store, rdtsc, perform, Prog.lift_bind]
  refine withstands_load_busy .cpuCycles fun md _ => ?_
  refine withstands_busy (R := fun _ => BusyAt t r0 saved ss none ss (initDiff ss r0))
    (fun m hm => ⟨_, m, rfl, hm⟩) fun curClocks => ?_
  split
  · refine withstands_busy (R := fun _ => Idle t r0 saved) (fun m hm => ?_) fun _ =>
      withstands_ret fun _ h => h
    obtain ⟨r, m', hexec, hidle⟩ := hm.exec_unclaim
    exact ⟨r, m', hexec, ss, hidle⟩
  · refine withstands_busy (R := fun _ => BusyAt t r0 saved ss none ss (initDiff ss r0))
      (fun m hm => hm.exec_store .cpuCycles curClocks fun md h => ?_) fun _ => ?_
    · exact ⟨h.shadowStack, h.diff, h.isRandomizing, h.state⟩
    refine withstands_bind (withstands_getMemoryAtRandom 0 rspAlloc) fun placed => ?_
    refine withstands_of_fact fun haligned => ?_
    cases placed with
    | some new => exact withstands_moveShadowStack (haligned new rfl)
    | none =>
        simp only [afterPlacement, syncFetchAndAdd, perform, Prog.lift_bind]
        exact withstands_count_busy .failRand 1 withstands_randExit

/-- With the pointer to the metadata in hand, up to the claim, the region must stay. -/
theorem withstands_rerandomizeFound :
    Withstands (exec t env) (deliver t) (Boundary t r0 saved env) (IdleAt t r0 saved ss)
      (rerandomizeFound (getGsRspMetadataByShadowStack ss) rspAlloc start)
      fun _ => Idle t r0 saved := by
  have hdone : Withstands (exec t env) (deliver t) (Boundary t r0 saved env)
      (IdleAt t r0 saved ss) (.ret () : Program Unit) fun _ => Idle t r0 saved :=
    withstands_ret fun m hm => ⟨ss, hm⟩
  have hload : ∀ f m, IdleAt t r0 saved ss m → ∃ r m',
      exec t env (.load (Field.addr (getGsRspMetadataByShadowStack ss) f)) m = .ok (r, m') ∧
        IdleAt t r0 saved ss m' := by
    rintro f m ⟨slots, ⟨md, hstack, hdesc⟩, hsaved⟩
    exact ⟨md f, m, hstack.exec_load f, slots, ⟨md, hstack, hdesc⟩, hsaved⟩
  simp only [rerandomizeFound, load, store, perform, Prog.lift_bind, Prog.pure_eq]
  refine withstands_idleAt (R := fun _ => IdleAt t r0 saved ss) rfl (hload .state) fun state => ?_
  split
  · exact hdone
  refine withstands_idleAt (R := fun _ => IdleAt t r0 saved ss) rfl (hload .isRandomizing)
    fun isRandomizing => ?_
  split
  · exact hdone
  exact withstands_idleAt (R := fun _ => BusyAt t r0 saved ss none ss (initDiff ss r0)) rfl
    (fun m hm => hm.exec_claim) fun _ => withstands_rerandomizeClaimed

/-- The whole call, from the reading of the clock to the counting at its end. -/
theorem withstands_rerandomize {rsp : Word} (hrsp : BelowStart r0 rsp) :
    Withstands (exec t env) (deliver t) (Boundary t r0 saved env) (Idle t r0 saved)
      (gsRspRuntimeRerandomize rsp rspAlloc) fun _ => Idle t r0 saved := by
  simp only [gsRspRuntimeRerandomize, getGsRspMetadataByRsp, rdtsc, perform, Prog.lift_bind,
    Prog.pure_eq]
  refine withstands_idle (R := fun _ => Idle t r0 saved) (fun m hm => ⟨_, m, rfl, hm⟩)
    fun start => ?_
  refine withstands_idle (R := fun _ => Idle t r0 saved) (fun m hm => ⟨_, m, rfl, hm⟩)
    fun inited => ?_
  split
  · exact withstands_ret fun _ h => h
  -- the answer of `arch_prctl(ARCH_GET_GS)` tells where the region is
  refine withstands_idle (R := fun gs m => ∃ ss, (∀ base, gs = some base →
    shadowStackByRsp rsp base = ss) ∧ IdleAt t r0 saved ss m) (fun m hm => ?_) fun gs => ?_
  · obtain ⟨ss, slots, hthread, hsaved⟩ := hm
    obtain ⟨md, content, hc⟩ := hthread.coherent
    cases hget : env.getGs with
    | false =>
        exact ⟨none, m, by simp [exec, hget], ss, fun _ h => absurd h (by simp), slots,
          hthread, hsaved⟩
    | true =>
        refine ⟨some (initDiff ss r0), m, by simp [exec, hget, hc.gs], ss, ?_, slots, hthread,
          hsaved⟩
        intro base hbase
        obtain rfl := Option.some.inj hbase
        exact shadowStackByRsp_initDiff hc.aligned hrsp
  · cases gs with
    | none => exact withstands_ret fun m hm => hm.imp fun _ h => h.2
    | some gs =>
        refine Withstands.pre withstands_rerandomizeFound ?_
        rintro m ⟨ss, hss, hidle⟩
        exact (hss gs rfl).symm ▸ hidle

end Withstand

/-! ### Reentrancy -/

/-- Interrupted by the handlers `hs`, one at each boundary, the call makes no access to
an unmapped or foreign address, and returns with GS base and metadata describing the
one region, which holds the slots in `saved`. -/
def Reentrant (t : Tid) (r0 : Word) (saved : Slots) (env : Env) (rsp rspAlloc : Word)
    (hs : List (List Action)) (m : Machine) : Prop :=
  ∃ hs' m', run (interrupted (exec t env) (deliver t)) (gsRspRuntimeRerandomize rsp rspAlloc)
      (hs, m) = .ok ((), hs', m') ∧
    (∃ ss, m'.OneRegion t r0 ss) ∧
    ∀ rsp v, saved rsp = some v → epilogueLoad m' t rsp = .ok v

/-- **Reentrancy.** Every schedule of handlers that stays out of the windows: the call and the
handlers do not fault, and the saved slots keep their words. -/
theorem rerandomize_reentrant {t : Tid} {r0 ss rsp rspAlloc : Word} {saved slots : Slots}
    {env : Env} {m : Machine} (hthread : ThreadAt m t r0 ss slots) (hsaved : Saved saved slots)
    (hrsp : BelowStart r0 rsp) {hs : List (List Action)}
    (hmeets : Meets (exec t env) (deliver t) (Boundary t r0 saved env)
      (gsRspRuntimeRerandomize rsp rspAlloc) hs m) :
    Reentrant t r0 saved env rsp rspAlloc hs m := by
  obtain ⟨a, hs', m', hrun, ss', slots', hthread', hsaved'⟩ :=
    withstands_rerandomize hrsp hs m ⟨ss, slots, hthread, hsaved⟩ hmeets
  obtain ⟨md, content, hc⟩ := hthread'.coherent
  obtain ⟨md', hstack, -⟩ := hthread'
  exact ⟨hs', m', hrun, ⟨ss', hc.oneRegion⟩, fun rsp v hv =>
    hstack.epilogueLoad_eq (hsaved' rsp v hv)⟩

theorem boundary_none {t : Tid} {r0 : Word} {saved : Slots} {env : Env} (hset : env.setGs = true)
    (op : Op) (m : Machine) : Boundary t r0 saved env op none m :=
  ⟨by simp [Delivered], fun _ => hset, by simp⟩

/-- A handler that calls a function and returns from it. -/
theorem rerandomize_reentrant_call :
    Reentrant 0 0x7FFFFFFFE000 (fun _ => none) (System.willing 0x20000000) 0x7FFFFFFFB000
      0x7FFFFFFFA000 [[.prologue 0x7FFFFFFF9000 0x401234, .epilogue 0x7FFFFFFF9000]]
      (Machine.started 0 0x7FFFFFFFE000 0x10000000) := by
  have hslot : HasSlot 0x7FFFFFFFE000 0x7FFFFFFF9000 := ⟨by decide, by decide⟩
  have hthread : ThreadAt (Machine.started 0 0x7FFFFFFFE000 0x10000000) 0 0x7FFFFFFFE000
      0x10000000 fun _ => none :=
    System.threadAt_of_coherent (started_coherent _ _ (by decide)) (by decide)
  refine rerandomize_reentrant hthread (fun _ _ h => h) (by decide) ⟨⟨?_, fun _ => rfl, ?_⟩,
    fun m₁ _ r m₂ _ => meets_nil (boundary_none rfl) _ m₂⟩
  · rintro _ ⟨⟩
    exact ⟨⟨hslot, rfl⟩, fun m _ => ⟨⟨hslot, trivial⟩, fun _ _ => trivial⟩⟩
  · have hout : ∀ (a : Action) m, a.Completes 0 m →
        a.StaysOut 0 (.rdtsc .start) m :=
      fun a m hdone => ⟨hdone, by simp [Op.isAccess], by simp [Op.isSetGs]⟩
    rintro _ ⟨⟩
    exact ⟨hout _ _ trivial, fun m _ => ⟨hout _ _ trivial, fun _ _ => trivial⟩⟩

/-- A boundary where no action of a handler is delivered. -/
theorem interrupted_quiet {t : Tid} {env : Env} {op : Op} {r : op.Res} {m m' : Machine}
    (hexec : exec t env op m = .ok (r, m')) (hs : List (List Action)) :
    interrupted (exec t env) (deliver t) op ([] :: hs, m) = .ok (r, hs, m') := by
  simp only [interrupted, deliver, runAll_nil, hexec]

theorem meets_quiet {t : Tid} {env : Env} {r0 : Word} {saved : Slots} {op : Op} {r : op.Res}
    {k : op.Res → Program Unit} {m m' : Machine} (hexec : exec t env op m = .ok (r, m'))
    {hs : List (List Action)}
    (h : Meets (exec t env) (deliver t) (Delivered t r0 saved) (k r) hs m') :
    Meets (exec t env) (deliver t) (Delivered t r0 saved) (.act op k) ([] :: hs) m := by
  refine ⟨?_, fun m₁ h₁ r' m₂ h₂ => ?_⟩
  · rintro _ ⟨⟩
    trivial
  · cases h₁
    rw [hexec] at h₂
    cases h₂
    exact h

/-- A handler that makes the region go away, delivered once the outer call holds the
pointer to the metadata, makes the call fault. -/
theorem stale_pointer {t : Tid} {r0 ss rsp rspAlloc : Word} {md : Field → Word}
    {content : Nat → Byte} {saved : Slots} {env : Env} {m m' : Machine} {h : List Action}
    (hm : Coherent m t r0 ss md content) (hrsp : BelowStart r0 rsp) (hget : env.getGs = true)
    (hh : Handler t r0 saved h m) (hdeliver : deliver t h m = .ok m')
    (hfree : Free m'.mem ss realShadowStackSize) :
    Meets (exec t env) (deliver t) (Delivered t r0 saved)
        (gsRspRuntimeRerandomize rsp rspAlloc) [[], [], [], h] m ∧
      ¬ Reentrant t r0 saved env rsp rspAlloc [[], [], [], h] m := by
  have hgs : exec t env .getGs m = .ok (some (initDiff ss r0), m) := by
    simp [exec, hget, hm.gs]
  have hin : exec t env .getInited m = .ok (true, m) := by rw [exec, hm.inited]
  have hlookup := shadowStackByRsp_initDiff hm.aligned hrsp
  have hload : exec t env (.load (Field.state.addr (getGsRspMetadataByShadowStack ss))) m' =
      .error (.unmapped (Field.state.addr (getGsRspMetadataByShadowStack ss))) :=
    exec_load_unmapped (not_mapped_field hfree .state)
  constructor
  · simp only [gsRspRuntimeRerandomize, getGsRspMetadataByRsp, rdtsc, perform, Prog.lift_bind]
    refine meets_quiet rfl (meets_quiet hin ?_)
    simp only [Bool.not_true, Bool.false_eq_true, if_false, Prog.act_bind]
    refine meets_quiet hgs ?_
    simp only [Prog.pure_eq, Prog.ret_bind, hlookup, rerandomizeFound, FlashStack.Runtime.load,
      perform, Prog.lift_bind]
    refine ⟨?_, fun m₁ h₁ r m₂ h₂ => ?_⟩
    · rintro _ ⟨⟩
      exact hh
    · rw [hdeliver] at h₁
      cases h₁
      rw [hload] at h₂
      cases h₂
  · rintro ⟨hs', m'', hrun, -⟩
    simp only [gsRspRuntimeRerandomize, getGsRspMetadataByRsp, rdtsc, perform,
      Prog.lift_bind] at hrun
    rw [run_act_ok (interrupted_quiet rfl _), run_act_ok (interrupted_quiet hin _)] at hrun
    simp only [Bool.not_true, Bool.false_eq_true, if_false, Prog.act_bind] at hrun
    rw [run_act_ok (interrupted_quiet hgs _)] at hrun
    simp only [Prog.pure_eq, Prog.ret_bind, hlookup, rerandomizeFound, FlashStack.Runtime.load,
      perform, Prog.lift_bind] at hrun
    rw [run, interrupted, hdeliver] at hrun
    simp only [hload] at hrun
    cases hrun

/-- A nested call that moves the region, once the outer call holds the pointer. -/
def nestedMove : List (List Action) :=
  [[], [], [], [.rerandomize 0x7FFFFFFF9000 0x7FFFFFFFA000 (System.willing 0x20000000)]]

/-- **A nested move leaves the outer call with a stale pointer**: the schedule delivers
only what signals can, and the call faults. -/
theorem rerandomize_not_reentrant :
    Meets (exec 0 (System.willing 0x30000000)) (deliver 0)
        (Delivered 0 0x7FFFFFFFE000 fun _ => none)
        (gsRspRuntimeRerandomize 0x7FFFFFFFB000 0x7FFFFFFFA000) nestedMove
        (Machine.started 0 0x7FFFFFFFE000 0x10000000) ∧
      ¬ Reentrant 0 0x7FFFFFFFE000 (fun _ => none) (System.willing 0x30000000) 0x7FFFFFFFB000
        0x7FFFFFFFA000 nestedMove (Machine.started 0 0x7FFFFFFFE000 0x10000000) := by
  have haligned : (0x10000000 : Word).toNat % 2 ^ 23 = 0 := by decide
  have h := started_coherent 0 0x7FFFFFFFE000 haligned
  have hbelow : BelowStart 0x7FFFFFFFE000 0x7FFFFFFF9000 := by decide
  obtain ⟨m', md', hrun, h', hothers, -⟩ := run_moves_done h hbelow started_target rfl
  have hdeliver : deliver 0
      [.rerandomize 0x7FFFFFFF9000 0x7FFFFFFFA000 (System.willing 0x20000000)]
      (Machine.started 0 0x7FFFFFFFE000 0x10000000) = .ok m' := by
    rw [deliver, runAll_cons (by rw [Action.step, hrun]), runAll_nil]
  exact stale_pointer h (by decide) rfl ⟨⟨hbelow, trivial⟩, fun _ _ => trivial⟩ hdeliver
    (h.region.old_free h'.region hothers (moveTarget_free started_target).1)

end FlashStack.Runtime
