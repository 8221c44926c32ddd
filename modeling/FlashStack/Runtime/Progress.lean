/-
Symbolic execution of the runtime functions.

`Progress m m' t ss fresh md content` says where a runtime call of thread `t` that started
in `m` has got to: in `m'` the shadow stack of `t` is as `ShadowRegion` says, and nothing of
the other threads has changed. It relates the current state to the first one, so that at the
end of a call the frame is there without another argument.

* `Progress.start`: where every call begins;
* `run_load`, `run_store`, `run_memset`, `run_count`: an action on the metadata or on a
  counter;
* `run_getMemoryAtRandom`, `run_munmap_fresh`, `run_mremap`: the actions that change what is
  mapped.

The lemmas advance a run by one action; they are equations between runs, so they serve the
runs that end well and those that fault alike. A proof about a function goes through its
text, with one rewrite for each line, and branches where the text does. The functions are
taken as atomic here: no signal and no other thread comes between two actions. The modules
on reentrancy and on interference do without this, and have rules of the same shape.
-/

import FlashStack.Runtime.Placement

namespace FlashStack.Runtime

open Lib.Memory Lib.Program

structure Progress (m m' : Machine) (t : Tid) (ss : Word) (fresh : Option Word)
    (md : Field → Word) (content : Nat → Byte) : Prop where
  region : ShadowRegion m'.mem t ss fresh md content
  others : OthersKept t m.mem m'.mem
  threads : m'.threads = m.threads
  threadInfo : m'.threadInfo = m.threadInfo

theorem Progress.start {m : Machine} {t : Tid} {ss : Word} {fresh : Option Word}
    {md : Field → Word} {content : Nat → Byte}
    (h : ShadowRegion m.mem t ss fresh md content) : Progress m m t ss fresh md content :=
  ⟨h, OthersKept.refl t m.mem, rfl, rfl⟩

namespace Progress

variable {m m' : Machine} {t : Tid} {env : Env} {ss : Word} {fresh : Option Word}
  {md : Field → Word} {content : Nat → Byte} {α : Type}

/-- Only memory changed, and it changed inside the frame of `t`. -/
theorem withMem {ss' : Word} {fresh' : Option Word} {md' : Field → Word}
    {mem : Space Owner} (h : Progress m m' t ss fresh md content)
    (hregion : ShadowRegion mem t ss' fresh' md' content) (hothers : OthersKept t m'.mem mem) :
    Progress m (m'.withMem mem) t ss' fresh' md' content where
  region := hregion
  others := h.others.trans hothers
  threads := (Machine.withMem_threads m' mem).trans h.threads
  threadInfo := (Machine.withMem_threadInfo m' mem).trans h.threadInfo

theorem run_load (h : Progress m m' t ss fresh md content) (f : Field)
    (k : Word → Program α) :
    run (exec t env) (.act (.load (f.addr (getGsRspMetadataByShadowStack ss))) k) m' =
      run (exec t env) (k (md f)) m' :=
  run_act_ok (exec_load_owned (h.region.owned_field f) (h.region.fields f))

theorem run_store (h : Progress m m' t ss fresh md content) (f : Field) (v : Word)
    (k : Unit → Program α) :
    ∃ m'', run (exec t env) (.act (.store (f.addr (getGsRspMetadataByShadowStack ss)) v) k) m' =
        run (exec t env) (k ()) m'' ∧
      Progress m m'' t ss fresh (Function.update md f v) content := by
  have hown := h.region.owned_field f
  refine ⟨m'.withMem (storeN m'.mem (f.addr (getGsRspMetadataByShadowStack ss)) 8 v.toNat),
    run_act_ok (exec_store_owned hown v), ?_⟩
  exact h.withMem (h.region.store_field f v) (othersKept_storeN (by decide) hown)

theorem run_memset (h : Progress m m' t ss fresh md content) (k : Unit → Program α) :
    ∃ m'', run (exec t env)
        (.act (.memset (getGsRspMetadataByShadowStack ss) sizeofMetadata) k) m' =
        run (exec t env) (k ()) m'' ∧
      Progress m m'' t ss fresh (fun _ => 0) content := by
  have hown : OwnedBy m'.mem (.shadow t) (getGsRspMetadataByShadowStack ss) sizeofMetadata :=
    h.region.owned (k := metadataOffsetOnShadowStack) (by decide)
  refine ⟨m'.withMem (storeN m'.mem (getGsRspMetadataByShadowStack ss) sizeofMetadata 0),
    run_act_ok (by simp only [exec, Machine.check_owned hown]), ?_⟩
  exact h.withMem h.region.memset_metadata (othersKept_storeN (by decide) hown)

theorem run_count (h : Progress m m' t ss fresh md content) (c : Counter) (v : Word)
    (k : Unit → Program α) :
    ∃ m'', run (exec t env) (.act (.count c v) k) m' = run (exec t env) (k ()) m'' ∧
      Progress m m'' t ss fresh md content :=
  ⟨m'.bump c v, run_act_ok rfl, h.region, h.others, h.threads, h.threadInfo⟩

/-- `get_memory_at_random` returns the placement in the memory the call started
from, and maps it next to the region. -/
theorem run_getMemoryAtRandom (h : Progress m m' t ss none md content)
    (hmapped : ∀ x, (m.mem x).isNone = (m'.mem x).isNone) (rspAlloc : Word)
    (k : Option Word → Program α) :
    ∃ m'', run (exec t env)
        (getMemoryAtRandom 0 rspAlloc realShadowStackSize false >>= k) m' =
        run (exec t env) (k (placement env 0 rspAlloc m.mem realShadowStackSize)) m'' ∧
      Progress m m'' t ss (placement env 0 rspAlloc m.mem realShadowStackSize) md content := by
  obtain ⟨addr, m'', hrun, haddr, c, hm''⟩ :=
    getMemoryAtRandom_spec (t := t) (m := m') realShadowStackSize_le
  rw [← placement_congr hmapped] at haddr
  refine ⟨m'', by rw [run_bind, hrun, haddr], ?_⟩
  rw [← haddr]
  cases hplace : addr with
  | none =>
      rw [hm'', hplace]
      exact ⟨h.region, h.others, h.threads, h.threadInfo⟩
  | some new =>
      have hfree : Free m'.mem new realShadowStackSize := by
        have hsome := haddr.symm.trans hplace
        rw [placement_congr hmapped] at hsome
        exact (placement_some hsome).1.2
      rw [hm'', hplace]
      have hmap := h.withMem (h.region.map_fresh hfree)
        (othersKept_mapZero realShadowStackSize_le hfree)
      exact ⟨hmap.region, hmap.others, hmap.threads, hmap.threadInfo⟩

/-- The bytes of the fresh region belong to the thread. -/
theorem owned_fresh {new : Word} (h : Progress m m' t ss (some new) md content) :
    OwnedBy m'.mem (.shadow t) new realShadowStackSize :=
  (ownedBy_iff realShadowStackSize_le).mpr fun x hx =>
    (h.region.owns x).mpr (Or.inr ⟨new, rfl, hx⟩)

theorem run_munmap_fresh {new : Word} (h : Progress m m' t ss (some new) md content)
    (k : Unit → Program α) :
    ∃ m'', run (exec t env) (.act (.munmap new realShadowStackSize) k) m' =
        run (exec t env) (k ()) m'' ∧
      Progress m m'' t ss none md content :=
  ⟨m'.withMem (unmap m'.mem new realShadowStackSize), run_act_ok rfl,
    h.withMem h.region.unmap_fresh (othersKept_unmap realShadowStackSize_le h.owned_fresh)⟩

/-- A failed `mremap` changes nothing. -/
theorem run_mremap_failed (hfail : env.mremap = false) (old new : Word) (size : Nat)
    (k : Option Word → Program α) :
    run (exec t env) (.act (.mremap old size new) k) m' = run (exec t env) (k none) m' :=
  run_act_ok (by simp [exec, Machine.mremap, hfail])

/-- A successful `mremap` moves the region to the fresh one. -/
theorem run_mremap {new : Word} (hok : env.mremap = true)
    (h : Progress m m' t ss (some new) md content) (k : Option Word → Program α) :
    ∃ m'', run (exec t env) (.act (.mremap ss realShadowStackSize new) k) m' =
        run (exec t env) (k (some new)) m'' ∧
      Progress m m'' t new none md content := by
  refine ⟨m'.withMem (remap m'.mem ss new realShadowStackSize),
    run_act_ok (by simp [exec, Machine.mremap, hok, h.region.owned_all.mapped]), ?_⟩
  exact h.withMem h.region.move
    (othersKept_remap realShadowStackSize_le h.region.owned_all h.owned_fresh)

end Progress

end FlashStack.Runtime
