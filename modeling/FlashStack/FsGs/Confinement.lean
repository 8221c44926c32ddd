/-
What a thread touches in the fs/gs mode.

The metadata page and the shadow stack of a thread are its own. A step of the thread changes
nothing that is mapped outside them, and what it owns afterwards it has owned before or got
fresh from the kernel.

* `confined_init`: the initialisation;
* `AtRest.confined_call`: a call of `fsgs_runtime_rerandomize`, for both outcomes of
  `mremap`;
* `confined_step`: every step of a thread at rest.

`Confined` is the promise that a thread gives to the others, and what they make of it is
said in the module on several threads. It is proved along the code: each store and each
system call keeps all but a set of addresses (`KeptOutside`), the set is what the thread
owns or what was free, and the steps are put together by transitivity. A value change stays
inside the shadow stack because of the bounds of its loop (`Holds.kept_changeValues`), which
the metadata gives.

What the thread owns is told by its GS base and by where its shadow stack is, so it changes
with a move; the old page is given back in the same call. The call stack is not owned in
this sense: anyone may write to it.
-/

import FlashStack.FsGs.Run

namespace FlashStack.FsGs

open Lib.Memory Lib.Pages

/-- The addresses that an initialised thread owns: its metadata page, and its shadow stack. The
call stack belongs to no one in this sense. -/
def Own (m : Machine) (x : Word) : Prop :=
  m.inited = true ∧ (InRange m.gs realMetaDataSize x ∨ InRange m.saved realShadowStackSize x)

/-- The addresses that a thread may change: its own, and free memory. -/
def Reach (m : Machine) (x : Word) : Prop := Own m x ∨ m.mem.prot x = .none

/-- From `m` to `m'` a thread has changed only what it may, and owns nothing else. -/
structure Confined (m m' : Machine) : Prop where
  kept : KeptOutside (Reach m) m.mem m'.mem
  owned : ∀ x, Own m' x → Reach m x

theorem Confined.of_same {m m' : Machine} (hmem : KeptOutside (Reach m) m.mem m'.mem)
    (hgs : m'.gs = m.gs) (hsaved : m'.saved = m.saved) (hinited : m'.inited = m.inited) :
    Confined m m' := by
  refine ⟨hmem, fun x hx => .inl ?_⟩
  rwa [Own, hgs, hsaved, hinited] at hx

theorem within_field {B : Word → Prop} {p : Word} (h : Within B p realMetaDataSize) (f : Field) :
    B (p + f.offset) := h _ (inRange_field p f)

/-! ### The kernel -/

section Kernel

variable {B : Word → Prop} {m₀ : Paged} {m m' : Machine} {a : Word} {size : Nat}

/-- A mapping that the kernel gives is in reach, since nobody owned the memory before. -/
theorem Fresh.within (h : Fresh m a size) (hkept : KeptOutside B m₀ m.mem)
    (hfree : ∀ x, m₀.prot x = .none → B x) : Within B a size := by
  refine hkept.within_of_isFree hfree ?_ h.isFree
  have hlow := h.low
  omega

/-- `get_memory_at_random`. -/
theorem kept_getMemoryAtRandom {env : Env} {call fuel i : Nat} (hkept : KeptOutside B m₀ m.mem)
    (hfree : ∀ x, m₀.prot x = .none → B x)
    (hrun : getMemoryAtRandom env call size fuel i m = some (a, m')) :
    KeptOutside B m₀ m'.mem ∧ Within B a size := by
  obtain ⟨hfresh, rfl⟩ := getMemoryAtRandom_spec fuel i hrun
  have hin := hfresh.within hkept hfree
  exact ⟨hkept.mapZero hin, hin⟩

/-- `mremap`, whether it succeeds or not: both ranges are in reach. -/
theorem kept_mremap {old new : Word} (succeeds : Bool) (hkept : KeptOutside B m₀ m.mem)
    (hold : Within B old size) (hnew : Within B new size) (hsaved : Within B m.saved size) :
    KeptOutside B m₀ (m.mremap old size new succeeds).2.mem ∧
      Within B (m.mremap old size new succeeds).2.saved size ∧
      (m.mremap old size new succeeds).2.inited = m.inited := by
  unfold Machine.mremap
  by_cases hdone : succeeds = true ∧ old.toNat % 4096 = 0
  · rw [if_pos hdone]
    refine ⟨hkept.remap hold hnew, ?_, rfl⟩
    by_cases hsame : m.saved = old
    · simpa [hsame] using hnew
    · simpa [hsame] using hsaved
  · rw [if_neg hdone]
    exact ⟨hkept, hsaved, rfl⟩

/-- Stores to the fields of a page. -/
theorem kept_fields {p : Word} (hp : Within B p realMetaDataSize) (v : Machine → Field → Word)
    (fs : List Field) (hkept : KeptOutside B m₀ m.mem) :
    KeptOutside B m₀ (fs.foldl (fun m f => m.set p f (v m f)) m).mem := by
  induction fs generalizing m with
  | nil => exact hkept
  | cons f fs ih => exact ih (hkept.set (within_field hp f))

end Kernel

/-! ### The initialisation -/

/-- **The initialisation** takes free memory: two fresh mappings, and stores to these and nothing
else. -/
theorem confined_init {k : Stack} {env : Env} {fuel : Nat} {m m' : Machine}
    (hinited : m.inited = false)
    (hrun : initShadowStack env fuel k.r0 k.stackLow k.stackSize m = some m') :
    Confined m m' := by
  have hfree : ∀ x, m.mem.prot x = .none → Reach m x := fun x hx => .inr hx
  rw [initShadowStack, hinited, if_neg (by decide)] at hrun
  obtain ⟨⟨p, m₁⟩, hp, hrun⟩ := Option.bind_eq_some_iff.mp hrun
  obtain ⟨⟨ss, m₂⟩, hss, hrun⟩ := Option.bind_eq_some_iff.mp hrun
  have hkept₀ : KeptOutside (Reach m) m.mem ({ m with inited := true } : Machine).mem := .refl _ _
  obtain ⟨hkept₁, hpage⟩ := kept_getMemoryAtRandom hkept₀ hfree hp
  obtain ⟨hkept₂, hshadow⟩ := kept_getMemoryAtRandom hkept₁ hfree hss
  obtain rfl := Option.some.inj hrun
  have hclear := kept_fields hpage (fun _ _ => 0) Field.all hkept₂
  refine ⟨?_, ?_⟩
  · have hset := within_field hpage
    exact (((((((((hclear.set (hset .selfAddr)).set (hset .diff)).set (hset .shadowStack)).set
      (hset .cpuCycles)).set (hset .isRandomizing)).set (hset .ratioFactor)).set (hset .r)).set
      (hset .callStackTop)).set (hset .shadowStackTop)).set (hset .state)
  · rintro x ⟨-, hx | hx⟩
    · exact hpage x hx
    · exact hshadow x hx

/-! ### The call -/

section Call

variable {k : Stack} {B : Word → Prop} {m₀ : Paged} {m m' : Machine} {p ss rsp : Word}
  {md : Field → Word} {slots : Word → Word} {env : Env} {fuel : Nat}

/-- The update ends at an aligned address. -/
theorem Holds.top_aligned (h : Holds m p ss md slots) : (ss + callStackSize).toNat % 32 = 0 := by
  have haligned := h.aligned
  have hlow := h.low
  unfold callStackSize
  unfold realShadowStackSize defBuddyCallStackSize at *
  bv_omega

/-- The value change stays in the page and in the shadow stack. -/
theorem Holds.kept_changeValues (h : Holds m p ss md slots) (hk : Describes k md p ss)
    (hrsp : k.InStack rsp) (hp : Within B p realMetaDataSize)
    (hss : Within B ss realShadowStackSize) (hkept : KeptOutside B m₀ m.mem)
    (hrun : FsGs.changeValues env rsp p m = some m') : KeptOutside B m₀ m'.mem := by
  have hset := h.set .r (md .r + env.rdrand)
  have hk' := hk.update (f := .r) rfl (md .r + env.rdrand)
  have hptr : ss + callStackSize - (k.top - rsp) = ss + (callStackSize - (k.top - rsp)) := by grind
  rw [FsGs.changeValues, h.fields, hset.fields .shadowStackTop, hset.fields .callStackTop,
    hk' .shadowStackTop _ rfl, hk' .callStackTop _ rfl, hptr] at hrun
  obtain ⟨word, hadd, hrun⟩ := Option.bind_eq_some_iff.mp hrun
  obtain rfl := Option.some.inj hrun
  obtain ⟨word', hadd', hword⟩ := Buddy.avx2_64_x_4_add_spec
    (m.set p .r (md .r + env.rdrand)).mem.word (ss + (callStackSize - (k.top - rsp)))
    env.rdrand h.top_aligned
  obtain rfl := Option.some.inj (hadd'.symm.trans hadd)
  have hstored : KeptOutside B m₀ (m.set p .r (md .r + env.rdrand)).mem :=
    hkept.set (within_field hp .r)
  refine hstored.trans fun x hx => ⟨?_, rfl⟩
  exact (hword x).trans (if_neg fun hin => hx (hss x (h.inRange_of_inLanes hrsp hin)))

/-- **The move** stays in the old regions and in what it gets from the kernel. -/
theorem Holds.kept_moveRegions {new : Word} (h : Holds m p ss md slots) (hk : Describes k md p ss)
    (hp : Within B p realMetaDataSize) (hss : Within B ss realShadowStackSize)
    (hfree : ∀ x, m₀.prot x = .none → B x) (hkept : KeptOutside B m₀ m.mem)
    (hrun : moveRegions env fuel p m = some (new, m')) :
    KeptOutside B m₀ m'.mem ∧ Within B new realMetaDataSize ∧
      Within B m'.saved realShadowStackSize ∧ m'.gs = new ∧ m'.inited = m.inited := by
  have h₁ := h.set .ratioFactor defaultChangingMovingRatio
  have hk₁ := hk.update (f := .ratioFactor) rfl defaultChangingMovingRatio
  have hkept₁ : KeptOutside B m₀ (m.set p .ratioFactor defaultChangingMovingRatio).mem :=
    hkept.set (within_field hp .ratioFactor)
  obtain ⟨⟨a, m₂⟩, hnew, hrun⟩ := Option.bind_eq_some_iff.mp hrun
  obtain ⟨⟨nss, m₃⟩, hnss, hrun⟩ := Option.bind_eq_some_iff.mp hrun
  obtain ⟨hkept₂, ha⟩ := kept_getMemoryAtRandom hkept₁ hfree hnew
  obtain ⟨hkept₃, hnssIn⟩ := kept_getMemoryAtRandom hkept₂ hfree hnss
  obtain ⟨hfresh, rfl⟩ := getMemoryAtRandom_spec fuel 0 hnew
  obtain ⟨hfresh', rfl⟩ := getMemoryAtRandom_spec fuel 0 hnss
  have hcopied := (h₁.moving hfresh hfresh').copy
  have hkept₄ := kept_fields ha (fun m f => m.get p f) Field.all hkept₃
  change KeptOutside B m₀ (copyMetadata a p _).mem at hkept₄
  generalize hm₄ : copyMetadata a p _ = m₄ at hcopied hkept₄
  have hmoving := (hcopied.setNew .diff
    (m₄.get p .diff + (nss - m₄.get p .shadowStack))).setNew .selfAddr a
  have hkept₅ : KeptOutside B m₀ ((m₄.set a .diff
      (m₄.get p .diff + (nss - m₄.get p .shadowStack))).set a .selfAddr a).mem :=
    (hkept₄.set (within_field ha .diff)).set (within_field ha .selfAddr)
  simp only [if_pos (And.intro hfresh.ne_mapFailed hfresh'.ne_mapFailed), hm₄] at hrun
  generalize (m₄.set a .diff (m₄.get p .diff + (nss - m₄.get p .shadowStack))).set a .selfAddr a =
    m₅ at hmoving hkept₅ hrun
  have hget : m₅.get p .shadowStack = ss := (hmoving.fields _).trans (hk₁ .shadowStack _ rfl)
  rw [hget] at hrun
  have hsaved : Within B m₅.saved realShadowStackSize := by rwa [hmoving.saved]
  obtain ⟨hkept₆, hsaved₆, hinited₆⟩ :=
    kept_mremap env.mremap hkept₅ hss hnssIn hsaved
  generalize m₅.mremap ss realShadowStackSize nss env.mremap = moved at hkept₆ hsaved₆ hinited₆ hrun
  obtain ⟨rfl, rfl⟩ := Prod.mk.inj (Option.some.inj hrun)
  refine ⟨?_, ha, hsaved₆, rfl, hinited₆.trans (hmoving.inited.trans h.inited.symm)⟩
  exact ((hkept₆.set (within_field ha .shadowStack)).set (within_field ha .shadowStackTop)).unmap hp

/-- The value part, with and without `SPA_ENABLE_GS_MSR`. -/
theorem Holds.kept_valuePart {msr : Bool} (h : Holds m p ss md slots) (hk : Describes k md p ss)
    (hrsp : k.InStack rsp) (hp : Within B p realMetaDataSize)
    (hss : Within B ss realShadowStackSize) (hkept : KeptOutside B m₀ m.mem)
    (hrun : (if msr then FsGs.changeValues env rsp p m else some m) = some m') :
    KeptOutside B m₀ m'.mem := by
  cases msr with
  | false =>
      obtain rfl := Option.some.inj hrun
      exact hkept
  | true => exact h.kept_changeValues hk hrsp hp hss hkept hrun

/-- **A call** of a thread at rest changes nothing that others have mapped, and afterwards the
thread owns what it has owned before or got from the kernel. -/
theorem AtRest.confined_call {msr : Bool} (h : AtRest k m p ss md slots) (hrsp : k.InStack rsp)
    (hrun : fsgsRuntimeRerandomize msr env fuel rsp m = some m') : Confined m m' := by
  have hown : ∀ x, InRange p realMetaDataSize x ∨ InRange ss realShadowStackSize x → Own m x := by
    rw [← h.gs, ← h.saved]
    exact fun x hx => ⟨h.inited, hx⟩
  have hp : Within (Reach m) p realMetaDataSize := fun x hx => .inl (hown x (.inl hx))
  have hss : Within (Reach m) ss realShadowStackSize := fun x hx => .inl (hown x (.inr hx))
  have hfree : ∀ x, m.mem.prot x = .none → Reach m x := fun x hx => .inr hx
  obtain ⟨hopen, hlast⟩ := h.opened
  have hkept : KeptOutside (Reach m) m.mem
      ((m.mprotect p realMetaDataSize .readWrite).set p .isRandomizing 1).mem :=
    ((KeptOutside.refl _ _).protect hp).set (within_field hp .isRandomizing)
  rw [h.call_eq] at hrun
  cases helapsed : elapsed env (md .cpuCycles) with
  | false =>
      rw [rerandomize, hlast, if_pos (by simpa using helapsed)] at hrun
      obtain rfl := Option.some.inj hrun
      exact .of_same (hkept.set (within_field hp .isRandomizing)) rfl rfl rfl
  | true =>
      have hmarked := hopen.set .cpuCycles env.rdtsc
      have hk := (h.describes.update (f := .isRandomizing) rfl 1).update (f := .cpuCycles) rfl
        env.rdtsc
      obtain ⟨m₁, md₁, hvalue, hgs, -, hholds, hk₁, -⟩ := hmarked.valuePart hk hrsp msr env
      have hkept₁ := hmarked.kept_valuePart hk hrsp hp hss
        (hkept.set (within_field hp .cpuCycles)) hvalue
      rw [rerandomize_of_elapsed rfl (by rwa [hlast]) hvalue rfl, movePart] at hrun
      obtain ⟨⟨q, m₂⟩, hmove, hclose⟩ := Option.bind_eq_some_iff.mp hrun
      obtain rfl := Option.some.inj hclose
      have hkept₂ : KeptOutside (Reach m) m.mem
          (m₁.set p .ratioFactor (m₁.get p .ratioFactor - 1)).mem :=
        hkept₁.set (within_field hp .ratioFactor)
      have hholds₂ := hholds.set .ratioFactor (m₁.get p .ratioFactor - 1)
      have hk₂ := hk₁.update (f := .ratioFactor) rfl (m₁.get p .ratioFactor - 1)
      by_cases hratio : ((m₁.set p .ratioFactor (m₁.get p .ratioFactor - 1)).get p
          .ratioFactor).toInt ≤ 0
      · rw [if_pos hratio] at hmove
        obtain ⟨hkept₃, hq, hsaved, hgs₂, -⟩ :=
          hholds₂.kept_moveRegions hk₂ hp hss hfree hkept₂ hmove
        refine ⟨(hkept₃.set (within_field hq .isRandomizing)).protect hq, ?_⟩
        rintro x ⟨-, hx | hx⟩
        · exact hq x (hgs₂ ▸ hx)
        · exact hsaved x hx
      · rw [if_neg hratio] at hmove
        obtain ⟨rfl, rfl⟩ := Prod.mk.inj (Option.some.inj hmove)
        have hsaved : m₁.saved = m.saved := hholds.saved.trans h.saved.symm
        have hinited : m₁.inited = m.inited := hholds.inited.trans h.inited.symm
        exact .of_same ((hkept₂.set (within_field hp .isRandomizing)).protect hp) hgs hsaved
          hinited

end Call

/-! ### The steps -/

/-- **A step of a thread** at rest, if a prologue writes to the shadow stack. -/
theorem AtRest.confined_step {k : Stack} {msr : Bool} {s s' : State} {a : Action} {p ss : Word}
    {md : Field → Word} {slots : Word → Word} (h : AtRest k s.machine p ss md slots)
    (hstep : Step k msr s a s') (ha : ∀ m, a ≠ .elsewhere m)
    (hslot : ∀ r, a = .prologue r → k.HasSlot r) : Confined s.machine s'.machine := by
  cases hstep with
  | @elsewhere m he => exact absurd rfl (ha m)
  | @prologue r hr =>
      have hin : Own s.machine (r + s.machine.get s.machine.gs .diff) := by
        refine ⟨h.inited, .inr ?_⟩
        rw [h.add_diff, h.saved]
        exact inRange_offset (k.slotOffset_lt hr (hslot r rfl))
      exact .of_same ((KeptOutside.refl _ _).set (.inl hin)) rfl rfl rfl
  | leave r => exact .of_same (.refl _ _) rfl rfl rfl
  | ratio v =>
      have hin : Own s.machine (s.machine.gs + Field.ratioFactor.offset) :=
        ⟨h.inited, .inl (inRange_field _ _)⟩
      exact .of_same ((KeptOutside.refl _ _).set (.inl hin)) rfl rfl rfl
  | rerandomize hrsp hlive hrun => exact h.confined_call hrsp hrun

end FlashStack.FsGs
