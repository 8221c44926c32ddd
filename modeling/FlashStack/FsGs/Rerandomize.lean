/-
One call of `fsgs_runtime_rerandomize`.

The function makes the metadata page writable, returns if the last time is not long enough
ago, changes the random value, and when a counter has run down moves both regions: it takes
two new mappings, copies the metadata, moves the shadow stack with `mremap`, and unmaps the
old page.

* `Moving`: the old and the new regions while the thread moves from one to the other;
* `moveRegions_spec`: the move, for both outcomes of `mremap`. When it fails, the source
  goes on with its error value as the address of the shadow stack, and so does the model;
* `rerandomize_spec`: the three ways in which a call returns, which are too early, as it
  should, and with the shadow stack lost.

The call has its specification in parts (`movePart_spec`, `Holds.valuePart`, `AtRest.early`,
`AtRest.late`), each over the state that the part before it leaves. `AtRest` is the state
between two calls: the regions are described by the metadata, and no flag is set. It says
nothing of the protection of the page, which a call that comes too early leaves writable. A
call does not return when its loops get no memory; `AtRest.returns` says when it does.
-/

import FlashStack.FsGs.Layout

namespace FlashStack.FsGs

open Lib.Memory Lib.Pages

/-! ### Two sets of regions -/

/-- Beside the old regions there are a new page, which holds `md'`, and room for the shadow
stack at `nss`. -/
structure Moving (m : Machine) (p ss : Word) (md : Field → Word) (slots : Word → Word)
    (new nss : Word) (md' : Field → Word) : Prop extends Holds m p ss md slots where
  newAligned : nss.toNat % 4096 = 0
  newLow : nss.toNat + realShadowStackSize ≤ 2 ^ 47
  newPage : IsMapped m.mem new realMetaDataSize
  newApart : NoOverlap new realMetaDataSize nss realShadowStackSize
  page_page : NoOverlap new realMetaDataSize p realMetaDataSize
  page_region : NoOverlap new realMetaDataSize ss realShadowStackSize
  region_page : NoOverlap nss realShadowStackSize p realMetaDataSize
  newFields : ∀ f, m.get new f = md' f

/-- Two fresh mappings, one after the other. -/
theorem Holds.moving {m : Machine} {p ss new nss : Word} {md : Field → Word}
    {slots : Word → Word} (h : Holds m p ss md slots) (hnew : Fresh m new realMetaDataSize)
    (hnss : Fresh (m.mapZero new realMetaDataSize) nss realShadowStackSize) :
    Moving ((m.mapZero new realMetaDataSize).mapZero nss realShadowStackSize) p ss md slots new nss
      (((m.mapZero new realMetaDataSize).mapZero nss realShadowStackSize).get new) :=
  have h₁ := h.mapZero hnew
  have hpage : Protected (m.mapZero new realMetaDataSize).mem new realMetaDataSize .readWrite :=
    m.mem.protected_mapZero
  have hapart := hnss.noOverlap (hpage.mapped (by decide))
  { h₁.mapZero hnss with
    newAligned := hnss.aligned
    newLow := hnss.low
    newPage :=
      (Paged.protected_mapZero_of_noOverlap _ hapart.symm hpage).mapped (by decide)
    newApart := hapart.symm
    page_page := hnew.noOverlap h.page
    page_region := hnew.noOverlap (h.region.mapped (by decide))
    region_page := hnss.noOverlap h₁.page
    newFields := fun _ => rfl }

namespace Moving

variable {k : Stack} {m : Machine} {p ss new nss : Word} {md md' : Field → Word}
  {slots : Word → Word}

/-- A store to the new page. -/
theorem setNew (h : Moving m p ss md slots new nss md') (f : Field) (v : Word) :
    Moving (m.set new f v) p ss md slots new nss (Function.update md' f v) :=
  { h with
    fields := fun g => (m.get_set_of_noOverlap v f g h.page_page).trans (h.fields g)
    words := fun off hoff =>
      (m.set_word new v f fun hin => h.page_region _ hin (inRange_offset hoff)).trans
        (h.words off hoff)
    newFields := fun g => by rw [Machine.get_set, funext h.newFields] }

/-- The fields of a list, copied one by one. -/
theorem copyFields (h : Moving m p ss md slots new nss md') (fs : List Field) :
    Moving (fs.foldl (fun m f => m.set new f (m.get p f)) m) p ss md slots new nss
      (fun g => if g ∈ fs then md g else md' g) := by
  induction fs generalizing m md' with
  | nil => simpa using h
  | cons f fs ih =>
      have hnext := ih (h.setNew f (m.get p f))
      have hfields : (fun g => if g ∈ fs then md g else Function.update md' f (m.get p f) g) =
          fun g => if g ∈ f :: fs then md g else md' g := by
        funext g
        by_cases hg : g = f
        · subst hg
          rw [Function.update_self, h.fields, ite_self, if_pos (List.mem_cons_self ..)]
        · simp [hg]
      rwa [hfields] at hnext

/-- `*new_metadata = *old_metadata`. -/
theorem copy (h : Moving m p ss md slots new nss md') :
    Moving (copyMetadata new p m) p ss md slots new nss md := by
  have hall : (fun g => if g ∈ Field.all then md g else md' g) = md := by
    funext g
    exact if_pos (by cases g <;> decide)
  have hcopied := h.copyFields Field.all
  rwa [hall] at hcopied

/-- **After `mremap`** the new regions hold what the old shadow stack held. -/
theorem mremap (h : Moving m p ss md slots new nss md') :
    (m.mremap ss realShadowStackSize nss true).1 = some nss ∧
      Holds (m.mremap ss realShadowStackSize nss true).2 new nss md' slots := by
  have hguard : (true = true) ∧ ss.toNat % 4096 = 0 := ⟨rfl, h.aligned⟩
  rw [Machine.mremap, if_pos hguard]
  refine ⟨rfl, ⟨h.inited, if_pos h.saved, h.newAligned, h.newLow, ?_,
    m.mem.protected_remap h.region, h.newApart, ?_, ?_⟩⟩
  · intro x hx
    have hnew : ¬ InRange nss realShadowStackSize x := h.newApart x hx
    have hold : ¬ InRange ss realShadowStackSize x := h.page_region x hx
    exact ((if_neg hnew).trans (if_neg hold)).trans_ne (h.newPage x hx)
  · intro f
    exact (m.mem.remap_word_outside (h.newApart _ (inRange_field new f))).trans (h.newFields f)
  · intro off hoff
    have hshift : ss + (nss + off - nss) = ss + off := by grind
    refine (m.mem.remap_word_inside (inRange_offset hoff)).trans ?_
    rw [hshift]
    exact h.words off hoff

end Moving

/-- `munmap` of another page. -/
theorem Holds.munmap {m : Machine} {p ss q : Word} {md : Field → Word} {slots : Word → Word}
    (h : Holds m p ss md slots) (hpage : NoOverlap p realMetaDataSize q realMetaDataSize)
    (hregion : NoOverlap ss realShadowStackSize q realMetaDataSize) :
    Holds (m.munmap q realMetaDataSize) p ss md slots :=
  { h with
    page := fun x hx => (if_neg (hpage x hx)).trans_ne (h.page x hx)
    region := m.mem.protected_unmap_of_noOverlap hregion h.region }

theorem Holds.setGs {m : Machine} {p ss : Word} {md : Field → Word} {slots : Word → Word}
    (h : Holds m p ss md slots) (q : Word) : Holds (m.setGs q) p ss md slots :=
  { h with }

/-! ### The move -/

/-- The copied metadata with its own address and the shifted `diff`. -/
theorem describes_moved {k : Stack} {md : Field → Word} {p ss new nss diff : Word}
    (h : Describes k md p ss) (hdiff : diff = nss + callStackSize - k.r0) :
    Describes k (Function.update (Function.update (Function.update (Function.update md .diff diff)
      .selfAddr new) .shadowStack nss) .shadowStackTop (nss + callStackSize)) new nss := by
  intro f v hf
  cases f with
  | callStackTop => exact h .callStackTop v hf
  | state => exact h .state v hf
  | diff =>
      obtain rfl := Option.some.inj hf
      exact hdiff
  | selfAddr | shadowStack | shadowStackTop => exact Option.some.inj hf
  | r | isRandomizing | cpuCycles | ratioFactor | savedDiff | relaxing => exact nomatch hf

/-- **The move.** With `mremap` the thread uses the new regions, with the old words in the
shadow stack; without it the thread uses the new page, which has lost the shadow stack. -/
theorem moveRegions_spec {k : Stack} {m m' : Machine} {p ss new : Word} {md : Field → Word}
    {slots : Word → Word} {env : Env} {fuel : Nat} (h : Holds m p ss md slots)
    (hk : Describes k md p ss) (hrun : moveRegions env fuel p m = some (new, m')) :
    m'.gs = new ∧
      ((env.mremap = true ∧ ∃ nss md', Holds m' new nss md' slots ∧ Describes k md' new nss ∧
          md' .r = md .r) ∨
        (env.mremap = false ∧ m'.get new .shadowStack = mapFailed ∧ m'.saved = ss)) := by
  have h₁ := h.set .ratioFactor defaultChangingMovingRatio
  have hk₁ := hk.update (f := .ratioFactor) rfl defaultChangingMovingRatio
  obtain ⟨⟨a, m₂⟩, hnew, hrun⟩ := Option.bind_eq_some_iff.mp hrun
  obtain ⟨⟨nss, m₃⟩, hnss, hrun⟩ := Option.bind_eq_some_iff.mp hrun
  obtain ⟨hfresh, rfl⟩ := getMemoryAtRandom_spec fuel 0 hnew
  obtain ⟨hfresh', rfl⟩ := getMemoryAtRandom_spec fuel 0 hnss
  have hcopied := (h₁.moving hfresh hfresh').copy
  generalize hm₄ : copyMetadata a p _ = m₄ at hcopied
  have hmoving := (hcopied.setNew .diff
    (m₄.get p .diff + (nss - m₄.get p .shadowStack))).setNew .selfAddr a
  have hdiff : m₄.get p .diff + (nss - m₄.get p .shadowStack) = nss + callStackSize - k.r0 := by
    rw [hcopied.fields, hcopied.fields, hk₁ .diff _ rfl, hk₁ .shadowStack _ rfl]
    grind
  have hss : ((m₄.set a .diff (m₄.get p .diff + (nss - m₄.get p .shadowStack))).set a .selfAddr
      a).get p .shadowStack = ss := (hmoving.fields _).trans (hk₁ .shadowStack _ rfl)
  simp only [if_pos (And.intro hfresh.ne_mapFailed hfresh'.ne_mapFailed), hm₄, hss] at hrun
  cases hmremap : env.mremap with
  | true =>
      obtain ⟨hmoved, hholds⟩ := hmoving.mremap
      rw [hmremap, hmoved] at hrun
      obtain ⟨rfl, rfl⟩ := Prod.mk.inj (Option.some.inj hrun)
      have hlast := (((hholds.set .shadowStack nss).set .shadowStackTop
        (nss + callStackSize)).setGs a).munmap hmoving.page_page hmoving.region_page
      exact ⟨rfl, Or.inl ⟨rfl, nss, _, hlast, describes_moved hk₁ hdiff, rfl⟩⟩
  | false =>
      rw [hmremap] at hrun
      obtain ⟨rfl, rfl⟩ := Prod.mk.inj (Option.some.inj hrun)
      refine ⟨rfl, Or.inr ⟨rfl, ?_, ?_⟩⟩
      · simp [Machine.mremap]
      · exact hmoving.saved

/-! ### The call -/

/-- A thread between two calls: its regions are where its metadata says, and no call is under way.
The metadata page may be writable or not. -/
structure AtRest (k : Stack) (m : Machine) (p ss : Word) (md : Field → Word)
    (slots : Word → Word) : Prop extends Holds m p ss md slots where
  gs : m.gs = p
  describes : Describes k md p ss
  idle : md .isRandomizing = 0

/-- With these metadata a call that is not too early moves the regions: the counter reaches zero
when it is decremented. -/
def Moves (md : Field → Word) : Prop := (md .ratioFactor - 1).toInt ≤ 0

/-- The words of the shadow stack after the value part; the same as before without
`SPA_ENABLE_GS_MSR`. -/
def slotsAfter (k : Stack) (msr : Bool) (rsp delta : Word) (slots : Word → Word) : Word → Word :=
  if msr then shift k rsp delta slots else slots

/-- The random value after the value part. Without `SPA_ENABLE_GS_MSR` there is no such part, and
the value stays. -/
def randomAfter (msr : Bool) (delta r : Word) : Word := if msr then r + delta else r

section Call

variable {k : Stack} {m m' : Machine} {p ss rsp : Word} {md : Field → Word}
  {slots : Word → Word} {env : Env} {fuel : Nat} {msr : Bool}

/-- The call after the value part: the counter, the move when it has run down, and the end with
the second `mprotect`. -/
def movePart (env : Env) (fuel : Nat) (old : Word) (m : Machine) : Option Machine :=
  (if (m.get old .ratioFactor).toInt ≤ 0 then moveRegions env fuel old m else some (old, m)).bind
    fun r => some ((r.2.set r.1 .isRandomizing 0).mprotect r.1 realMetaDataSize .read)

theorem rerandomize_of_elapsed {old : Word} {m₀ m₁ m₂ : Machine}
    (hopen : (m.mprotect old realMetaDataSize .readWrite).set old .isRandomizing 1 = m₀)
    (helapsed : elapsed env (m₀.get old .cpuCycles) = true)
    (hvalue : (if msr then FsGs.changeValues env rsp old (m₀.set old .cpuCycles env.rdtsc)
      else some (m₀.set old .cpuCycles env.rdtsc)) = some m₁)
    (hcount : m₁.set old .ratioFactor (m₁.get old .ratioFactor - 1) = m₂) :
    rerandomize msr env fuel rsp old m = movePart env fuel old m₂ := by
  subst hopen hcount
  rw [rerandomize, if_neg (by simpa using helapsed)]
  by_cases hmove : ((m₁.set old .ratioFactor (m₁.get old .ratioFactor - 1)).get old
      .ratioFactor).toInt ≤ 0
  all_goals
    cases msr with
    | false =>
        obtain rfl := Option.some.inj hvalue
        simp only [movePart, Bool.false_eq_true, if_false, Option.bind_eq_bind, Option.bind_some,
          hmove, if_true]
        rfl
    | true =>
        rw [if_pos rfl] at hvalue
        simp only [movePart, if_true, Option.bind_eq_bind, hvalue, Option.bind_some, hmove,
          if_false]
        rfl

/-- The end of a call, on the page that the thread uses. -/
theorem Holds.close (h : Holds m p ss md slots) (hgs : m.gs = p) (hk : Describes k md p ss) :
    AtRest k ((m.set p .isRandomizing 0).mprotect p realMetaDataSize .read) p ss
      (Function.update md .isRandomizing 0) slots :=
  { (h.set .isRandomizing 0).mprotect (by decide) with
    gs := hgs
    describes := hk.update rfl 0
    idle := Function.update_self .. }

/-- **The moving part**, for every value of `ratio_factor` and both outcomes of `mremap`. -/
theorem movePart_spec (h : Holds m p ss md slots) (hgs : m.gs = p) (hk : Describes k md p ss)
    (hrun : movePart env fuel p m = some m') :
    (((md .ratioFactor).toInt ≤ 0 → env.mremap = true) ∧
        ∃ p' ss' md', AtRest k m' p' ss' md' slots ∧ md' .r = md .r ∧
          Protected m'.mem p' realMetaDataSize .read) ∨
      ((md .ratioFactor).toInt ≤ 0 ∧ env.mremap = false ∧
        m'.get m'.gs .shadowStack = mapFailed ∧ m'.saved = ss) := by
  rw [movePart, h.fields] at hrun
  obtain ⟨⟨q, m₁⟩, hmove, hclose⟩ := Option.bind_eq_some_iff.mp hrun
  obtain rfl := Option.some.inj hclose
  by_cases hratio : (md .ratioFactor).toInt ≤ 0
  · rw [if_pos hratio] at hmove
    obtain ⟨hgs₁, hmoved | hlost⟩ := moveRegions_spec h hk hmove
    · obtain ⟨hmremap, nss, md₁, hholds, hk₁, hr⟩ := hmoved
      exact Or.inl ⟨fun _ => hmremap, q, nss, _, hholds.close hgs₁ hk₁, hr,
        Paged.protected_protect _⟩
    · obtain ⟨hmremap, hfield, hsaved⟩ := hlost
      refine Or.inr ⟨hratio, hmremap, ?_, hsaved⟩
      simp [hgs₁, hfield]
  · rw [if_neg hratio] at hmove
    obtain ⟨rfl, rfl⟩ := Prod.mk.inj (Option.some.inj hmove)
    exact Or.inl ⟨fun hle => absurd hle hratio, p, ss, _, h.close hgs hk, rfl,
      Paged.protected_protect _⟩

/-- The value part, with and without `SPA_ENABLE_GS_MSR`. -/
theorem Holds.valuePart (h : Holds m p ss md slots) (hk : Describes k md p ss)
    (hrsp : k.InStack rsp) (msr : Bool) (env : Env) :
    ∃ m' md', (if msr then FsGs.changeValues env rsp p m else some m) = some m' ∧
      m'.gs = m.gs ∧ m'.mem.prot = m.mem.prot ∧
      Holds m' p ss md' (slotsAfter k msr rsp env.rdrand slots) ∧ Describes k md' p ss ∧
      md' .r = randomAfter msr env.rdrand (md .r) ∧
      md' .ratioFactor = md .ratioFactor := by
  cases msr with
  | false => exact ⟨m, md, rfl, rfl, rfl, h, hk, rfl, rfl⟩
  | true =>
      obtain ⟨m', hrun, hgs, hprot, hholds⟩ := h.changeValues hk env hrsp
      exact ⟨m', _, hrun, hgs, hprot, hholds, hk.update rfl _, rfl, rfl⟩

/-- The page is writable and marked; the time of the last call is as it was. -/
theorem AtRest.opened (h : AtRest k m p ss md slots) :
    Holds ((m.mprotect p realMetaDataSize .readWrite).set p .isRandomizing 1) p ss
        (Function.update md .isRandomizing 1) slots ∧
      ((m.mprotect p realMetaDataSize .readWrite).set p .isRandomizing 1).get p .cpuCycles =
        md .cpuCycles := by
  have hopen := (h.toHolds.mprotect (q := .readWrite) (by decide)).set .isRandomizing 1
  exact ⟨hopen, hopen.fields .cpuCycles⟩

/-- A call that comes too early leaves the page writable: it returns without the `mprotect` at the
end. -/
theorem AtRest.early (h : AtRest k m p ss md slots) (msr : Bool) (fuel : Nat) (rsp : Word)
    (hearly : elapsed env (md .cpuCycles) = false) :
    ∃ m', rerandomize msr env fuel rsp p m = some m' ∧ AtRest k m' p ss md slots ∧
      Protected m'.mem p realMetaDataSize .readWrite := by
  obtain ⟨hopen, hlast⟩ := h.opened
  have hclosed := hopen.set .isRandomizing 0
  have hsame : Function.update (Function.update md .isRandomizing 1) .isRandomizing 0 = md := by
    rw [Function.update_idem, ← h.idle, Function.update_eq_self]
  rw [hsame] at hclosed
  rw [rerandomize, hlast, if_pos (by simpa using hearly)]
  exact ⟨_, rfl, { hclosed with
    gs := h.gs
    describes := h.describes
    idle := h.idle }, m.mem.protected_protect⟩

/-- A call that is not too early comes to its moving part. -/
theorem AtRest.late (h : AtRest k m p ss md slots) (msr : Bool) (fuel : Nat)
    (hrsp : k.InStack rsp) (hlate : elapsed env (md .cpuCycles) = true) :
    ∃ m₁ md₁, rerandomize msr env fuel rsp p m = movePart env fuel p m₁ ∧ m₁.gs = p ∧
      (∀ x, m.mem.prot x = .none → m₁.mem.prot x = .none) ∧
      Holds m₁ p ss md₁ (slotsAfter k msr rsp env.rdrand slots) ∧ Describes k md₁ p ss ∧
      md₁ .r = randomAfter msr env.rdrand (md .r) ∧ md₁ .ratioFactor = md .ratioFactor - 1 := by
  obtain ⟨hopen, hlast⟩ := h.opened
  have hmarked := hopen.set .cpuCycles env.rdtsc
  have hk := (h.describes.update (f := .isRandomizing) rfl 1).update (f := .cpuCycles) rfl
    env.rdtsc
  obtain ⟨m₁, md₁, hvalue, hgs, hprot, hholds, hk₁, hr, hratio⟩ :=
    hmarked.valuePart hk hrsp msr env
  refine ⟨m₁.set p .ratioFactor (m₁.get p .ratioFactor - 1), _,
    rerandomize_of_elapsed rfl (by rwa [hlast]) hvalue rfl, hgs.trans h.gs, fun x hx => ?_,
    hholds.set .ratioFactor _, hk₁.update rfl _, hr, ?_⟩
  · rw [Machine.set_prot, hprot]
    exact (if_neg fun hin => h.page x hin hx).trans hx
  · rw [Function.update_self, hholds.fields, hratio]
    rfl

/-- **The three ways in which a call returns**: too early, with the page left writable; at rest
again; and, when `mremap` fails, without the shadow stack. -/
theorem rerandomize_spec (h : AtRest k m p ss md slots) (hrsp : k.InStack rsp)
    (hrun : rerandomize msr env fuel rsp p m = some m') :
    (elapsed env (md .cpuCycles) = false ∧ AtRest k m' p ss md slots ∧
        Protected m'.mem p realMetaDataSize .readWrite) ∨
      (elapsed env (md .cpuCycles) = true ∧ (Moves md → env.mremap = true) ∧
        ∃ p' ss' md', AtRest k m' p' ss' md' (slotsAfter k msr rsp env.rdrand slots) ∧
          md' .r = randomAfter msr env.rdrand (md .r) ∧
          Protected m'.mem p' realMetaDataSize .read) ∨
      (elapsed env (md .cpuCycles) = true ∧ Moves md ∧ env.mremap = false ∧
        m'.get m'.gs .shadowStack = mapFailed ∧ m'.saved = ss) := by
  cases helapsed : elapsed env (md .cpuCycles) with
  | false =>
      obtain ⟨m₁, hrun₁, hrest, hwritable⟩ := h.early msr _ rsp helapsed
      obtain rfl := Option.some.inj (hrun₁.symm.trans hrun)
      exact Or.inl ⟨rfl, hrest, hwritable⟩
  | true =>
      obtain ⟨m₁, md₁, heq, hgs, -, hholds, hk₁, hr, hratio⟩ := h.late msr _ hrsp helapsed
      rw [heq] at hrun
      refine Or.inr ?_
      rcases movePart_spec hholds hgs hk₁ hrun with hrest | hlost
      · obtain ⟨hmremap, p', ss', md', hrest, hr', hread⟩ := hrest
        rw [hratio] at hmremap
        exact Or.inl ⟨rfl, hmremap, p', ss', md', hrest, hr'.trans hr, hread⟩
      · rw [hratio] at hlost
        exact Or.inr ⟨rfl, hlost⟩

/-- A call returns when the kernel has room. Without room the source asks again and again. -/
theorem AtRest.returns (h : AtRest k m p ss md slots) (msr : Bool) (env : Env)
    (hrsp : k.InStack rsp) {new nss : Word} (hpage : ∀ hint, env.mmap 0 0 hint = some new)
    (hregion : ∀ hint, env.mmap 1 0 hint = some nss) (hnew : Fresh m new realMetaDataSize)
    (hnss : Fresh (m.mapZero new realMetaDataSize) nss realShadowStackSize) :
    ∃ m', rerandomize msr env 1 rsp p m = some m' := by
  cases helapsed : elapsed env (md .cpuCycles) with
  | false =>
      obtain ⟨m₁, hrun, -⟩ := h.early msr _ rsp helapsed
      exact ⟨m₁, hrun⟩
  | true =>
      obtain ⟨m₁, md₁, heq, -, hfree, -⟩ := h.late msr _ hrsp helapsed
      rw [heq, movePart]
      by_cases hratio : (m₁.get p .ratioFactor).toInt ≤ 0
      · have hnew₁ : Fresh (m₁.set p .ratioFactor defaultChangingMovingRatio) new
            realMetaDataSize := hnew.of_isFree hfree
        have hnss₁ : Fresh ((m₁.set p .ratioFactor defaultChangingMovingRatio).mapZero new
            realMetaDataSize) nss realShadowStackSize :=
          hnss.of_isFree (Machine.mapZero_free hfree)
        rw [if_pos hratio, moveRegions]
        simp only [getMemoryAtRandom_of_fresh hpage hnew₁ 0, Option.bind_eq_bind,
          Option.bind_some, getMemoryAtRandom_of_fresh hregion hnss₁ 0]
        rw [if_pos ⟨hnew.ne_mapFailed, hnss.ne_mapFailed⟩]
        exact ⟨_, rfl⟩
      · rw [if_neg hratio]
        exact ⟨_, rfl⟩

end Call

end FlashStack.FsGs
