/-
A process with several threads in the buddy-stack scheme.

The threads share one memory and one mask. A thread owns the four stack sizes below the top
of its stack: the call stack, the shadow area, and the two blocks. A step is a step of one
thread, the start of a new one, or a change of memory that no thread owns. A randomization
is one step here: its loop writes nothing but what its own thread owns, and no other thread
reads that.

* `inArea_iff_mapping`: a thread that `pthread_create` has started owns its stack mapping;
* `step_keeps`: a step of a thread changes only what it owns;
* `threads_decode`: whatever the order of the steps, every live activation of every thread
  decodes, and a randomization of any thread ends.

A new thread needs a stack that is apart from those of the others, as `mmap` gives it one;
how the size of that mapping is chosen is part of the model of sizes. The heap object that
carries the arguments of the new thread is left out, and a thread that ends is a thread that
takes no more steps.

The invariant is that of one thread, for each of them, over the memory that they share. It
speaks only of words that the thread owns (`Inv.congr`), so a step of another thread keeps
it.
-/

import FlashStack.Buddy.Sizes

namespace FlashStack.Buddy

open Lib.Memory Lib.Align

/-! ### What a thread owns -/

namespace Stack

variable (k : Stack)

/-- The four stack sizes below the top: the call stack, the shadow area, and the areas in which
the two blocks are. -/
def InArea (a : Word) : Prop :=
  k.top.toNat ≤ a.toNat + 4 * k.size.toNat ∧ a.toNat < k.top.toNat

theorem inArea_of_inStack {a : Word} (h : k.InStack a) : k.InArea a := by
  obtain ⟨-, hlow, hhigh⟩ := h
  unfold InArea
  omega

theorem inArea_of_inShadow {a : Word} (h : k.InShadow a) : k.InArea a := by
  obtain ⟨hlow, hhigh⟩ := h
  unfold InArea
  omega

/-- The fields of the blocks. -/
theorem inArea_field {p q : Word} (hp : k.Pair p q) (f : Field) : k.InArea (p + f.offset) := by
  obtain ⟨n, hfour, hle, hlt, h2, h3⟩ := k.blocks
  obtain ⟨hpage2, hpage3⟩ := k.inPage_field f
  obtain ⟨d, hd, hpage⟩ := k.size_page
  have hbase : 4 * k.size.toNat ≤ n * k.size.toNat := Nat.mul_le_mul_right _ hfour
  unfold InPage at hpage2 hpage3
  unfold InArea
  rcases hp with ⟨rfl, -⟩ | ⟨rfl, -⟩ <;> omega

/-- **A thread that `pthread_create` has started** owns its stack mapping. -/
theorem inArea_iff_mapping {mask stackLow a : Word} (hmask : k.mask = mask)
    (htop : k.top = stackHigh mask stackLow (buddyStackSize mask))
    (hmapping : stackLow.toNat + 4 * k.size.toNat < 2 ^ 64) :
    k.InArea a ↔ stackLow.toNat ≤ a.toNat ∧ a.toNat < stackLow.toNat + 4 * k.size.toNat := by
  have hsize : buddyStackSize mask = 4 * k.size := by
    rw [buddyStackSize, ← hmask, k.buddyCallStackSize_mask]
  have hhigh : k.top.toNat = stackLow.toNat + 4 * k.size.toNat := by
    rw [htop, stackHigh, ite_self, hsize]
    bv_omega
  unfold InArea
  omega

/-- What is not owned is no field of a block, so a change there leaves the metadata alone. -/
theorem outside_of_not_inArea {a p q : Word} (ha : ¬ k.InArea a) (hp : k.Pair p q) :
    Outside p a := by
  rintro f rfl
  exact ha (k.inArea_field hp f)

end Stack

section Steps

variable {k : Stack} {m : Words} {s s' : State} {a : Word}

/-- The initialisation. -/
theorem init_keeps (ha : ¬ k.InArea a) (randomVal : Word) (m : Words) :
    buddyInitTlsMetadata k.mask k.top randomVal m a = m a := by
  have h2 := k.outside_of_not_inArea ha (pair_ptr2 k)
  have h3 := k.outside_of_not_inArea ha (pair_ptr3 k)
  have hdef : buddyInitTlsMetadata k.mask k.top randomVal m =
      initBlock (initBlock m k.ptr2 k.ptr3 k.top randomVal) k.ptr3 k.ptr2 k.top randomVal := rfl
  rw [hdef]
  simp only [initBlock, setField_of_outside h2, setField_of_outside h3]

/-- **A step of a thread** changes only what it owns. For a randomization this is the
specification of the function, for the others the text. -/
theorem step_keeps (h : Inv k s) (hstep : Step k s s') (ha : ¬ k.InArea a) :
    s'.mem a = s.mem a := by
  cases hstep with
  | @write b hb v =>
      refine Function.update_of_ne ?_ _ _
      rintro rfl
      exact ha (k.inArea_of_inStack hb)
  | @prologue r hr =>
      refine Function.update_of_ne ?_ _ _
      rintro rfl
      exact ha (k.inArea_of_inShadow (k.inShadow_add_mask hr))
  | epilogue => rfl
  | @randomize caller r m cycles x hcaller hr hlive hrun =>
      obtain ⟨buddy, hp⟩ := k.exists_pair hcaller
      obtain ⟨m', hrun', -, -, hwords⟩ := auEduUnswRandomize_spec h.metadata hp hr cycles x
      obtain rfl := Option.some.inj (hrun'.symm.trans hrun)
      refine (hwords a fun p q hpair => k.outside_of_not_inArea ha hpair).trans (if_neg ?_)
      exact fun hin => ha (k.inArea_of_inShadow (k.inShadow_of_inLanes hr hin))

/-- The invariant of a thread is about what it owns, so that any change elsewhere keeps it. -/
theorem Inv.congr (h : Inv k s) (hm : ∀ a, k.InArea a → m a = s.mem a) :
    Inv k { s with mem := m } := by
  have hfield : ∀ p q f, k.Pair p q → getField m p f = getField s.mem p f :=
    fun p q f hp => hm _ (k.inArea_field hp f)
  refine ⟨⟨?_, fun p q hp => ?_⟩, fun r ra hlive => ?_⟩
  · rw [hfield _ _ _ (pair_ptr2 k), hfield _ _ _ (pair_ptr3 k)]
    exact h.metadata.randomVal
  · rw [hfield p q _ hp, hfield p q _ hp, hfield p q _ hp]
    exact h.metadata.block p q hp
  · obtain ⟨hr, hslot⟩ := h.slot r ra hlive
    have hin := k.inArea_of_inShadow (k.inShadow_add_mask hr)
    refine ⟨hr, (hm _ hin).trans (hslot.trans ?_)⟩
    rw [hfield _ _ _ (pair_ptr2 k)]

/-- A randomization ends: from the slot of the stack pointer, its loop gets to the top of the
shadow area. -/
theorem Inv.randomize_isSome (h : Inv k s) {caller r : Word} (hcaller : k.InStack caller)
    (hr : k.InStack r) (cycles x : Word) :
    (auEduUnswRandomize k.mask (buddyGetTlsInfo k.mask caller) cycles x r s.mem).isSome = true := by
  obtain ⟨buddy, hp⟩ := k.exists_pair hcaller
  obtain ⟨m', hrun, -⟩ := auEduUnswRandomize_spec h.metadata hp hr cycles x
  rw [hrun]
  rfl

end Steps

/-! ### Threads -/

abbrev Tid := Nat

/-- The threads of a process; `stack` gives the stack of a running thread. The mask is one for
all, and no part of the state. -/
structure Threads where
  mem : Words
  stack : Tid → Option Stack
  live : Tid → Word → Option Word

namespace Threads

/-- What thread `t` sees: the memory of the process, and its own live activations. -/
def state (s : Threads) (t : Tid) : State := ⟨s.mem, s.live t⟩

/-- Thread `t`, with the stack `k`, has come to `st`. -/
def put (s : Threads) (t : Tid) (k : Stack) (st : State) : Threads where
  mem := st.mem
  stack := Function.update s.stack t (some k)
  live := Function.update s.live t st.live

/-- The two threads own different memory, as the kernel gives a new stack a mapping of its own. -/
def Apart (k k' : Stack) : Prop := ∀ a, k.InArea a → ¬ k'.InArea a

theorem Apart.symm {k k' : Stack} (h : Apart k k') : Apart k' k := fun a ha ha' => h a ha' ha

/-- The steps of a process. A thread starts where the mappings of stacks leave room, with what
`pthread_attr_getstack` answers. -/
inductive Step (mask : Word) : Threads → Threads → Prop where
  | start {s : Threads} {t : Tid} {k : Stack} (stackLow stackSize randomVal : Word)
      (hnew : s.stack t = none) (hmask : k.mask = mask)
      (htop : k.top = stackHigh mask stackLow stackSize)
      (hapart : ∀ u k', s.stack u = some k' → Apart k k') :
      Step mask s (s.put t k
        ⟨buddyInitMainThreadTls mask stackLow stackSize randomVal s.mem, fun _ => none⟩)
  | act {s : Threads} {t : Tid} {k : Stack} {st : State} (hk : s.stack t = some k)
      (hstep : Buddy.Step k (s.state t) st) : Step mask s (s.put t k st)
  | exit {s : Threads} (t : Tid) : Step mask s { s with stack := Function.update s.stack t none }
  | rest {s : Threads} {m : Words}
      (hm : ∀ t k a, s.stack t = some k → k.InArea a → m a = s.mem a) :
      Step mask s { s with mem := m }

inductive Reachable (mask : Word) : Threads → Prop where
  | init {s : Threads} (hnew : ∀ t, s.stack t = none) : Reachable mask s
  | step {s s' : Threads} (h : Reachable mask s) (hstep : Step mask s s') : Reachable mask s'

/-- **The invariant**: that of every thread, and the threads own different memory. -/
structure Inv (mask : Word) (s : Threads) : Prop where
  thread : ∀ t k, s.stack t = some k → k.mask = mask ∧ Buddy.Inv k (s.state t)
  apart : ∀ t u k k', t ≠ u → s.stack t = some k → s.stack u = some k' → Apart k k'

section Run

variable {mask : Word} {s s' : Threads} {t : Tid} {k : Stack} {st : State}

theorem stack_put_self : (s.put t k st).stack t = some k := Function.update_self ..

theorem stack_put_of_ne {u : Tid} (hut : u ≠ t) : (s.put t k st).stack u = s.stack u :=
  Function.update_of_ne hut ..

theorem state_put_self : (s.put t k st).state t = st := by
  simp [state, put]

theorem state_put_of_ne {u : Tid} (hut : u ≠ t) :
    (s.put t k st).state u = { s.state u with mem := st.mem } := by
  simp [state, put, Function.update_of_ne hut]

/-- **One thread moves**, and changes only what it owns. The invariant of the others is about
other memory. -/
theorem Inv.put (h : Inv mask s) (hmask : k.mask = mask) (hst : Buddy.Inv k st)
    (hkeeps : ∀ a, ¬ k.InArea a → st.mem a = s.mem a)
    (hapart : ∀ u k', u ≠ t → s.stack u = some k' → Apart k k') : Inv mask (s.put t k st) := by
  refine ⟨fun u k' hk' => ?_, fun u v k₁ k₂ huv hk₁ hk₂ => ?_⟩
  · by_cases hut : u = t
    · subst hut
      obtain rfl := Option.some.inj (stack_put_self.symm.trans hk')
      rw [state_put_self]
      exact ⟨hmask, hst⟩
    · rw [stack_put_of_ne hut] at hk'
      rw [state_put_of_ne hut]
      obtain ⟨hmask', hinv⟩ := h.thread u k' hk'
      exact ⟨hmask', hinv.congr fun a ha => hkeeps a fun hin => hapart u k' hut hk' a hin ha⟩
  · by_cases hut : u = t
    · subst hut
      obtain rfl := Option.some.inj (stack_put_self.symm.trans hk₁)
      rw [stack_put_of_ne (Ne.symm huv)] at hk₂
      exact hapart v k₂ (Ne.symm huv) hk₂
    · rw [stack_put_of_ne hut] at hk₁
      by_cases hvt : v = t
      · subst hvt
        obtain rfl := Option.some.inj (stack_put_self.symm.trans hk₂)
        exact (hapart u k₁ hut hk₁).symm
      · rw [stack_put_of_ne hvt] at hk₂
        exact h.apart u v k₁ k₂ huv hk₁ hk₂

theorem Inv.step (h : Inv mask s) (hstep : Step mask s s') : Inv mask s' := by
  cases hstep with
  | @start t k stackLow stackSize randomVal hnew hmask htop hapart =>
      have hinit : buddyInitMainThreadTls mask stackLow stackSize randomVal s.mem =
          buddyInitTlsMetadata k.mask k.top randomVal s.mem := by
        rw [buddyInitMainThreadTls, hmask, htop]
      rw [hinit]
      exact h.put hmask (inv_init k s.mem randomVal)
        (fun a ha => init_keeps ha randomVal s.mem) fun u k' _ hk' => hapart u k' hk'
  | @act t k st hk hstep =>
      obtain ⟨hmask, hinv⟩ := h.thread t k hk
      exact h.put hmask (inv_step hinv hstep) (fun a ha => step_keeps hinv hstep ha)
        fun u k' hut hk' => h.apart t u k k' (Ne.symm hut) hk hk'
  | exit t =>
      have hkept : ∀ u k', Function.update s.stack t none u = some k' → s.stack u = some k' := by
        intro u k' hk'
        by_cases hut : u = t
        · subst hut
          simp at hk'
        · rwa [Function.update_of_ne hut] at hk'
      exact ⟨fun u k' hk' => h.thread u k' (hkept u k' hk'),
        fun u v k₁ k₂ huv hk₁ hk₂ => h.apart u v k₁ k₂ huv (hkept u k₁ hk₁) (hkept v k₂ hk₂)⟩
  | @rest m hm =>
      refine ⟨fun t k hk => ?_, h.apart⟩
      obtain ⟨hmask, hinv⟩ := h.thread t k hk
      exact ⟨hmask, hinv.congr fun a ha => hm t k a hk ha⟩

theorem reachable_inv (h : Reachable mask s) : Inv mask s := by
  induction h with
  | @init s hnew =>
      refine ⟨fun t k hk => ?_, fun t u k k' _ hk => ?_⟩
      · rw [hnew t] at hk
        cases hk
      · rw [hnew t] at hk
        cases hk
  | step hs hstep ih => exact ih.step hstep

/-- **The threads of a process.** In every run, whatever the order of the steps: every live
activation of every thread decodes to the return address that its prologue has encoded, a
randomization of any thread ends, and no two threads own the same address. -/
theorem threads_decode (h : Reachable mask s) :
    (∀ t k, s.stack t = some k →
      (∀ r ra, s.live t r = some ra → epilogue mask r s.mem = ra) ∧
      ∀ caller r cycles x, k.InStack caller → k.InStack r →
        (auEduUnswRandomize mask (buddyGetTlsInfo mask caller) cycles x r s.mem).isSome = true) ∧
    ∀ t u k k', t ≠ u → s.stack t = some k → s.stack u = some k' → Apart k k' := by
  have hinv := reachable_inv h
  refine ⟨fun t k hk => ?_, hinv.apart⟩
  obtain ⟨rfl, hthread⟩ := hinv.thread t k hk
  exact ⟨fun r ra hr => hthread.epilogue_eq hr,
    fun caller r cycles x hcaller hr => hthread.randomize_isSome hcaller hr cycles x⟩

end Run

/-! ### Two threads -/

/-- A stack above `smallStack`, which it does not overlap, for a second thread. -/
def nextStack : Stack where
  size := smallStack.size
  log := smallStack.log
  top := 65536
  size_eq := smallStack.size_eq
  le_log := smallStack.le_log
  top_page := rfl
  le_top := by decide

theorem apart_smallStack : Apart nextStack smallStack := by
  intro a ha ha'
  have hnext : nextStack.top.toNat = 65536 ∧ nextStack.size.toNat = 8192 := ⟨rfl, rfl⟩
  have hsmall : smallStack.top.toNat = 32768 := rfl
  obtain ⟨hlow, -⟩ := ha
  obtain ⟨-, hhigh⟩ := ha'
  omega

/-- A process before its first thread. No stack is in use, and no activation is live. -/
def noThreads : Threads := ⟨fun _ => 0, fun _ => none, fun _ _ => none⟩

/-- The first thread has entered a function when the second one starts. -/
theorem threads_decode_two :
    ∃ s, Reachable (-8192) s ∧ s.stack 1 = some nextStack ∧ s.live 0 32760 = some 0x401000 ∧
      epilogue (-8192) 32760 s.mem = 0x401000 := by
  have hs₁ := (Reachable.init fun _ => rfl : Reachable (-8192) noThreads).step
    (.start (t := 0) (k := smallStack) 0 32768 77 rfl rfl (by decide) (by simp [noThreads]))
  generalize hs : noThreads.put 0 smallStack _ = s₁ at hs₁
  have hk₁ : s₁.stack 0 = some smallStack := by rw [← hs, stack_put_self]
  have hnew₁ : s₁.stack 1 = none := by simp [← hs, put, noThreads]
  have hs₂ := hs₁.step (.act hk₁ (.write inStack_smallStack 0x401000))
  have hs₃ := hs₂.step (.act stack_put_self (.prologue inStack_smallStack))
  generalize hs' : (s₁.put 0 smallStack _).put 0 smallStack _ = s₃ at hs₃
  have hk₃ : s₃.stack 0 = some smallStack := by rw [← hs', stack_put_self]
  have hnew₃ : s₃.stack 1 = none := by simp [← hs', put, hnew₁]
  have hlive₃ : s₃.live 0 32760 = some 0x401000 := by simp [← hs', put, state]
  have happart : ∀ u k', s₃.stack u = some k' → Apart nextStack k' := by
    intro u k' hu
    have hu₀ : u = 0 := by
      by_contra hne
      by_cases hu₁ : u = 1
      · rw [hu₁, hnew₃] at hu
        cases hu
      · simp [← hs', ← hs, put, noThreads, hne] at hu
    rw [hu₀, hk₃] at hu
    obtain rfl := Option.some.inj hu
    exact apart_smallStack
  have hs₄ := hs₃.step (.start (t := 1) 32768 32768 78 hnew₃ rfl (by decide) happart)
  generalize hs'' : s₃.put 1 nextStack _ = s₄ at hs₄
  have hk₄ : s₄.stack 0 = some smallStack := by
    rw [← hs'', stack_put_of_ne (by decide), hk₃]
  have hlive₄ : s₄.live 0 32760 = some 0x401000 := by
    rw [← hlive₃]
    simp [← hs'', put]
  obtain ⟨hthreads, -⟩ := threads_decode hs₄
  obtain ⟨hdecode, -⟩ := hthreads 0 smallStack hk₄
  exact ⟨s₄, hs₄, by rw [← hs'', stack_put_self], hlive₄, hdecode _ _ hlive₄⟩

end Threads

end FlashStack.Buddy
