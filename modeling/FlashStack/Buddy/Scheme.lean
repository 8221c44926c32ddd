/-
The buddy-stack scheme: `buddy_tls.c`, `simd_rand.c`, and the prologue and epilogue that
`afl-as.c` emits with `USE_SPA_BUDDY_STACK_TLS_WITH_STK_SIZE`.

In this build there is no shadow region. The return address plus a random value is stored
one call stack below its own place, and the random value itself lies in two blocks of
metadata below that, of which the code finds one by masking the stack pointer. The stack
size is read from the mask word `.BUDDY.CALL_STACK_SIZE_MASK`, which is a parameter of every
definition here.

What `random()` and the cycle counter return are arguments. `mprotect` changes no memory and
its result is ignored, so it does not appear, and neither does printing. A store to a field
of a block is a store to its word; that the blocks have no field in common is a condition of
the lemmas (`Separate`), and that initialised blocks meet it is a fact about the layout.

* `tlsAddress_eq`: the macro of the runtime and the instrumented code compute one address,
  with every mask;
* `getField_initBlock`, `getField_beginRandomize_tls`, …: what the stores to the blocks
  leave there, and that they leave everything else.
-/

import FlashStack.Buddy.VectorAdd

namespace FlashStack.Buddy

open Lib.Memory

/-! ### The metadata -/

/-- The fields of `struct Buddy_TLS_Info`. All of them are 64-bit words. -/
inductive Field where
  | randomVal
  | stackTop
  | buddyInfo
  | isRandomizing
  | cpuCycles
deriving DecidableEq

def Field.offset : Field → Word
  | .randomVal => 0
  | .stackTop => 8
  | .buddyInfo => 16
  | .isRandomizing => 24
  | .cpuCycles => 32

/-- `p->f`, a load of one word of the struct. -/
def getField (m : Words) (p : Word) (f : Field) : Word := m (p + f.offset)

/-- `p->f = v`. Other words, and the other fields of the block, stay. -/
def setField (m : Words) (p : Word) (f : Field) (v : Word) : Words :=
  Function.update m (p + f.offset) v

/-! ### The macros of `spa.h` -/

/-- `BUDDY_CALL_STACK_SIZE`: the mask with the sign changed. For the default mask it is 8 MB. -/
def buddyCallStackSize (mask : Word) : Word := -mask

/-- `BUDDY_CALL_STACK_SIZE_MASK`, which the macro computes from the size again;
`buddyCallStackSizeMask_eq` says that it is the mask. -/
def buddyCallStackSizeMask (mask : Word) : Word := ~~~(buddyCallStackSize mask - 1)

/-- `BUDDY_ALIGN_CALL_STACK_POINTER`: the address rounded down to a multiple of the size, if the
size is a power of two. -/
def buddyAlignCallStackPointer (mask x : Word) : Word := buddyCallStackSizeMask mask &&& x

/-- `buddy_get_tls_info`, and the address that `DO_RANDOMIZATION` takes: two call stacks below the
aligned stack pointer. -/
def buddyGetTlsInfo (mask rsp : Word) : Word :=
  buddyAlignCallStackPointer mask rsp - 2 * buddyCallStackSize mask

/-! ### Initialisation -/

/-- The stores of `buddy_init_tls_metadata` to one of the two blocks. -/
def initBlock (m : Words) (p buddy stackHigh randomVal : Word) : Words :=
  setField (setField (setField (setField (setField m p .randomVal randomVal) p .stackTop stackHigh)
    p .buddyInfo buddy) p .cpuCycles 0) p .isRandomizing 0

/-- `buddy_init_tls_metadata`; `randomVal` is what `random()` returns. Both blocks get the same
value, and each the address of the other. -/
def buddyInitTlsMetadata (mask stackHigh randomVal : Word) (m : Words) : Words :=
  let ptr2 := buddyAlignCallStackPointer mask stackHigh - 2 * buddyCallStackSize mask
  let ptr3 := buddyAlignCallStackPointer mask stackHigh - 3 * buddyCallStackSize mask
  initBlock (initBlock m ptr2 ptr3 stackHigh randomVal) ptr3 ptr2 stackHigh randomVal

/-! ### The instrumented code -/

/-- The address `(%r11, %r10, 2)` of the random value, with the masked `rsp` in `%r11` and
the mask in `%r10`. -/
def tlsAddress (mask rsp : Word) : Word := (rsp &&& mask) + mask * 2

/-- The prologue: the sum of the return address and the random value goes to the slot, one call
stack below the stack pointer. -/
def prologue (mask rsp : Word) (m : Words) : Words :=
  Function.update m (rsp + mask) (m (tlsAddress mask rsp) + m rsp)

/-- The target of the jump that ends the epilogue: the slot, less the random value of the moment.
The call stack is not read. -/
def epilogue (mask rsp : Word) (m : Words) : Word := m (rsp + mask) - m (tlsAddress mask rsp)

/-! ### Randomization -/

/-- `IS_BUDDY_STACK_INITED`: the block names a buddy, which names the block. This is all that
tells a block from other memory. -/
def isBuddyStackInited (m : Words) (tls : Word) : Bool :=
  tls != 0 && getField m tls .buddyInfo != 0 &&
    getField m (getField m tls .buddyInfo) .buddyInfo == tls

/-- The stores before the shadow stack is updated. The flag of the buddy is set and cleared here;
the one of the block stays set until the end. -/
def beginRandomize (m : Words) (tls buddy cycles x : Word) : Words :=
  let m := setField m tls .isRandomizing 1
  let m := setField m tls .randomVal (getField m tls .randomVal + x)
  let m := setField m tls .cpuCycles cycles
  let m := setField m buddy .isRandomizing 1
  let m := setField m buddy .randomVal (getField m buddy .randomVal + x)
  let m := setField m buddy .cpuCycles cycles
  setField m buddy .isRandomizing 0

/-- `au_edu_unsw_randomize`; `x` is what `random()` returns, `rsp` the stack pointer there.
`none` when the update of the shadow stack does not end. -/
def auEduUnswRandomize (mask tls cycles x rsp : Word) (m : Words) : Option Words :=
  let buddy := getField m tls .buddyInfo
  if !isBuddyStackInited m tls || getField m tls .isRandomizing != 0 ||
      getField m buddy .isRandomizing != 0 then
    some m
  else do
    let stackTop := getField m tls .stackTop
    let m ← avx2_64_x_4_add (beginRandomize m tls buddy cycles x)
      (rsp - buddyCallStackSize mask) (stackTop - buddyCallStackSize mask) x
    return setField m tls .isRandomizing 0

/-! ### The address of the metadata -/

/-- The mask of the macros is the word that the code loads. -/
theorem buddyCallStackSizeMask_eq (mask : Word) : buddyCallStackSizeMask mask = mask := by
  rw [buddyCallStackSizeMask, buddyCallStackSize, BitVec.not_eq_neg_add]
  grind

/-- **The C macro and the instrumented code** look at one address, with every mask. -/
theorem tlsAddress_eq (mask r : Word) : buddyGetTlsInfo mask r = tlsAddress mask r := by
  rw [buddyGetTlsInfo, tlsAddress, buddyAlignCallStackPointer, buddyCallStackSizeMask_eq,
    BitVec.and_comm, buddyCallStackSize]
  grind

/-! ### Fields of separate blocks -/

/-- The two blocks have no field in common, so that a store to one of them leaves the fields of
the other alone. -/
def Separate (p q : Word) : Prop := ∀ f g : Field, p + f.offset ≠ q + g.offset

/-- `a` is no field of the block, so that writing fields of the block leaves it alone. -/
def Outside (p a : Word) : Prop := ∀ f : Field, a ≠ p + f.offset

theorem Field.offset_injective {f g : Field} (h : f.offset = g.offset) : f = g := by
  cases f <;> cases g <;> first | rfl | exact absurd h (by decide)

@[simp] theorem getField_setField_self (m : Words) (p v : Word) (f g : Field) :
    getField (setField m p f v) p g = if g = f then v else getField m p g := by
  unfold getField setField
  by_cases h : g = f
  · subst h
    rw [Function.update_self, if_pos rfl]
  · rw [Function.update_of_ne, if_neg h]
    intro heq
    exact h (Field.offset_injective (by simpa using heq))

theorem getField_setField_of_separate {m : Words} {p q v : Word} {f g : Field}
    (h : Separate p q) : getField (setField m q f v) p g = getField m p g :=
  Function.update_of_ne (h g f) _ _

theorem setField_of_outside {m : Words} {p a v : Word} {f : Field} (h : Outside p a) :
    setField m p f v a = m a :=
  Function.update_of_ne (h f) _ _

theorem Separate.symm {p q : Word} (h : Separate p q) : Separate q p :=
  fun f g heq => h g f heq.symm

/-! ### What the stores to the blocks leave -/

/-- The fields of a block that `buddy_init_tls_metadata` writes. -/
theorem getField_initBlock (m : Words) (p buddy stackHigh randomVal : Word) :
    getField (initBlock m p buddy stackHigh randomVal) p .randomVal = randomVal ∧
      getField (initBlock m p buddy stackHigh randomVal) p .stackTop = stackHigh ∧
      getField (initBlock m p buddy stackHigh randomVal) p .buddyInfo = buddy ∧
      getField (initBlock m p buddy stackHigh randomVal) p .isRandomizing = 0 := by
  simp [initBlock]

theorem getField_initBlock_of_separate {m : Words} {p q buddy stackHigh randomVal : Word}
    (h : Separate p q) (f : Field) :
    getField (initBlock m q buddy stackHigh randomVal) p f = getField m p f := by
  simp only [initBlock, getField_setField_of_separate h]

section Randomize

variable {m : Words} {tls buddy : Word}

/-- The block that the function is called for. -/
theorem getField_beginRandomize_tls (cycles x : Word) (h : Separate tls buddy) :
    getField (beginRandomize m tls buddy cycles x) tls .randomVal = getField m tls .randomVal + x ∧
      getField (beginRandomize m tls buddy cycles x) tls .stackTop = getField m tls .stackTop ∧
      getField (beginRandomize m tls buddy cycles x) tls .buddyInfo =
        getField m tls .buddyInfo := by
  simp [beginRandomize, getField_setField_of_separate h]

/-- Its buddy. -/
theorem getField_beginRandomize_buddy (cycles x : Word) (h : Separate tls buddy) :
    getField (beginRandomize m tls buddy cycles x) buddy .randomVal =
        getField m buddy .randomVal + x ∧
      getField (beginRandomize m tls buddy cycles x) buddy .stackTop = getField m buddy .stackTop ∧
      getField (beginRandomize m tls buddy cycles x) buddy .buddyInfo =
        getField m buddy .buddyInfo ∧
      getField (beginRandomize m tls buddy cycles x) buddy .isRandomizing = 0 := by
  simp [beginRandomize, getField_setField_of_separate h.symm]

theorem beginRandomize_of_outside {a : Word} (cycles x : Word) (htls : Outside tls a)
    (hbuddy : Outside buddy a) : beginRandomize m tls buddy cycles x a = m a := by
  simp only [beginRandomize, setField_of_outside htls, setField_of_outside hbuddy]

end Randomize

end FlashStack.Buddy
