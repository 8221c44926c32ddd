/-
The fs/gs mode: `fsgs.c`, and the prologue and epilogue that `afl-as.c` emits with
`USE_SPA_FS_GS_TLS`.

The metadata is a page of its own, found through the GS base, and the shadow stack a mapping
of 9 MB. A re-randomization changes the random value that is added to return addresses, and
now and then moves both mappings. The machine here is what one thread sees: the aligned
words of memory with the protection of their pages, since every access of this mode is to an
aligned word, and a GS base.

Everything the machine leaves open (the clock, random values, the outcomes of `mmap` and
`mremap`) is read from `env`; the kernel is taken at its documented behaviour: a mapping is
fresh, aligned to a page and below the end of user space. `arch_prctl` and `mprotect`
succeed. A function that does not return is `none`, which is the case of a loop that never
gets memory.

Left out are printing, the code under `#if 0`, the error exits of `pthread_getattr_np`, and
what counts crashes and relaxes the sandbox of Firefox. The functions that end a thread are
those of the other mode but that they unmap one page more; no thread ends here.
-/

import FlashStack.Lib.Pages
import FlashStack.Spa
import FlashStack.FsGs.VectorAdd

namespace FlashStack.FsGs

open Lib.Memory Lib.Pages

/-! ### Constants -/

/-- `REAL_SHADOW_STACK_SIZE` of `fsgs.c`: 8 MB for the slots below the stack pointer of the
initialisation, and 1 MB for those above. The metadata is elsewhere. -/
def realShadowStackSize : Nat := defBuddyCallStackSize + 2 ^ 20

/-- `REAL_META_DATA_SIZE`: one page, so that it can be given a protection of its own. -/
def realMetaDataSize : Nat := 4096

/-- `SPA_MAX_MMAP_ATTEMPTS` of `fsgs.c`. The number does not bound the attempts: after it the
address is left to the kernel. -/
def spaMaxMmapAttempts : Nat := 5

/-- `DEFAULT_CHANGING_MOVING_RATIO`: how many re-randomizations it takes until one moves the
regions. With 1 each of them does, unless the program sets another ratio. -/
def defaultChangingMovingRatio : Word := 1

/-- `MAP_FAILED`, which `mmap` and `mremap` return in place of an address. -/
def mapFailed : Word := -1

/-- `DEF_BUDDY_CALL_STACK_SIZE` as a word. -/
def callStackSize : Word := BitVec.ofNat 64 defBuddyCallStackSize

/-! ### The machine -/

/-- The fields of `struct gs_metadata`, all of them 64-bit words. Some are never read by the
functions here, but copied with the rest. -/
inductive Field where
  | selfAddr
  | diff
  | r
  | isRandomizing
  | shadowStack
  | cpuCycles
  | state
  | shadowStackTop
  | callStackTop
  | ratioFactor
  | savedDiff
  | relaxing
deriving DecidableEq, Repr

def Field.all : List Field :=
  [.selfAddr, .diff, .r, .isRandomizing, .shadowStack, .cpuCycles, .state, .shadowStackTop,
    .callStackTop, .ratioFactor, .savedDiff, .relaxing]

/-- `GET_GS_METADATA_FIELD_OFFSET`: every field is a word behind the one before it. -/
def Field.offset : Field → Word
  | .selfAddr => 0
  | .diff => 8
  | .r => 16
  | .isRandomizing => 24
  | .shadowStack => 32
  | .cpuCycles => 40
  | .state => 48
  | .shadowStackTop => 56
  | .callStackTop => 64
  | .ratioFactor => 72
  | .savedDiff => 80
  | .relaxing => 88

/-- One thread: memory, GS base, and its `unsw_flash_stack_inited`. `saved` is no variable of the
source: it says where the mapping for the saved return addresses stands. -/
structure Machine where
  mem : Paged
  gs : Word
  inited : Bool
  saved : Word

/-- What is left open during one call. The attempts of `get_memory_at_random` are numbered by
the call and by the iteration of its loop; the kernel sees the hint. -/
structure Env where
  rdtsc : Word
  rdrand : Word
  rdrandAt : Nat → Nat → Word
  mmap : Nat → Nat → Word → Option Word
  mremap : Bool

namespace Machine

/-- `p->f`. A load of an aligned word; whether the page is mapped is looked at where it matters.
-/
def get (m : Machine) (p : Word) (f : Field) : Word := m.mem.word (p + f.offset)

/-- `p->f = v`. As in the other mode the fields are words, and no two of them overlap. -/
def set (m : Machine) (p : Word) (f : Field) (v : Word) : Machine :=
  { m with mem := m.mem.set (p + f.offset) v }

/-- `mprotect`, which succeeds: the ranges are pages that the thread has mapped itself. -/
def mprotect (m : Machine) (a : Word) (n : Nat) (p : Prot) : Machine :=
  { m with mem := m.mem.protect a n p }

/-- `mmap` with `PROT_READ | PROT_WRITE`, at an address of the kernel's choice in user space. -/
def mmap (m : Machine) (n : Nat) : Option Word → Option Word × Machine
  | none => (none, m)
  | some a =>
      if a.toNat % 4096 = 0 ∧ a.toNat + n ≤ 2 ^ 47 ∧ IsFree m.mem a n then
        (some a, { m with mem := m.mem.mapZero a n })
      else (none, m)

def munmap (m : Machine) (a : Word) (n : Nat) : Machine := { m with mem := m.mem.unmap a n }

/-- `mremap` with `MREMAP_MAYMOVE | MREMAP_FIXED`, of a page-aligned mapping. It takes the place
of whatever was mapped at the new address. -/
def mremap (m : Machine) (old : Word) (n : Nat) (new : Word) (succeeds : Bool) :
    Option Word × Machine :=
  if succeeds ∧ old.toNat % 4096 = 0 then
    (some new, { m with
      mem := m.mem.remap old new n, saved := if m.saved = old then new else m.saved })
  else (none, m)

/-- `arch_prctl(ARCH_SET_GS)`. Its result is not looked at by the source, and it is taken to
succeed. -/
def setGs (m : Machine) (p : Word) : Machine := { m with gs := p }

end Machine

/-! ### `fsgs.c` -/

/-- The first argument of `mmap` in iteration `i`: a random page of user space, and after some
attempts no preference any more. -/
def mmapHint (x : Word) (i : Nat) : Word :=
  if spaMaxMmapAttempts < i then 0 else x &&& 0x7FFFFFFFF000

/-- `get_memory_at_random` from iteration `i` on, for at most `fuel` iterations. The source has no
bound: it goes on until there is memory. -/
def getMemoryAtRandom (env : Env) (call size : Nat) :
    Nat → Nat → Machine → Option (Word × Machine)
  | 0, _, _ => none
  | fuel + 1, i, m =>
      match m.mmap size (env.mmap call i (mmapHint (env.rdrandAt call i) i)) with
      | (some a, m) => some (a, m)
      | (none, m) => getMemoryAtRandom env call size fuel (i + 1) m

/-- `stack_high` in `set_call_stack_info`: the end of the stack that the thread library reports,
or 8 MB above its low end if that is more. -/
def stackHigh (stackLow stackSize : Word) : Word :=
  if stackLow + stackSize < stackLow + callStackSize then stackLow + callStackSize
  else stackLow + stackSize

/-- `set_call_stack_info`; the arguments are what `pthread_attr_getstack` answers. A stack smaller
than 8 MB is taken for one of 8 MB. -/
def setCallStackInfo (p stackLow stackSize : Word) (m : Machine) : Machine :=
  let m := m.set p .callStackTop (stackHigh stackLow stackSize)
  let m := m.set p .shadowStackTop (m.get p .shadowStack + callStackSize)
  m.set p .state flashStackInited

/-- `memset(p, 0, sizeof(*p))`. The struct is made of its fields, without padding, and the rest of
the page is zero since it was mapped. -/
def clear (p : Word) (m : Machine) : Machine := Field.all.foldl (fun m f => m.set p f 0) m

/-- `init_shadow_stack` and `do_init_shadow_stack`; `rsp` is what `SPA_GET_RSP()` reads. A thread
that has been initialised returns at once. -/
def initShadowStack (env : Env) (fuel : Nat) (rsp stackLow stackSize : Word) (m : Machine) :
    Option Machine :=
  if m.inited then some m
  else do
    let (p, m) ← getMemoryAtRandom env 0 realMetaDataSize fuel 0 { m with inited := true }
    let (shadowStack, m) ← getMemoryAtRandom env 1 realShadowStackSize fuel 0 m
    let diff := shadowStack + callStackSize - rsp
    let m := { clear p m with saved := shadowStack }
    let m := m.set p .selfAddr p
    let m := m.set p .diff diff
    let m := m.set p .shadowStack shadowStack
    let m := m.set p .cpuCycles 0
    let m := m.set p .isRandomizing 0
    let m := m.set p .ratioFactor defaultChangingMovingRatio
    let m := m.set p .r env.rdrand
    return setCallStackInfo p stackLow stackSize (m.setGs p)

/-- `*new = *old`, the copy of the struct, field by field. -/
def copyMetadata (new old : Word) (m : Machine) : Machine :=
  Field.all.foldl (fun m f => m.set new f (m.get old f)) m

/-- The value part, with `SPA_ENABLE_GS_MSR`. The update goes from the slot of the stack pointer
to the top, and no further. -/
def changeValues (env : Env) (rsp old : Word) (m : Machine) : Option Machine := do
  let delta := env.rdrand
  let m := m.set old .r (m.get old .r + delta)
  let ssPtr := m.get old .shadowStackTop - (m.get old .callStackTop - rsp)
  let word ← avx2_64_x_4_add m.mem.word ssPtr (m.get old .shadowStackTop) delta
  return { m with mem := { m.mem with word := word } }

/-- The moving part: the address of the new metadata. When a mapping fails in spite of the
loops, the source loops forever. -/
def moveRegions (env : Env) (fuel : Nat) (old : Word) (m : Machine) : Option (Word × Machine) := do
  let m := m.set old .ratioFactor defaultChangingMovingRatio
  let (new, m) ← getMemoryAtRandom env 0 realMetaDataSize fuel 0 m
  let (newShadowStack, m) ← getMemoryAtRandom env 1 realShadowStackSize fuel 0 m
  if new ≠ mapFailed ∧ newShadowStack ≠ mapFailed then
    let m := copyMetadata new old m
    let m := m.set new .diff (m.get old .diff + (newShadowStack - m.get old .shadowStack))
    let m := m.set new .selfAddr new
    let (moved, m) :=
      m.mremap (m.get old .shadowStack) realShadowStackSize newShadowStack env.mremap
    let shadowStack := moved.getD mapFailed
    let m := m.set new .shadowStack shadowStack
    let m := m.set new .shadowStackTop (shadowStack + callStackSize)
    let m := m.setGs new
    return (new, m.munmap old realMetaDataSize)
  else none

/-- `CPU_CYCLES_PER_RANDOMIZATION` have passed since the last time. The difference is unsigned, so
a clock that went back counts as late. -/
def elapsed (env : Env) (lastClocks : Word) : Bool :=
  !decide (env.rdtsc - lastClocks < cpuCyclesPerRandomization)

/-- `fsgs_runtime_rerandomize` from the first `mprotect` on. The early return clears the flag, and
leaves the page writable. -/
def rerandomize (msr : Bool) (env : Env) (fuel : Nat) (rsp old : Word) (m : Machine) :
    Option Machine :=
  let m := m.mprotect old realMetaDataSize .readWrite
  let m := m.set old .isRandomizing 1
  if !elapsed env (m.get old .cpuCycles) then some (m.set old .isRandomizing 0)
  else do
    let m := m.set old .cpuCycles env.rdtsc
    let m ← if msr then changeValues env rsp old m else some m
    let m := m.set old .ratioFactor (m.get old .ratioFactor - 1)
    let (p, m) ← if (m.get old .ratioFactor).toInt ≤ 0 then moveRegions env fuel old m
      else some (old, m)
    let m := m.set p .isRandomizing 0
    return m.mprotect p realMetaDataSize .read

/-- The tests before the metadata page is made writable: the thread is initialised, and no other
call of it is under way. -/
def entersRerandomize (m : Machine) : Bool :=
  let old := m.get m.gs .selfAddr
  m.inited && m.get old .state == flashStackInited && m.get old .isRandomizing == 0

/-- `fsgs_runtime_rerandomize`; `msr` is `SPA_ENABLE_GS_MSR`, `rsp` what `SPA_GET_RSP()` reads. A
call that fails the first tests changes nothing. -/
def fsgsRuntimeRerandomize (msr : Bool) (env : Env) (fuel : Nat) (rsp : Word) (m : Machine) :
    Option Machine :=
  if entersRerandomize m then rerandomize msr env fuel rsp (m.get m.gs .selfAddr) m else some m

/-! ### The instrumented code -/

/-- The prologue; `rsp` points to the return address. The slot is at the distance `diff`, which
the metadata page holds, and the word stored is increased by `R` in the build with
`SPA_ENABLE_GS_MSR`. -/
def prologue (msr : Bool) (rsp : Word) (m : Machine) : Machine :=
  let r11 := m.mem.word rsp
  let r11 := if msr then r11 + m.get m.gs .r else r11
  let r10 := m.get m.gs .diff
  { m with mem := m.mem.set (rsp + r10) r11 }

/-- The target of the jump that ends the epilogue: the word of the slot, less the random value
where one was added. -/
def epilogue (msr : Bool) (rsp : Word) (m : Machine) : Word :=
  let r11 := m.mem.word (rsp + m.get m.gs .diff)
  if msr then r11 - m.get m.gs .r else r11

end FlashStack.FsGs
