/-
Constants of `spa.h` and of the head of `gs.rsp.c`.

They are those of the build with `USE_SPA_GS_RSP`, the default mode, with the names that the
source gives them; a constant of another build stands with the model of that build. Sizes
and offsets are natural numbers, because nothing wraps in them; values that enter 64-bit
arithmetic are words. `long` and `unsigned long` are both 64-bit words here, and the places
where the source compares them as signed numbers say so.

The layout of a region of 10 MB follows from them: slots up to 9.5 MB, the metadata block
there, and a rest that nothing uses. The slot of the stack pointer of the initialisation is
8 MB above the base of the region, which leaves 1.5 MB for the frames above it. That a
lookup rounds to 8 MB and the region is larger is a fact about these numbers, and it decides
more than one result.
-/

import FlashStack.Lib.Memory

namespace FlashStack

open Lib.Memory

/-- `DEF_BUDDY_CALL_STACK_SIZE`: 8 MB, the usual limit of a call stack. Nothing in this mode
checks that the stack of a thread is no larger. -/
def defBuddyCallStackSize : Nat := 8 * 2 ^ 20

/-- `REAL_SHADOW_STACK_SIZE`: 8 MB for the slots below the stack pointer of the initialisation,
and 2 MB for those above and for the metadata. -/
def realShadowStackSize : Nat := defBuddyCallStackSize + 2 * 2 ^ 20

/-- `METADATA_OFFSET_ON_SHADOW_STACK`: 9.5 MB. Below it are the slots, and behind the block the
rest of the region is not used. -/
def metadataOffsetOnShadowStack : Nat := defBuddyCallStackSize + 2 ^ 20 + 2 ^ 19

/-- `INIT_SHADOW_STACK_OFFSET`: the slot of the initial stack pointer. Deeper frames have their
slots below, and outer ones above. -/
def initShadowStackOffset : Nat := defBuddyCallStackSize

/-- `sizeof(struct gs_rsp_metadata)`: six fields of 64 bits, one behind the other, without
padding. -/
def sizeofMetadata : Nat := 48

/-- `SPA_USER_SPACE_SIZE`: `2^47`. The GS base is larger by this much than the distance from a
stack pointer to its slot, which is negative in most cases. -/
def spaUserSpaceSize : Word := 0x800000000000

/-- `DEF_BUDDY_CALL_STACK_SIZE_MASK`: `-8 MB`, with which an address is rounded down to 8 MB. -/
def defBuddyCallStackSizeMask : Word := 0xFFFFFFFFFF800000

/-- `SPA_MAX_SHADOW_STACK_ADDR`. Random addresses are reduced below it before they are given to
`mmap`. -/
def spaMaxShadowStackAddr : Word := 0x7F0000000000 - 8 * 0x800000

/-- `SPA_SHADOW_STACK_8MB_RAND_ADDR_MASK`: the bits of a user-space address that is aligned to 8
MB. -/
def spaShadowStack8MBRandAddrMask : Word := 0x7FFFFF800000

/-- `SPA_8MB_MASK`: the bits that are zero in an address aligned to 8 MB. -/
def spa8MBMask : Word := 0x7FFFFF

/-- `MAX_GS_BASE_ADDR`. A re-randomization that would need a larger GS base is given up. -/
def maxGsBaseAddr : Word := 0x7FFFFFFFEFFF

/-- `SPA_MAX_MMAP_ATTEMPTS`. The loop tests its counter with `>`, so that `mmap` is tried once
more than this. -/
def spaMaxMmapAttempts : Nat := 20

/-- `MAX_THREAD_BUF_CNT`: the entries of the table of exited threads, and so the exits that can
wait for the cleaner. -/
def maxThreadBufCnt : Nat := 1024

/-- `CPU_CYCLES_PER_RANDOMIZATION`: 3200 cycles per microsecond for 10000
microseconds. -/
def cpuCyclesPerRandomization : Word := 3200 * 10000

/-- `CPU_CYCLES_AFTER_THREAD_EXITING`. How long this takes depends on the clock rate of the
machine. -/
def cpuCyclesAfterThreadExiting : Word := cpuCyclesPerRandomization * 1000

/-- `PTHREAD_DESTRUCTOR_ITERATIONS`: how often the thread library goes through the destructors of
a thread that exits. -/
def pthreadDestructorIterations : Nat := 4

/-- `SPA_CPU_WORD_LENGTH`: the bytes of a return address on the call stack. -/
def spaCpuWordLength : Nat := 8

/-- `SPA_LENGTH_OF_PROTECTED_PROLOGUE`: the bytes of the three instructions of the prologue, which
a rewritten call skips. -/
def spaLengthOfProtectedPrologue : Nat := 19

/-- `SPA_PROTECTED_FUNC_MAGIC_NUM`: the first eight bytes of a protected prologue. -/
def spaProtectedFuncMagicNum : Word := 0x0000ba49241c8b4c

/-- `FLASH_STACK_INITED`: the state of a metadata block that is ready for use. -/
def flashStackInited : Word := 1

end FlashStack
