/-
The functions of `gs.rsp.c`, as programs.

Each is written with the actions of the machine, in the order of the source, so that what
happens between two of its actions can be said: a signal, an action of another thread, or a
fault. `rsp` stands for what `SPA_GET_RSP()` reads. A function that reads the stack pointer
takes it as an argument; `rspAlloc` is what `get_memory_at_random` reads in its own frame.

The body of `gs_rsp_runtime_rerandomize` is cut at its branches into functions of their own,
from the end backwards, and `goto rand_exit` is a call of the last one. A failed system call
answers `none` or `false`, and the two paths that undo a move after it are one definition,
as in the source they are the same text. The loop that asks for memory until it gets some is
cut off after a number of calls, and says so; the one inside `get_memory_at_random` has the
bound of the source.

Left out are the blocks under `#if 0`, printing, the error exits of `pthread_getattr_np`,
and with them the bounds of the call stack, which no modelled function reads. `relaxing` is
set and copied, but only the sandbox of Firefox reads it. The functions that threads are
started and ended with are steps of a process, in the module on the cleaner.
-/

import FlashStack.Runtime.Machine

namespace FlashStack.Runtime

open Lib.Memory Lib.Program

/-! ### The actions, under the names the source uses for them -/

def load (a : Word) : Program Word := perform (.load a)
def store (a v : Word) : Program Unit := perform (.store a v)
def rdtsc (c : Clock) : Program Word := perform (.rdtsc c)
def munmap (a : Word) (size : Nat) : Program Unit := perform (.munmap a size)
def syncFetchAndAdd (c : Counter) (v : Word) : Program Unit := perform (.count c v)

/-! ### Metadata -/

/-- The fields of `struct gs_rsp_metadata`, in their order. Each of them is a 64-bit word. -/
inductive Field where
  | shadowStack
  | isRandomizing
  | cpuCycles
  | state
  | diff
  | relaxing
deriving DecidableEq, Repr

/-- The offset of a field in `struct gs_rsp_metadata`, whose fields are eight bytes each. -/
def Field.offset : Field → Nat
  | .shadowStack => 0
  | .isRandomizing => 8
  | .cpuCycles => 16
  | .state => 24
  | .diff => 32
  | .relaxing => 40

/-- The address of a field, `&pMetadata->f`. -/
def Field.addr (pMetadata : Word) (f : Field) : Word := pMetadata + BitVec.ofNat 64 f.offset

/-- `get_gs_rsp_metadata_by_shadow_stack`: the block has a fixed place in its region. -/
def getGsRspMetadataByShadowStack (shadowStack : Word) : Word :=
  shadowStack + BitVec.ofNat 64 metadataOffsetOnShadowStack

/-- The shadow stack that `get_gs_rsp_metadata_by_rsp` computes from a stack
pointer and a GS base. -/
def shadowStackByRsp (rsp gsBase : Word) : Word :=
  (rsp + gsBase - spaUserSpaceSize) &&& defBuddyCallStackSizeMask

/-- `get_gs_rsp_metadata_by_rsp`: `none` is `NULL`, which it returns when the GS base cannot be
read. It does not look at what it finds. -/
def getGsRspMetadataByRsp (rsp : Word) : Program (Option Word) := do
  match ← perform .getGs with
  | none => return none
  | some gsBase => return some (getGsRspMetadataByShadowStack (shadowStackByRsp rsp gsBase))

/-- `init_metadata_on_shadow_stack`. The state is not set here but at the end of the
initialisation. -/
def initMetadataOnShadowStack (shadowStack diff : Word) : Program Unit := do
  let pMetadata := getGsRspMetadataByShadowStack shadowStack
  perform (.memset pMetadata sizeofMetadata)
  store (Field.addr pMetadata .shadowStack) shadowStack
  store (Field.addr pMetadata .isRandomizing) 0
  store (Field.addr pMetadata .cpuCycles) 0
  store (Field.addr pMetadata .relaxing) 0
  store (Field.addr pMetadata .diff) diff

/-! ### Random placement -/

/-- The address passed to `mmap` for the random value `x`: reduced below both bounds, and then
rounded down to 8 MB. -/
def mmapHint (adjustedRsp x : Word) : Word :=
  let x := x % spaMaxShadowStackAddr
  let x := if 0 < adjustedRsp then x % adjustedRsp else x
  x &&& spaShadowStack8MBRandAddrMask

/-- The check on an address that `mmap` returned: not 8MB-aligned, or larger than
`adjusted_rsp`. -/
def rejected (adjustedRsp allocated : Word) : Bool :=
  allocated &&& spa8MBMask != 0 || adjustedRsp < allocated

/-- The loop of `get_memory_at_random`, from iteration `i` on. It returns the
address and the number of attempts made. `fuel` bounds the iterations left. -/
def getMemoryAtRandomLoop (call : Nat) (adjustedRsp : Word) (size : Nat) :
    Nat → Nat → Program (Option Word × Nat)
  | 0, i => return (none, i)
  | fuel + 1, i => do
      let x ← perform (.rdrand call i)
      if i > spaMaxMmapAttempts then
        return (none, i)
      match ← perform (.mmap call i (mmapHint adjustedRsp x) size) with
      | none => getMemoryAtRandomLoop call adjustedRsp size fuel (i + 1)
      | some addr =>
          if rejected adjustedRsp addr then
            munmap addr size
            getMemoryAtRandomLoop call adjustedRsp size fuel (i + 1)
          else
            return (some addr, i + 1)

/-- `get_memory_at_random`. `call` numbers the calls inside one runtime function; `none` is
`MAP_FAILED`. The last counter is incremented for a failure as well as for a late success. -/
def getMemoryAtRandom (call : Nat) (rsp : Word) (size : Nat) (init : Bool) :
    Program (Option Word) := do
  let adjustedRsp := rsp - BitVec.ofNat 64 (2 * realShadowStackSize)
  let (addr, i) ← getMemoryAtRandomLoop call adjustedRsp size (spaMaxMmapAttempts + 2) 0
  if i < spaMaxMmapAttempts then
    if !init then
      syncFetchAndAdd (.attempts i) 1
  else
    syncFetchAndAdd (.attempts spaMaxMmapAttempts) 1
  return addr

/-! ### Initialisation -/

/-- The loop of `do_init_shadow_stack`, "do it until it succeeds", cut off after
`fuel` calls. -/
def allocateShadowStack (rspAlloc : Word) : Nat → Nat → Program (Option Word)
  | 0, _ => return none
  | fuel + 1, call => do
      match ← getMemoryAtRandom call rspAlloc realShadowStackSize true with
      | some shadowStack => return some shadowStack
      | none => allocateShadowStack rspAlloc fuel (call + 1)

/-- The GS base that puts the slot of `rsp` at `INIT_SHADOW_STACK_OFFSET`. The prologue subtracts
`SPA_USER_SPACE_SIZE` again. -/
def initDiff (shadowStack rsp : Word) : Word :=
  shadowStack + BitVec.ofNat 64 initShadowStackOffset + spaUserSpaceSize - rsp

/-- `do_init_shadow_stack`. The answer is `false` when the allocation loop was cut off. The result
of `arch_prctl` is not looked at. -/
def doInitShadowStack (fuel : Nat) (rsp rspAlloc : Word) : Program Bool := do
  match ← allocateShadowStack rspAlloc fuel 0 with
  | none => return false
  | some shadowStack =>
      let diff := initDiff shadowStack rsp
      initMetadataOnShadowStack shadowStack diff
      let _ ← perform (.setGs diff)
      -- set_call_stack_info
      store (Field.addr (getGsRspMetadataByShadowStack shadowStack) .state) flashStackInited
      return true

/-- `init_shadow_stack`. The thread counts as initialised from the beginning on, before it has a
region. -/
def initShadowStack (fuel : Nat) (rsp rspAlloc : Word) : Program Bool := do
  if ← perform .getInited then
    return true
  perform .setInited
  doInitShadowStack fuel rsp rspAlloc

/-! ### Re-randomization -/

/-- The end of `gs_rsp_runtime_rerandomize`, from `rand_exit` on: the claim is given up, through
the pointer that the branch has left. -/
def randExit (pMetadata start : Word) : Program Unit := do
  store (Field.addr pMetadata .isRandomizing) 0
  syncFetchAndAdd .totalRand 1
  let finish ← rdtsc .finish
  syncFetchAndAdd .cpuCycles (finish - start)

/-- The roll-back of the two failure paths after the metadata was updated. In the second of them
`pMetadata` points into memory that has moved away. -/
def rollBack (pMetadata oldShadowStack newShadowStack delta : Word) : Program Unit := do
  syncFetchAndAdd .failRand 1
  store (Field.addr pMetadata .shadowStack) oldShadowStack
  let diff ← load (Field.addr pMetadata .diff)
  store (Field.addr pMetadata .diff) (diff - delta)
  munmap newShadowStack realShadowStackSize

/-- The guard `diff < 0 || diff > MAX_GS_BASE_ADDR`, on signed numbers. -/
def diffOutOfRange (diff : Word) : Bool := diff.slt 0 || maxGsBaseAddr.slt diff

/-- The move from its `mremap` on: `moved` is what `mremap` returned. Only in the branch that
succeeds is `pMetadata` computed anew. -/
def afterMremap (pMetadata oldShadowStack newShadowStack delta diff start : Word)
    (moved : Option Word) : Program Unit := do
  match moved with
  | none =>
      rollBack pMetadata oldShadowStack newShadowStack delta
      randExit pMetadata start
  | some shadowStack =>
      if ← perform (.setGs diff) then
        randExit (getGsRspMetadataByShadowStack shadowStack) start
      else
        rollBack pMetadata oldShadowStack newShadowStack delta
        randExit pMetadata start

/-- The move to a new shadow stack. The metadata is updated before the region moves, so that it
moves with its new address in it. -/
def moveShadowStack (pMetadata newShadowStack start : Word) : Program Unit := do
  let shadowStack ← load (Field.addr pMetadata .shadowStack)
  let delta := newShadowStack - shadowStack
  let curDiff ← load (Field.addr pMetadata .diff)
  let diff := curDiff + delta
  if diffOutOfRange diff then
    munmap newShadowStack realShadowStackSize
    randExit pMetadata start
  else
    let oldShadowStack ← load (Field.addr pMetadata .shadowStack)
    store (Field.addr pMetadata .shadowStack) newShadowStack
    store (Field.addr pMetadata .diff) diff
    let moved ← perform (.mremap oldShadowStack realShadowStackSize newShadowStack)
    afterMremap pMetadata oldShadowStack newShadowStack delta diff start moved

/-- The test of `new_shadow_stack`, which is what `get_memory_at_random` returned. A failure is
counted, and nothing moves. -/
def afterPlacement (pMetadata start : Word) (placed : Option Word) : Program Unit := do
  match placed with
  | some newShadowStack => moveShadowStack pMetadata newShadowStack start
  | none =>
      syncFetchAndAdd .failRand 1
      randExit pMetadata start

/-- `gs_rsp_runtime_rerandomize`, once the metadata is claimed by setting `is_randomizing`. It
returns soon when the last move is not long ago. -/
def rerandomizeClaimed (pMetadata rspAlloc start : Word) : Program Unit := do
  let lastClocks ← load (Field.addr pMetadata .cpuCycles)
  let curClocks ← rdtsc .current
  if curClocks - lastClocks < cpuCyclesPerRandomization then
    store (Field.addr pMetadata .isRandomizing) 0
  else
    store (Field.addr pMetadata .cpuCycles) curClocks
    let placed ← getMemoryAtRandom 0 rspAlloc realShadowStackSize false
    afterPlacement pMetadata start placed

/-- `gs_rsp_runtime_rerandomize`, once the metadata is found. The load and the store of
`is_randomizing` are two actions, and a signal may come in between. -/
def rerandomizeFound (pMetadata rspAlloc start : Word) : Program Unit := do
  let state ← load (Field.addr pMetadata .state)
  if state ≠ flashStackInited then
    return ()
  let isRandomizing ← load (Field.addr pMetadata .isRandomizing)
  if isRandomizing ≠ 0 then
    return ()
  store (Field.addr pMetadata .isRandomizing) 1
  rerandomizeClaimed pMetadata rspAlloc start

/-- `gs_rsp_runtime_rerandomize`, which every hooked library function calls at its end. Nothing
tells the caller whether the region has moved. -/
def gsRspRuntimeRerandomize (rsp rspAlloc : Word) : Program Unit := do
  let start ← rdtsc .start
  if !(← perform .getInited) then
    return ()
  match ← getGsRspMetadataByRsp rsp with
  | none => return ()
  | some pMetadata => rerandomizeFound pMetadata rspAlloc start

/-! ### Thread exit -/

/-- `release_shadow_stack`: queue the shadow stack for the cleaner. The reading
of the time-stamp counter is the entry's `expired_time`. -/
def releaseShadowStack (t : Tid) (rsp : Word) : Program Unit := do
  match ← getGsRspMetadataByRsp rsp with
  | none => return ()
  | some pMetadata =>
      let shadowStack ← load (Field.addr pMetadata .shadowStack)
      let expiredTime ← rdtsc .current
      perform (.addMemoryRegion
        { valid := false, shadowStack, shadowStackSize := realShadowStackSize, expiredTime,
          tid := t })

end FlashStack.Runtime
