/-
The machine under the runtime library: memory, thread state, system calls.

A runtime function is a program over `Op`: loads and stores through pointers, the time-stamp
counter, `rdrand`, and the system calls. `exec t env` gives the actions of thread `t` their
meaning. Everything the machine leaves open (clock readings, random values, the outcome of
each system call) is read from `env`, which belongs to one call of a runtime function.

The kernel is taken at its documented behaviour: `mmap` maps only memory that was not mapped
and fills it with zeros, a successful `mremap` moves the content, and a failed call changes
nothing. `munmap` succeeds. Where `mmap` puts a mapping is open, for a hint is no more than
that.

A load or store of the runtime through a pointer fails with `unmapped` where the hardware
would fault, and with `foreign` when it would reach memory that is not part of the shadow
stack of the running thread. The source has no such check; it is there to make an access
that goes astray visible, also where the memory happens to be mapped. Statistics counters
are kept, since the functions increment them in some branches and not in others; printing
and the mutex around `thread_info` are not.
-/

import FlashStack.Lib.Program
import FlashStack.Spa
import Mathlib.Logic.Function.Basic

namespace FlashStack.Runtime

open Lib.Memory Lib.Program

abbrev Tid := Nat

/-- Who mapped a byte: the runtime, as the shadow stack of a thread, or anybody
else. -/
inductive Owner where
  | shadow (t : Tid)
  | other
deriving DecidableEq, Repr

/-- `gs` is the GS base of the thread, `inited` its `gs_rsp_flash_stack_inited`. -/
structure Thread where
  gs : Word
  inited : Bool

/-- An entry of `thread_info`: a region that waits for the cleaner, and when it was queued. -/
structure ThreadRegionInfo where
  valid : Bool
  shadowStack : Word
  shadowStackSize : Nat
  expiredTime : Word
  tid : Tid
deriving DecidableEq, Repr

/-- The statistics counters of `gs.rsp.c`. They are read nowhere but in messages. -/
inductive Counter where
  | failRand
  | totalRand
  | cpuCycles
  | attempts (i : Nat)
deriving DecidableEq, Repr

structure Machine where
  mem : Space Owner
  threads : Tid → Thread
  counters : Counter → Word
  threadInfo : List ThreadRegionInfo

/-- The three readings of the time-stamp counter in one runtime call. Nothing is assumed of their
order. -/
inductive Clock where
  | start
  | current
  | finish
deriving DecidableEq, Repr

/-- The actions of the runtime functions. The attempts of `get_memory_at_random`
are numbered by the call and by the iteration of its loop. -/
inductive Op where
  | getInited
  | setInited
  | load (a : Word)
  | store (a v : Word)
  | memset (a : Word) (n : Nat)
  | rdtsc (c : Clock)
  | rdrand (call i : Nat)
  | getGs
  | setGs (v : Word)
  | mmap (call i : Nat) (hint : Word) (size : Nat)
  | munmap (a : Word) (size : Nat)
  | mremap (old : Word) (size : Nat) (new : Word)
  | count (c : Counter) (v : Word)
  | addMemoryRegion (info : ThreadRegionInfo)

/-- The answer of an action. A system call that may fail answers `none` or
`false` when it does. -/
abbrev Op.Res : Op → Type
  | .getInited => Bool
  | .load _ => Word
  | .rdtsc _ => Word
  | .rdrand _ _ => Word
  | .getGs => Option Word
  | .setGs _ => Bool
  | .mmap _ _ _ _ => Option Word
  | .mremap _ _ _ => Option Word
  | _ => Unit

/-- What the machine leaves open during one call of a runtime function. The results hold for every
one, but for the conditions that they name. -/
structure Env where
  rdtsc : Clock → Word
  rdrand : Nat → Nat → Word
  mmap : Nat → Nat → Option Word
  getGs : Bool
  setGs : Bool
  mremap : Bool

/-- How an access of the runtime goes wrong: the hardware stops it, or it reaches memory of
somebody else. -/
inductive Fault where
  | unmapped (a : Word)
  | foreign (a : Word)
deriving DecidableEq, Repr

abbrev Program := Prog Op Op.Res

/-- The program that performs one action and returns its answer. -/
abbrev perform (op : Op) : Program op.Res := Prog.lift op

namespace Machine

def setThread (m : Machine) (t : Tid) (th : Thread) : Machine :=
  { m with threads := Function.update m.threads t th }

def withMem (m : Machine) (mem : Space Owner) : Machine := { m with mem := mem }

@[simp] theorem withMem_mem (m : Machine) (mem : Space Owner) : (m.withMem mem).mem = mem := rfl
@[simp] theorem withMem_threads (m : Machine) (mem : Space Owner) :
    (m.withMem mem).threads = m.threads := rfl
@[simp] theorem withMem_threadInfo (m : Machine) (mem : Space Owner) :
    (m.withMem mem).threadInfo = m.threadInfo := rfl
@[simp] theorem setThread_mem (m : Machine) (t : Tid) (th : Thread) :
    (m.setThread t th).mem = m.mem := rfl
@[simp] theorem setThread_threadInfo (m : Machine) (t : Tid) (th : Thread) :
    (m.setThread t th).threadInfo = m.threadInfo := rfl
@[simp] theorem setThread_self (m : Machine) (t : Tid) (th : Thread) :
    (m.setThread t th).threads t = th := by simp [setThread]

theorem setThread_ne (m : Machine) {t u : Tid} (th : Thread) (h : u ≠ t) :
    (m.setThread t th).threads u = m.threads u := by simp [setThread, h]

/-- `__sync_fetch_and_add` on a counter. The counters are statistics. -/
def bump (m : Machine) (c : Counter) (v : Word) : Machine :=
  { m with counters := Function.update m.counters c (m.counters c + v) }

@[simp] theorem bump_mem (m : Machine) (c : Counter) (v : Word) : (m.bump c v).mem = m.mem := rfl
@[simp] theorem bump_threads (m : Machine) (c : Counter) (v : Word) :
    (m.bump c v).threads = m.threads := rfl
@[simp] theorem bump_threadInfo (m : Machine) (c : Counter) (v : Word) :
    (m.bump c v).threadInfo = m.threadInfo := rfl

/-- An access of thread `t` to the `n` bytes at `a`: all of them must be part of its own shadow
stack. -/
def check (m : Machine) (t : Tid) (a : Word) (n : Nat) : Except Fault Unit :=
  if Mapped m.mem a n then
    if OwnedBy m.mem (.shadow t) a n then .ok () else .error (.foreign a)
  else .error (.unmapped a)

theorem check_owned {m : Machine} {t : Tid} {a : Word} {n : Nat}
    (h : OwnedBy m.mem (.shadow t) a n) : m.check t a n = .ok () := by
  simp [check, h, h.mapped]

theorem check_unmapped {m : Machine} {t : Tid} {a : Word} {n : Nat}
    (h : ¬ Mapped m.mem a n) : m.check t a n = .error (.unmapped a) := by
  simp [check, h]

def load (m : Machine) (t : Tid) (a : Word) : Except Fault Word :=
  match m.check t a 8 with
  | .error e => .error e
  | .ok _ =>
      match load64 m.mem a with
      | some v => .ok v
      | none => .error (.unmapped a)

def store (m : Machine) (t : Tid) (a v : Word) : Except Fault Machine :=
  match m.check t a 8 with
  | .error e => .error e
  | .ok _ => .ok (m.withMem (storeN m.mem a 8 v.toNat))

theorem load_owned {m : Machine} {t : Tid} {a v : Word}
    (howned : OwnedBy m.mem (.shadow t) a 8) (hload : load64 m.mem a = some v) :
    m.load t a = .ok v := by
  simp [load, check_owned howned, hload]

theorem store_owned {m : Machine} {t : Tid} {a v : Word}
    (howned : OwnedBy m.mem (.shadow t) a 8) :
    m.store t a v = .ok (m.withMem (storeN m.mem a 8 v.toNat)) := by
  simp [store, check_owned howned]

/-- `mmap` at an address of the kernel's choice, which need not be the hint. -/
def mmap (m : Machine) (t : Tid) (size : Nat) : Option Word → Option Word × Machine
  | none => (none, m)
  | some a =>
      if a.toNat + size ≤ 2 ^ 64 ∧ Free m.mem a size then
        (some a, m.withMem (mapZero m.mem (.shadow t) a size))
      else (none, m)

/-- `mremap` with `MREMAP_MAYMOVE | MREMAP_FIXED`. It replaces what is mapped at the new address;
a failed call changes nothing. -/
def mremap (m : Machine) (old : Word) (size : Nat) (new : Word) (succeeds : Bool) :
    Option Word × Machine :=
  if succeeds ∧ Mapped m.mem old size then
    (some new, m.withMem (remap m.mem old new size))
  else (none, m)

end Machine

/-- `add_memory_region`: the first entry that is not valid takes the region; a
full table drops it. -/
def addMemoryRegion : List ThreadRegionInfo → ThreadRegionInfo → List ThreadRegionInfo
  | [], _ => []
  | e :: es, info =>
      if e.valid then e :: addMemoryRegion es info else { info with valid := true } :: es

/-- The meaning of an action of thread `t`: its answer and the machine behind it, or the fault
that ends the call. -/
def exec (t : Tid) (env : Env) : (op : Op) → Machine → Except Fault (op.Res × Machine)
  | .getInited, m => .ok ((m.threads t).inited, m)
  | .setInited, m => .ok ((), m.setThread t { m.threads t with inited := true })
  | .load a, m =>
      match m.load t a with
      | .error e => .error e
      | .ok v => .ok (v, m)
  | .store a v, m =>
      match m.store t a v with
      | .error e => .error e
      | .ok m' => .ok ((), m')
  | .memset a n, m =>
      match m.check t a n with
      | .error e => .error e
      | .ok _ => .ok ((), m.withMem (storeN m.mem a n 0))
  | .rdtsc c, m => .ok (env.rdtsc c, m)
  | .rdrand call i, m => .ok (env.rdrand call i, m)
  | .getGs, m => .ok (if env.getGs then some (m.threads t).gs else none, m)
  | .setGs v, m =>
      if env.setGs then .ok (true, m.setThread t { m.threads t with gs := v })
      else .ok (false, m)
  | .mmap call i _ size, m => .ok (m.mmap t size (env.mmap call i))
  | .munmap a size, m => .ok ((), m.withMem (unmap m.mem a size))
  | .mremap old size new, m => .ok (m.mremap old size new env.mremap)
  | .count c v, m => .ok ((), m.bump c v)
  | .addMemoryRegion info, m =>
      .ok ((), { m with threadInfo := addMemoryRegion m.threadInfo info })

theorem exec_load_owned {t : Tid} {env : Env} {m : Machine} {a v : Word}
    (howned : OwnedBy m.mem (.shadow t) a 8) (hload : load64 m.mem a = some v) :
    exec t env (.load a) m = .ok (v, m) := by
  simp only [exec, Machine.load_owned howned hload]

theorem exec_load_unmapped {t : Tid} {env : Env} {m : Machine} {a : Word}
    (h : ¬ Mapped m.mem a 8) : exec t env (.load a) m = .error (.unmapped a) := by
  simp only [exec, Machine.load, Machine.check_unmapped h]

/-- A load outside the own shadow stack goes wrong, whether nothing is mapped there or it belongs
to another. -/
theorem exists_exec_load_error {t : Tid} {m : Machine} {a : Word}
    (h : ¬ OwnedBy m.mem (.shadow t) a 8) (env : Env) :
    ∃ e, exec t env (.load a) m = .error e := by
  by_cases hmapped : Mapped m.mem a 8
  · exact ⟨.foreign a, by simp [exec, Machine.load, Machine.check, hmapped, h]⟩
  · exact ⟨.unmapped a, exec_load_unmapped hmapped⟩

theorem exec_store_unmapped {t : Tid} {env : Env} {m : Machine} {a v : Word}
    (h : ¬ Mapped m.mem a 8) : exec t env (.store a v) m = .error (.unmapped a) := by
  simp only [exec, Machine.store, Machine.check_unmapped h]

theorem exec_store_owned {t : Tid} {env : Env} {m : Machine} {a : Word}
    (howned : OwnedBy m.mem (.shadow t) a 8) (v : Word) :
    exec t env (.store a v) m = .ok ((), m.withMem (storeN m.mem a 8 v.toNat)) := by
  simp only [exec, Machine.store_owned howned]

end FlashStack.Runtime
