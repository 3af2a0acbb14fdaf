import AtomOs.Sched.Running
import AtomOs.Lib.Run

/-!
# Locks, recursive locks and events

A lock, a recursive lock or an event is at an address, with a wait queue of threads (in `Threads`)
and, for the two kinds of locks, an owner. The locks that a thread owns are a doubly linked list
through the locks, from the thread's `kt_synchobjlist`.

A thread that does not get a lock sleeps in its queue and tries again from the start when it runs
next; `unlock` wakes all that wait. So what one thread does is cut into segments, at each call of
`scheduler`. All of them run with interrupts disabled, except that `unlock` enables them before it
takes back the inherited priority. `Pc` is where a thread is between two of its segments.
-/

namespace AtomOs

open Lib Threads

inductive SynchType
  | lock | rlock | event | sem
  deriving DecidableEq

/-- The threads and the objects: `sl_type`, `sl_next` and `sl_prev`, `kt_synchobjlist`, `l_val` or
    `rl_val`, the owner, and `rl_level`, an `unsigned short`. -/
structure Kernel where
  threads : Threads
  slType : Addr → SynchType
  slNext : Addr → Option Addr
  slPrev : Addr → Option Addr
  ktSynchobjlist : Addr → Option Addr
  lVal : Addr → Bool
  ownerThread : Addr → Option Addr
  rlLevel : Addr → Nat

namespace Kernel

def current (k : Kernel) : Addr := k.threads.currentThread

/-! ## The list of owned objects -/

def addSynchobj (l t : Addr) (k : Kernel) : Kernel :=
  { k with
    slNext := store k.slNext (some l) (k.ktSynchobjlist t)
    slPrev := store (store k.slPrev (some l) none) (k.ktSynchobjlist t) (some l)
    ktSynchobjlist := Function.update k.ktSynchobjlist t (some l) }

def delSynchobj (l t : Addr) (k : Kernel) : Kernel :=
  let prev := store k.slPrev (k.slNext l) (k.slPrev l)
  let next := store k.slNext (prev l) (k.slNext l)
  { k with
    slNext := store next (some l) none
    slPrev := store prev (some l) none
    ktSynchobjlist :=
      if prev l = none then Function.update k.ktSynchobjlist t (next l) else k.ktSynchobjlist }

/-! ## Priorities -/

/-- `lend_priority`. `none` if the loop does not end, or follows an owner that is `NULL`. -/
def lendPriority : Nat → Addr → Kernel → Option Kernel
  | 0, _, _ => none
  | fuel + 1, gl, k =>
    if k.slType gl ≠ .lock ∧ k.slType gl ≠ .rlock then some k
    else
      match k.ownerThread gl with
      | none => none
      | some thr =>
        let pri := k.threads.priority k.current
        if k.threads.scCpupri thr < pri ∧ k.threads.scInhpri thr < pri then
          let k := { k with threads := repriority thr pri k.threads }
          if k.threads.scState thr = .sleep then
            match k.threads.ktSlpchannel thr with
            | none => some k
            | some gl => lendPriority fuel gl k
          else some k
        else some k

/-- What a thread does when it has given a lock back: it loses what it inherited if it owns nothing
    else. -/
def dropInherited (k : Kernel) : Kernel :=
  if k.ktSynchobjlist k.current = none then
    { k with threads := k.threads.setInhpri k.current 0 }
  else k

/-! ## Locks -/

/-- The current thread sleeps in the queue of a lock, lends its priority, and another thread is
    switched to. -/
def block (l : Addr) (k : Kernel) : Option Kernel :=
  (lendPriority walkFuel l { k with threads := sleepOn l k.threads }).map fun k =>
    { k with threads := k.threads.scheduler }

/-- The current thread takes a lock. -/
def take (l : Addr) (k : Kernel) : Kernel :=
  let k := { k with
    lVal := Function.update k.lVal l true
    ownerThread := Function.update k.ownerThread l (some k.current) }
  let k := k.addSynchobj l k.current
  { k with threads := k.threads.setSlpchannel k.current none }

/-- `_lock` from `_lock_1` on, up to its return or up to `scheduler`; and whether it returns. -/
def lock (l : Addr) (k : Kernel) : Option (Bool × Kernel) :=
  if k.lVal l then (k.block l).map (false, ·) else some (true, k.take l)

/-- `trylock`, and whether the lock was taken. -/
def trylock (l : Addr) (k : Kernel) : Bool × Kernel :=
  if k.lVal l then (false, k) else (true, k.take l)

/-- The loop that wakes all threads that sleep on an object. `none` if they do not end. -/
def wakeAll : Nat → Addr → Threads → Option Threads
  | fuel, a, s =>
    match s.queues.head (.obj a) with
    | none => some s
    | some _ =>
      match fuel with
      | 0 => none
      | fuel + 1 => wakeAll fuel a (wakeFirst a s)

/-- The current thread gives a lock back. -/
def release (l : Addr) (k : Kernel) : Option Kernel :=
  (wakeAll walkFuel l k.threads).map fun threads =>
    let k := { k with threads }.delSynchobj l k.current
    { k with
      ownerThread := Function.update k.ownerThread l none
      lVal := Function.update k.lVal l false }

/-- `unlock` up to `STI`. -/
def unlockOwned (l : Addr) (k : Kernel) : Option Kernel :=
  if k.ownerThread l = some k.current then k.release l else some k

/-- `unlock`, when no interrupt comes between `STI` and its end. -/
def unlock (l : Addr) (k : Kernel) : Option Kernel := (k.unlockOwned l).map dropInherited

/-- `rlock` from `_lock_1` on, up to its return or up to `scheduler`; and whether it returns. -/
def rlock (l : Addr) (k : Kernel) : Option (Bool × Kernel) :=
  let deeper := Function.update k.rlLevel l ((k.rlLevel l + 1) % 65536)
  if k.lVal l then
    if k.ownerThread l = some k.current then some (true, { k with rlLevel := deeper })
    else (k.block l).map (false, ·)
  else some (true, { k with rlLevel := deeper }.take l)

def runlock (l : Addr) (k : Kernel) : Option Kernel :=
  let level := (k.rlLevel l + 65535) % 65536
  let k' := { k with rlLevel := Function.update k.rlLevel l level }
  let done :=
    if k.ownerThread l = some k.current then
      if level ≤ 0 then k'.release l else some k'
    else some k
  done.map dropInherited

/-! ## Events -/

def eventWakeup (e : Addr) (k : Kernel) : Option Kernel :=
  (wakeAll walkFuel e k.threads).map fun threads => { k with threads }

/-- `event_sleep` up to `scheduler`, and whether it goes to sleep: not if the lock is not the
    current thread's. -/
def eventSleep (e : Addr) (lck : Option Addr) (k : Kernel) : Option (Bool × Kernel) :=
  match lck with
  | none => some (true, { k with threads := (sleepOn e k.threads).scheduler })
  | some l =>
    if k.ownerThread l = some k.current then
      (k.release l).map fun k => (true, { k with threads := (sleepOn e k.threads).scheduler })
    else some (false, k)

end Kernel

/-! ## Steps -/

/-- Where a thread is: outside of these functions; in `_lock` or `rlock`, to try again; in
    `event_sleep` after `scheduler`, to take its lock again; or in `unlock` after `STI`. -/
inductive Pc
  | out
  | locking (l : Addr)
  | rlocking (l : Addr)
  | eventSleeping (lck : Option Addr)
  | unlocking
  deriving DecidableEq

/-- The kernel, and where its threads are. -/
structure System where
  kernel : Kernel
  pc : Addr → Pc

namespace System

def current (s : System) : Addr := s.kernel.current

/-- The state after a segment of the thread that was running. -/
def after (s : System) (pc : Pc) (k : Kernel) : System :=
  { kernel := k, pc := Function.update s.pc s.current pc }

/-- The state after a try to lock, which leads back to `again` if the thread has to wait. -/
def afterTry (s : System) (again : Pc) (r : Bool × Kernel) : System :=
  s.after (if r.1 then .out else again) r.2

/-- The running thread calls a function that can block. The idle thread does not. -/
def mayCall (s : System) (l : Addr) (type : SynchType) : Bool :=
  s.pc s.current = .out ∧ s.kernel.threads.scCid s.current ≠ .idle ∧ s.kernel.slType l = type

inductive Op
  | lock (l : Addr)
  | trylock (l : Addr)
  | unlock (l : Addr)
  /-- `unlock`, with an interrupt right after `STI` -/
  | unlockCut (l : Addr)
  | rlock (l : Addr)
  | runlock (l : Addr)
  | eventSleep (e : Addr) (lck : Option Addr)
  | eventWakeup (e : Addr)
  /-- The running thread goes on inside of one of these functions. -/
  | goOn
  /-- The running thread loses the processor. -/
  | preempt
  | tick
  /-- `timerthread` raises priorities. -/
  | recompute

/-- The next segment of a thread that is inside of one of these functions. -/
def goOn (s : System) : Option System :=
  match s.pc s.current with
  | .out => none
  | .locking l => (s.kernel.lock l).map (s.afterTry (.locking l))
  | .rlocking l => (s.kernel.rlock l).map (s.afterTry (.rlocking l))
  | .eventSleeping none => some (s.after .out s.kernel)
  | .eventSleeping (some l) => (s.kernel.lock l).map (s.afterTry (.locking l))
  | .unlocking => some (s.after .out s.kernel.dropInherited)

def step (s : System) : Op → Option System
  | .lock l =>
    if s.mayCall l .lock then (s.kernel.lock l).map (s.afterTry (.locking l)) else none
  | .trylock l =>
    if s.mayCall l .lock then some (s.after .out (s.kernel.trylock l).2) else none
  | .unlock l =>
    if s.mayCall l .lock then (s.kernel.unlock l).map (s.after .out) else none
  | .unlockCut l =>
    if s.mayCall l .lock then (s.kernel.unlockOwned l).map (s.after .unlocking) else none
  | .rlock l =>
    if s.mayCall l .rlock then (s.kernel.rlock l).map (s.afterTry (.rlocking l)) else none
  | .runlock l =>
    if s.mayCall l .rlock then (s.kernel.runlock l).map (s.after .out) else none
  | .eventSleep e lck =>
    if s.mayCall e .event ∧ lck.all fun l => s.kernel.slType l = .lock then
      (s.kernel.eventSleep e lck).map fun r =>
        s.after (if r.1 then .eventSleeping lck else .out) r.2
    else none
  | .eventWakeup e =>
    if s.mayCall e .event then (s.kernel.eventWakeup e).map (s.after .out) else none
  | .goOn => s.goOn
  | .preempt => some { s with kernel := { s.kernel with threads := s.kernel.threads.scheduler } }
  | .tick => some { s with kernel := { s.kernel with
      threads := rrClTick s.kernel.threads.currentThread s.kernel.threads } }
  | .recompute => s.kernel.threads.recompute.map fun threads =>
      { s with kernel := { s.kernel with threads } }

end System

end AtomOs
