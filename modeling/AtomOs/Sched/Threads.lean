import AtomOs.Lib.Queues
import AtomOs.Lib.Word

/-!
# Threads and the ready queues

A thread is on one of the 32 ready queues, on the wait queue of a synchronisation object, or on
none, and has one pair of links (`kt_qnext`, `kt_qprev`) for all of them. Which ready queue it is on
depends on its priority, the greater of `sc_cpupri` and `sc_inhpri`.

This module has the functions that move threads to and from the ready queues: `add_readyq`,
`del_readyq`, `wakeup`, `scheduler`, and the part of `timerthread` that raises the priorities of
threads that wait. They run with interrupts disabled, on one processor, so that each is one step.
-/

namespace AtomOs

open Lib

inductive ThreadState
  | unused | sleep | ready | create | terminating | terminated | running
  deriving DecidableEq

inductive SchedClass
  | interrupt | system | user | idle
  deriving DecidableEq

def basepri : SchedClass → Int
  | .interrupt => 130
  | .system => 100
  | .user => 10
  | .idle => 0

def maxpri : SchedClass → Int
  | .interrupt => 159
  | .system => 129
  | .user => 99
  | .idle => 0

def maxReadyq : Nat := 32

def timeQuantum : Int := 100

/-- A queue that threads can be on: a ready queue, or the wait queue at the head of a
    synchronisation object. -/
inductive Chan
  | ready (i : Int)
  | obj (a : Addr)
  deriving DecidableEq

/-- The threads, with the fields that scheduling uses. `procReady` is whether the state of a
    thread's process is `PROC_STATE_READY`, and `clock` is the time as the scheduler stores it. -/
structure Threads where
  queues : Queues Chan Addr
  scState : Addr → ThreadState
  scCid : Addr → SchedClass
  scUsrpri : Addr → Int
  scCpupri : Addr → Int
  scInhpri : Addr → Int
  scTqleft : Addr → Int
  scThrreadystart : Addr → Nat
  ktSlpchannel : Addr → Option Addr
  procReady : Addr → Bool
  currentThread : Addr
  clock : Nat

namespace Threads

/-! ## Priorities -/

def priority (s : Threads) (thr : Addr) : Int :=
  if s.scCpupri thr > s.scInhpri thr then s.scCpupri thr else s.scInhpri thr

def readyIndex (s : Threads) (thr : Addr) : Int := (159 - s.priority thr).tdiv 5

def setState (s : Threads) (thr : Addr) (st : ThreadState) : Threads :=
  { s with scState := Function.update s.scState thr st }

def setCpupri (s : Threads) (thr : Addr) (p : Int) : Threads :=
  { s with scCpupri := Function.update s.scCpupri thr p }

def setInhpri (s : Threads) (thr : Addr) (p : Int) : Threads :=
  { s with scInhpri := Function.update s.scInhpri thr p }

def setSlpchannel (s : Threads) (thr : Addr) (c : Option Addr) : Threads :=
  { s with ktSlpchannel := Function.update s.ktSlpchannel thr c }

def rrClTick (thr : Addr) (s : Threads) : Threads :=
  let left := s.scTqleft thr - 20
  let s := { s with scTqleft := Function.update s.scTqleft thr left }
  if left ≤ 0 then s.setCpupri thr (max (s.scCpupri thr - 10) (basepri (s.scCid thr))) else s

def rrClWakeup (thr : Addr) (s : Threads) : Threads :=
  s.setCpupri thr (min (s.scCpupri thr + 5) (maxpri (s.scCid thr)))

/-! ## The ready queues -/

def addReadyq (thr : Addr) (s : Threads) : Threads :=
  let s := (s.setSlpchannel thr none).setState thr .ready
  { s with queues := s.queues.append (.ready (s.readyIndex thr)) thr }

/-- `del_readyq`, and whether it returns 1. -/
def delReadyq (thr : Addr) (s : Threads) : Bool × Threads :=
  if s.scState thr = .ready then
    (true, { s with queues := (s.queues.unlink (.ready (s.readyIndex thr)) thr).clear thr })
  else (false, s)

def wakeup (t : Addr) (s : Threads) : Threads :=
  let s := rrClWakeup t s
  if s.procReady t then addReadyq t (s.setState t .ready) else s

/-! ## The wait queues of objects -/

/-- `ADD_SLQ`, with the two assignments that go with it: the current thread sleeps on the object. -/
def sleepOn (a : Addr) (s : Threads) : Threads :=
  let cur := s.currentThread
  let s := { s with queues := s.queues.append (.obj a) cur }
  (s.setState cur .sleep).setSlpchannel cur (some a)

/-- `DEL_SLQ` and `add_readyq`: the first thread that sleeps on the object becomes ready. -/
def wakeFirst (a : Addr) (s : Threads) : Threads :=
  match s.queues.take (.obj a) with
  | (none, _) => s
  | (some t, queues) => addReadyq t { s with queues := queues }

/-! ## `scheduler` -/

/-- `scheduler` compares threads of one queue by this. -/
def usrPriority (s : Threads) (thr : Addr) : Int := s.scUsrpri thr + s.priority thr

/-- The loop over one ready queue: the first thread with the smallest value. -/
def pickFrom (s : Threads) : Nat → Option Addr → Addr → Addr
  | 0, _, new => new
  | _, none, new => new
  | fuel + 1, some t, new =>
    pickFrom s fuel (s.queues.next t) (if s.usrPriority new > s.usrPriority t then t else new)

/-- The thread that `scheduler` chooses: out of the first ready queue that is not empty. -/
def pick (s : Threads) : Option Addr :=
  ((List.range maxReadyq).findSome? fun i : Nat => s.queues.head (.ready i)).map fun t =>
    pickFrom s walkFuel (s.queues.next t) t

/-- `context_switch`, and what `scheduler` does before it to the thread that it has chosen. -/
def switchTo (new : Addr) (s : Threads) : Threads :=
  { s with
    queues := (s.queues.unlink (.ready (s.readyIndex new)) new).clear new
    scTqleft := Function.update s.scTqleft new timeQuantum
    scThrreadystart := Function.update s.scThrreadystart new s.clock
    scState := Function.update s.scState new .running
    currentThread := new }

/-- The current thread goes to the ready queue when it can run on. -/
def requeueCurrent (s : Threads) : Threads :=
  let cur := s.currentThread
  if s.scState cur = .running then
    { s with
      scState := Function.update s.scState cur .ready
      queues := s.queues.append (.ready (s.readyIndex cur)) cur }
  else s

/-- The current thread runs on. -/
def keepCurrent (s : Threads) : Threads :=
  { s with
    scTqleft := Function.update s.scTqleft s.currentThread timeQuantum
    scThrreadystart := Function.update s.scThrreadystart s.currentThread s.clock }

/-- `scheduler`. The idle thread is not switched to while the current thread can run. -/
def scheduler (s : Threads) : Threads :=
  match s.pick with
  | none => s.keepCurrent
  | some new =>
    if s.scCid new = .idle ∧ s.scState s.currentThread = .running then s.keepCurrent
    else s.requeueCurrent.switchTo new

/-! ## Waiting threads get better priorities -/

/-- What `timerthread` does to one thread of a ready queue. -/
def raisePriority (thr : Addr) (s : Threads) : Threads :=
  let inc := if u32 ((s.clock : Int) - s.scThrreadystart thr) > 3000 then 4 else 2
  let s := s.setCpupri thr (min (s.scCpupri thr + inc) (maxpri (s.scCid thr)))
  { s with queues := s.queues.append (.ready (s.readyIndex thr)) thr }

/-- The loop over the threads of a queue that was taken out. `none` if they do not end. -/
def raiseWalk : Nat → Option Addr → Threads → Option Threads
  | _, none, s => some s
  | 0, some _, _ => none
  | fuel + 1, some thr, s => raiseWalk fuel (s.queues.next thr) (raisePriority thr s)

/-- One ready queue is taken out, and its threads are put where they now belong. -/
def raiseQueue (i : Int) (s : Threads) : Option Threads :=
  let s' := { s with queues := { s.queues with
    head := Function.update s.queues.head (.ready i) none
    tail := Function.update s.queues.tail (.ready i) none } }
  raiseWalk walkFuel (s.queues.head (.ready i)) s'

/-- All ready queues but the last, from `i` on. -/
def raiseQueues : Nat → Int → Threads → Option Threads
  | 0, _, s => some s
  | n + 1, i, s => (raiseQueue i s).bind (raiseQueues n (i + 1))

/-- The part of `timerthread` that raises priorities. -/
def recompute (s : Threads) : Option Threads := raiseQueues (maxReadyq - 1) 0 s

end Threads

end AtomOs
