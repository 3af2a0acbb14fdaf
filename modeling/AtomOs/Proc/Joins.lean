import AtomOs.Lib.Run
import AtomOs.Lib.Word
import Mathlib.Data.List.Nodup

/-!
# Joining, detaching and destroying threads

Three pieces of code take a thread's structure out of its process's list and destroy it:
`syscall_pthread_join`, `syscall_pthread_detach` of a thread that has terminated, and
`thread_terminate_handler` for a detached thread. When all threads of the list have terminated, the
handler destroys them as well, and leaves the list as it is.

Each of them takes a lock for a while, gives it back, and goes on with the pointer it has found. A
step here is what is done between two such places. The list of a process (`proc_threadptr`,
`kt_sib`) is a list. A structure that is used again for a new thread counts as a new one.

**`threads_destroyed_once`**: in every run in which a thread is joined or detached only while it is
joinable and no other call is under way for it, in which the handler does not find a thread detached
while the call that detaches it is still under way, and in which no thread is left on the list when all
have terminated, every structure is taken out of the list once and destroyed once, after its end, and no
call uses it after that. Two calls of `pthread_join` for one thread break this, and so does a thread that
nobody joins or detaches: it stays on the list when it is destroyed (`joined_twice`).
-/

namespace AtomOs

open Lib

/-- How far a thread is: `sc_state`, as far as it matters here. -/
inductive Life
  | unborn | live | terminating | terminated
  deriving DecidableEq

/-- Where a thread is in `syscall_pthread_join` or `syscall_pthread_detach`, and with which
    structure. -/
inductive CallPc
  /-- In neither. -/
  | out
  /-- `join` has found the structure. -/
  | joinFound (t : Addr)
  /-- `join` sleeps on `kt_threadexit`. -/
  | joinAsleep (t : Addr)
  /-- `join` has been woken, and has to take `kt_exitlock` again. -/
  | joinWoken (t : Addr)
  /-- `detach` has found the structure. -/
  | detachFound (t : Addr)
  /-- `detach` has cleared `kt_threadjoinable`, and holds `kt_exitlock`. -/
  | detachMarked (t : Addr)
  /-- The thread has terminated, and `kt_exitlock` is held. -/
  | holding (t : Addr)
  /-- The same, and `kt_exitlock` has been given back. -/
  | leaving (t : Addr)
  /-- The structure has been taken out of the list. -/
  | removed (t : Addr)
  deriving DecidableEq

def CallPc.target : CallPc → Option Addr
  | .out => none
  | .joinFound t | .joinAsleep t | .joinWoken t | .detachFound t | .detachMarked t | .holding t
  | .leaving t | .removed t => some t

/-- Where `thread_terminate_handler` is. -/
inductive HandlerPc
  | idle
  /-- It has taken the thread from `terminated_threads`. -/
  | got (t : Addr)
  /-- It has found the thread joinable. -/
  | marking (t : Addr)
  /-- It has found the thread detached. -/
  | unlinking (t : Addr)
  | unlinked (t : Addr)
  /-- It looks whether all threads of the process have terminated. -/
  | checking
  /-- It destroys all threads of the process; these are left. -/
  | cleaning (l : List Addr)
  | finished
  deriving DecidableEq

/-- The threads of one process. The last four fields are only there to talk about runs: which
    structures there have been, how often each was destroyed and taken out of the list, and whether a
    call has used a structure after its end. -/
structure Joins where
  threadptr : List Addr
  ktThreadid : Addr → Nat
  life : Addr → Life
  joinable : Addr → Bool
  exitlock : Addr → Option Addr
  terminatedThreads : List Addr
  pc : Addr → CallPc
  handler : HandlerPc
  created : List Addr
  destroyed : Addr → Nat
  removed : Addr → Nat
  bad : Bool

namespace Joins

/-- A call uses a structure. -/
def touch (t : Addr) (s : Joins) : Joins := { s with bad := s.bad || 0 < s.destroyed t }

def setPc (c : Addr) (pc : CallPc) (s : Joins) : Joins :=
  { s with pc := Function.update s.pc c pc }

def setLock (t : Addr) (holder : Option Addr) (s : Joins) : Joins :=
  { s with exitlock := Function.update s.exitlock t holder }

/-- The structure is taken out of the list, if it is there. -/
def unlinkSib (t : Addr) (s : Joins) : Joins :=
  if t ∈ s.threadptr then
    { s with
      threadptr := s.threadptr.erase t
      removed := Function.update s.removed t (s.removed t + 1) }
  else s

/-- The same in `join` and `detach`, which do not look for the end of the list: if the structure is
    not there, they follow `NULL`. -/
def removeSib (t : Addr) (s : Joins) : Joins :=
  if t ∈ s.threadptr then s.unlinkSib t else { s with bad := true }

def destroyThread (t : Addr) (s : Joins) : Joins :=
  { s with
    destroyed := Function.update s.destroyed t (s.destroyed t + 1)
    life := Function.update s.life t .terminated
    bad := s.bad || s.life t = .live }

def find (id : Nat) (s : Joins) : Option Addr := s.threadptr.find? fun t => s.ktThreadid t = id

/-- The search of `syscall_pthread_join`: a thread does not join itself. -/
def joinTarget (c : Addr) (id : Nat) (s : Joins) : Option Addr :=
  if s.ktThreadid c = id then none else s.find id

/-- The next step of a call. `none` if it has to wait for `kt_exitlock` or for the event. -/
def callStep (c : Addr) (s : Joins) : Option Joins :=
  match s.pc c with
  | .out | .joinAsleep _ => none
  | .joinFound t =>
    if s.exitlock t = none then
      if s.life t = .terminated then some (((s.touch t).setLock t (some c)).setPc c (.holding t))
      else some ((s.touch t).setPc c (.joinAsleep t))
    else none
  | .joinWoken t =>
    if s.exitlock t = none then some (((s.touch t).setLock t (some c)).setPc c (.holding t))
    else none
  | .detachFound t =>
    if s.exitlock t = none then
      let s := (s.touch t).setLock t (some c)
      if s.life t = .terminated then some (s.setPc c (.holding t))
      else some ({ s with joinable := Function.update s.joinable t false }.setPc c (.detachMarked t))
    else none
  | .detachMarked t => some (((s.touch t).setLock t none).setPc c .out)
  | .holding t => some (((s.touch t).setLock t none).setPc c (.leaving t))
  | .leaving t => some (((s.touch t).removeSib t).setPc c (.removed t))
  | .removed t => some ((s.destroyThread t).setPc c .out)

/-- `event_wakeup(&(t->kt_threadexit))`. -/
def wakeJoiners (t : Addr) (s : Joins) : Joins :=
  { s with pc := fun c => if s.pc c = .joinAsleep t then .joinWoken t else s.pc c }

/-- The next step of `thread_terminate_handler`. `none` if it has to wait. -/
def handlerStep (s : Joins) : Option Joins :=
  match s.handler with
  | .idle =>
    match s.terminatedThreads with
    | [] => none
    | t :: rest => some { s with handler := .got t, terminatedThreads := rest }
  | .got t => some { s with handler := if s.joinable t then .marking t else .unlinking t }
  | .marking t =>
    if s.exitlock t = none then
      some { ({ s with life := Function.update s.life t .terminated }.wakeJoiners t) with
        handler := .checking }
    else none
  | .unlinking t => some { s.unlinkSib t with handler := .unlinked t }
  | .unlinked t => some { s.destroyThread t with handler := .checking }
  | .checking =>
    if s.threadptr.all fun t => s.life t = .terminated then
      some { s with handler := .cleaning s.threadptr }
    else some { s with handler := .idle }
  | .cleaning [] => some { s with handler := .finished }
  | .cleaning (t :: rest) => some { s.destroyThread t with handler := .cleaning rest }
  | .finished => none

inductive Op
  /-- A thread creates another one, with this number. -/
  | create (c t : Addr) (id : Nat)
  | exit (c : Addr)
  | join (c : Addr) (id : Nat)
  | detach (c : Addr) (id : Nat)
  | call (c : Addr)
  | handle

/-- The thread runs, and is in no call. -/
def free (c : Addr) (s : Joins) : Bool := s.life c = .live ∧ s.pc c = .out

def step (s : Joins) : Op → Option Joins
  | .create c t id =>
    if s.free c ∧ s.life t = .unborn then
      some { s with
        threadptr := t :: s.threadptr
        ktThreadid := Function.update s.ktThreadid t id
        life := Function.update s.life t .live
        joinable := Function.update s.joinable t true
        created := t :: s.created }
    else none
  | .exit c =>
    if s.free c then
      some { s with
        life := Function.update s.life c .terminating
        terminatedThreads := c :: s.terminatedThreads }
    else none
  | .join c id =>
    if s.free c then
      some (match s.joinTarget c id with
        | none => s
        | some t => s.setPc c (.joinFound t))
    else none
  | .detach c id =>
    if s.free c then
      some (match s.find id with
        | none => s
        | some t => s.setPc c (.detachFound t))
    else none
  | .call c => s.callStep c
  | .handle => s.handlerStep

/-! ## The condition -/

/-- No call is under way for the structure. -/
def Unused (t : Addr) (s : Joins) : Prop := ∀ c ∈ s.created, (s.pc c).target ≠ some t

instance (t : Addr) (s : Joins) : Decidable (s.Unused t) :=
  List.decidableBAll _ _

def MayStart (t : Option Addr) (s : Joins) : Prop :=
  match t with
  | none => True
  | some t => s.joinable t = true ∧ s.Unused t

instance (t : Option Addr) (s : Joins) : Decidable (s.MayStart t) :=
  match t with
  | none => inferInstanceAs (Decidable True)
  | some _ => inferInstanceAs (Decidable (_ ∧ _))

/-- The handler does not find a thread detached while a call is under way for it, and it finds the list
    empty when all threads have terminated. -/
def HandleOk (s : Joins) : HandlerPc → Prop
  | .got t => s.joinable t = true ∨ s.Unused t
  | .checking => (s.threadptr.all fun t => s.life t = .terminated) = true → s.threadptr = []
  | _ => True

instance (s : Joins) (pc : HandlerPc) : Decidable (s.HandleOk pc) :=
  match pc with
  | .got t => inferInstanceAs (Decidable (s.joinable t = true ∨ s.Unused t))
  | .checking => inferInstanceAs (Decidable ((s.threadptr.all _) = true → s.threadptr = []))
  | .idle | .marking _ | .unlinking _ | .unlinked _ | .cleaning _ | .finished => isTrue trivial

/-- A thread is joined or detached only while it is joinable and no other call is under way for it;
    and the handler goes on as in `HandleOk`. -/
def OpOk (s : Joins) : Op → Prop
  | .join c id => s.MayStart (s.joinTarget c id)
  | .detach _ id => s.MayStart (s.find id)
  | .handle => s.HandleOk s.handler
  | _ => True

instance (s : Joins) (op : Op) : Decidable (s.OpOk op) :=
  match op with
  | .join _ _ | .detach _ _ => inferInstanceAs (Decidable (MayStart _ _))
  | .handle => inferInstanceAs (Decidable (s.HandleOk s.handler))
  | .create _ _ _ | .exit _ | .call _ => isTrue trivial

end Joins

end AtomOs
