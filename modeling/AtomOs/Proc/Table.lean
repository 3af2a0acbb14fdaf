import AtomOs.Lib.Queues
import AtomOs.Lib.Run
import AtomOs.Lib.Word

/-!
# The process table

A process structure has one pair of links (`proc_next`, `proc_prev`) for three lists:
`used_processes`, `suspended_processes` and `unused_processes`. Each process has a slot of the local
descriptor table.

This module has `create_process` with its failure exits, `syscall_exit` and `syscall_kill`, the end of
a process in `thread_terminate_handler`, `syscall_wait` and `suspend`. `destroy_process` puts the
structure on the unused list or frees it; it does not take it from the list it is on, and nobody
frees the slot of a process that was created.
-/

namespace AtomOs

open Lib

/-- `used_processes`, `suspended_processes` and `unused_processes`. -/
inductive ProcessList
  | used | suspended | unused
  deriving DecidableEq

inductive ProcState
  | ready | suspended | terminated
  deriving DecidableEq

abbrev ProcTable.maxProcesses : Nat := 32

def ProcTable.unusedprocCountmax : Nat := 10

/-- The process structures. The children of a process (`proc_childlist`, `proc_sib`) are a list.
    `hasThread` is whether the first thread of a process was created, and `dying` whether its threads
    have been terminated. `allocated` and `inUse` are only there to talk about runs: whether the
    memory of a structure is allocated, and whether it is that of a process that was created and not
    destroyed. -/
structure ProcTable where
  procNext : Addr → Option Addr
  procPrev : Addr → Option Addr
  head : ProcessList → Option Addr
  unusedprocCount : Nat
  ldtTable : Fin ProcTable.maxProcesses → Bool
  procId : Addr → Nat
  procLdtindex : Addr → Fin ProcTable.maxProcesses
  procState : Addr → ProcState
  procWaitable : Addr → Bool
  procParent : Addr → Option Addr
  procChildlist : Addr → List Addr
  hasThread : Addr → Bool
  dying : Addr → Bool
  allocated : Addr → Bool
  inUse : Addr → Bool

namespace ProcTable

/-! ## Allocation -/

/-- `alloc_ldt_index`: the first free slot. -/
def allocLdtIndex (s : ProcTable) : Option (Fin maxProcesses) :=
  (List.finRange maxProcesses).find? fun i => !s.ldtTable i

/-- `alloc_process`: the first unused structure, or new memory, which is `mem`. -/
def allocProcess (mem : Option Addr) (s : ProcTable) : Option (Addr × ProcTable) :=
  match s.head .unused with
  | some p =>
    some (p, { s with
      head := Function.update s.head .unused (s.procNext p)
      procPrev := store s.procPrev (s.procNext p) none
      procNext := store s.procNext (some p) none
      unusedprocCount := s.unusedprocCount - 1 })
  | none => mem.map fun p => (p, { s with allocated := Function.update s.allocated p true })

def pushFront (i : ProcessList) (p : Addr) (s : ProcTable) : ProcTable :=
  { s with
    procPrev := store (store s.procPrev (some p) none) (s.head i) (some p)
    procNext := store s.procNext (some p) (s.head i)
    head := Function.update s.head i (some p) }

def destroyProcess (p : Addr) (s : ProcTable) : ProcTable :=
  let s := { s with inUse := Function.update s.inUse p false }
  if s.unusedprocCount < unusedprocCountmax then
    { s.pushFront .unused p with unusedprocCount := s.unusedprocCount + 1 }
  else { s with allocated := Function.update s.allocated p false }

/-- What `create_process` fills in. -/
def initProcess (p parent : Addr) (procno : Nat) (slot : Fin maxProcesses) (s : ProcTable) :
    ProcTable :=
  { s with
    procId := Function.update s.procId p procno
    procLdtindex := Function.update s.procLdtindex p slot
    procState := Function.update s.procState p .ready
    procWaitable := Function.update s.procWaitable p true
    procParent := Function.update s.procParent p (some parent)
    procChildlist := Function.update (Function.update s.procChildlist p []) parent
      (p :: s.procChildlist parent)
    dying := Function.update s.dying p false
    inUse := Function.update s.inUse p true }

inductive Created
  | ok (p : Addr)
  | maxProcesses
  | noMem
  | noThread
  deriving DecidableEq

/-- `create_process`, by a thread of `parent`. `mem` is what `kmalloc` gives, and `threadOk` whether
    `create_thread` succeeds; if not, `terminate_process` finds no thread to terminate. -/
def createProcess (parent : Addr) (procno : Nat) (mem : Option Addr) (threadOk : Bool)
    (s : ProcTable) : Created × ProcTable :=
  match s.allocLdtIndex with
  | none => (.maxProcesses, s)
  | some slot =>
    match ({ s with ldtTable := Function.update s.ldtTable slot true }).allocProcess mem with
    | none => (.noMem, { s with
        ldtTable := Function.update (Function.update s.ldtTable slot true) slot false })
    | some (p, s) =>
      let s := (s.initProcess p parent procno slot).pushFront .used p
      let s := { s with hasThread := Function.update s.hasThread p threadOk }
      (if threadOk then .ok p else .noThread, s)

/-! ## Termination -/

/-- The loop along `proc_next`. `none` if it does not end. -/
def findPid (s : ProcTable) (pid : Nat) : Nat → Option Addr → Option (Option Addr)
  | _, none => some none
  | 0, some _ => none
  | fuel + 1, some p => if s.procId p = pid then some (some p) else findPid s pid fuel (s.procNext p)

/-- The search of `syscall_kill`. -/
def lookup (pid : Nat) (s : ProcTable) : Option (Option Addr) :=
  (s.findPid pid walkFuel (s.head .used)).bind fun r =>
    match r with
    | some p => some (some p)
    | none => s.findPid pid walkFuel (s.head .suspended)

/-- `terminate_process`: the threads are terminated, if there are any. -/
def terminateProcess (p : Addr) (s : ProcTable) : ProcTable :=
  if s.hasThread p then { s with dying := Function.update s.dying p true } else s

def syscallKill (pid : Nat) (s : ProcTable) : Option ProcTable :=
  (s.lookup pid).map fun r =>
    match r with
    | some p => s.terminateProcess p
    | none => s

/-- What `thread_terminate_handler` does with the children of a process that has come to its end:
    those that have terminated are destroyed, the others get its parent. -/
def orphan (parent : Addr) : List Addr → ProcTable → List Addr × ProcTable
  | [], s => ([], s)
  | c :: cs, s =>
    if s.procState c = .terminated then orphan parent cs (s.destroyProcess c)
    else
      let r := orphan parent cs { s with procParent := Function.update s.procParent c (some parent) }
      (c :: r.1, r.2)

def dropChild (parent p : Addr) (s : ProcTable) : ProcTable :=
  { s with procChildlist := Function.update s.procChildlist parent
            ((s.procChildlist parent).erase p) }

/-- The end of a process in `thread_terminate_handler`. The system process has no parent: `NULL` is
    followed then, and also when a process that nobody waits for is not among its parent's
    children. -/
def finish (p : Addr) (s : ProcTable) : Option ProcTable :=
  match s.procParent p with
  | none => none
  | some parent =>
    let r := orphan parent (s.procChildlist p) s
    let s := { r.2 with
      procChildlist := Function.update
        (Function.update r.2.procChildlist parent (r.1 ++ r.2.procChildlist parent)) p [] }
    if s.procWaitable p then
      some { s with procState := Function.update s.procState p .terminated }
    else if p ∈ s.procChildlist parent then some ((s.dropChild parent p).destroyProcess p)
    else none

/-- `syscall_wait`, by a thread of `parent`. If no child has terminated it follows `NULL`. -/
def syscallWait (parent : Addr) (s : ProcTable) : Option ProcTable :=
  ((s.procChildlist parent).find? fun c => s.procState c = .terminated).map fun c =>
    (s.dropChild parent c).destroyProcess c

def unlinkUsed (p : Addr) (s : ProcTable) : ProcTable :=
  { s with
    procNext := store s.procNext (s.procPrev p) (s.procNext p)
    procPrev := store s.procPrev (s.procNext p) (s.procPrev p)
    head := if s.procPrev p = none then Function.update s.head .used (s.procNext p) else s.head }

/-- What `suspend` does to the lists. -/
def suspend (p : Addr) (s : ProcTable) : ProcTable :=
  ({ s with procState := Function.update s.procState p .suspended }.unlinkUsed p).pushFront
    .suspended p

/-! ## Steps -/

inductive Op
  | create (parent : Addr) (procno : Nat) (mem : Option Addr) (threadOk : Bool)
  | exit (p : Addr)
  | kill (pid : Nat)
  | finish (p : Addr)
  | wait (parent : Addr)
  | suspend (p : Addr)

/-- One step. `kmalloc` gives memory that is not allocated; a process that calls something is in use;
    a process comes to its end once, after its threads; and only a process that is ready is
    suspended. -/
def step (s : ProcTable) : Op → Option ProcTable
  | .create parent procno mem threadOk =>
    if s.inUse parent ∧ mem.all fun a => !s.allocated a then
      some (s.createProcess parent procno mem threadOk).2
    else none
  | .exit p => if s.inUse p then some (s.terminateProcess p) else none
  | .kill pid => s.syscallKill pid
  | .finish p =>
    if s.inUse p ∧ s.dying p ∧ s.procState p ≠ .terminated then s.finish p else none
  | .wait parent => if s.inUse parent then s.syscallWait parent else none
  | .suspend p => if s.inUse p ∧ s.procState p = .ready then some (s.suspend p) else none

/-- A process that has been created, is not destroyed, has a thread, and has not terminated. -/
def Live (s : ProcTable) (p : Addr) : Prop :=
  s.inUse p = true ∧ s.hasThread p = true ∧ s.procState p ≠ .terminated

/-- There is no free slot, or neither an unused structure nor memory for one: `create_process` fails
    before it creates anything. -/
def Blocked (s : ProcTable) (mem : Option Addr) : Prop :=
  s.allocLdtIndex = none ∨ s.head .unused = none ∧ mem = none

instance (s : ProcTable) (mem : Option Addr) : Decidable (s.Blocked mem) :=
  inferInstanceAs (Decidable (_ ∨ _))

/-- No process comes to its end, and `create_thread` does not fail if `create_process` calls it. -/
def OpOk (s : ProcTable) : Op → Prop
  | .create _ _ mem threadOk => threadOk = true ∨ s.Blocked mem
  | .finish _ => False
  | .exit _ | .kill _ | .wait _ | .suspend _ => True

instance (s : ProcTable) (op : Op) : Decidable (s.OpOk op) := by
  cases op <;> unfold OpOk <;> infer_instance

end ProcTable

end AtomOs
