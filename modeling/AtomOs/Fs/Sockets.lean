import AtomOs.Fs.Calls

/-!
# Descriptors of files and of sockets

A descriptor of a process is an index into its `fhandles`. A value below `FTABLE_SIZE` there is a
slot of the open file table, one from `SOCKHANDLEBEGIN` on a socket; -1, -2 and -3 are the terminal
and -4 is nothing. The file system and `base/socket.c` both take descriptors from this array.

`Files` is the state of the file system together with the table of the sockets. The calls on files
are those of `AtomOs.Fs.Calls`; this module adds `opendir`, the calls on sockets that give and take
descriptors, `close`, `dup` and `dup2` for both kinds, and what `thread_terminate_handler` does with
the files of a process that has come to its end.

Of the locks of `base/socket.c` there is `socklist_lock`, which is not recursive. The last `close` of a
socket that is not connected takes it twice, and never comes back, or comes back without giving it
back; after that nobody creates or closes a socket any more. All other locks are given back before a
call returns.
-/

namespace AtomOs

open Lib Prog

/-! ## State -/

/-- `psk_type`; -1 marks a socket that is being set up. -/
inductive SockType
  | unused | marked | dgram | stream
  deriving DecidableEq

/-- `struct proc_sock`, without its packets and sequence numbers. -/
structure ProcSock where
  type : SockType
  port : Int
  refCount : Int
  peerHost : Int
  peerPort : Int
  transmitterUsing : Bool
  delRequest : Bool

def maxSockets : Nat := 50

/-- The file system and the sockets. `socklistLocked` is whether a call has come back with
    `socklist_lock`. -/
structure Files extends Fs where
  socktable : Nat → ProcSock
  thisHostid : Int
  socklistLocked : Bool

namespace Files

def enosocket : Int := -79
def ebadf : Int := -80
def enotsock : Int := -82
def enotbound : Int := -85
def esocktype : Int := -87

def ftflagsDir : Nat := 0x02

/-- A function of the file system. -/
def onFs {α : Type} (m : Prog Fs α) : Prog Files α := fun s =>
  (m s.toFs).map fun r => (r.1, { s with toFs := r.2 })

def setSock (j : Nat) (k : ProcSock) : Prog Files Unit := modify fun s =>
  { s with socktable := Function.update s.socktable j k }

def isSock (h : Int) : Prop := ftableSize ≤ h ∧ h < sockHandleEnd

instance (h : Int) : Decidable (isSock h) := inferInstanceAs (Decidable (_ ∧ _))

def sockIndex (h : Int) : Nat := (h - ftableSize).toNat

/-- `_lock(&socklist_lock)`. Nobody gives it back who has come back with it, and a thread that has it
    waits for itself. -/
def lockSocklist : Prog Files Unit := do
  let s ← get
  if s.socklistLocked then stuck else modify fun s => { s with socklistLocked := true }

def unlockSocklist : Prog Files Unit := modify fun s => { s with socklistLocked := false }

/-- `delete_socket`, of the socket `j` with the contents `k`. It takes `socklist_lock` by itself. -/
def deleteSocket (j : Nat) (k : ProcSock) : Prog Files Unit := do
  lockSocklist
  unlockSocklist
  setSock j { k with port := 0, transmitterUsing := true, type := .unused }

/-! ## Counting the descriptors -/

def incrementSockrefCount (h : Int) : Prog Files Unit := do
  if isSock h then
    let s ← get
    let k := s.socktable (sockIndex h)
    setSock (sockIndex h) { k with refCount := k.refCount + 1 }
  else return

/-- `decrement_sockref_count`. A connected stream to another machine is deleted later. So is a socket
    that the transmitter works on, and then `socklist_lock` is not given back; any other one is deleted
    while it is held, so that `delete_socket` waits for ever. -/
def decrementSockrefCount (h : Int) : Prog Files Unit := do
  if isSock h then
    lockSocklist
    let s ← get
    let k := s.socktable (sockIndex h)
    let k := { k with refCount := k.refCount - 1 }
    if 0 < k.refCount then
      setSock (sockIndex h) k
      unlockSocklist
    else if k.type = .stream ∧ k.peerPort ≠ -1 ∧ k.peerPort ≠ 0 then
      unlockSocklist
      if k.peerHost ≠ s.thisHostid then setSock (sockIndex h) { k with delRequest := true }
      else deleteSocket (sockIndex h) k
    else if k.transmitterUsing then setSock (sockIndex h) { k with delRequest := true }
    else deleteSocket (sockIndex h) k
  else return

def incrementRefCount (h : Int) : Prog Files Unit :=
  if isSlot h then onFs (AtomOs.incrementRefCount h) else incrementSockrefCount h

/-! ## Files -/

/-- `syscall_opendir` once the directory was found. -/
def openDirectory (pid vn fvn : Nat) : Prog Fs Int := do
  let v ← vnode fvn
  let slot ← allocFtabSlot
  match slot with
  | none => pure ()
  | some h =>
    addCount fvn 1
    let s ← get
    setFte h { s.openFileTable h with
      vn := fvn, size := Dirent.fsize v.data, curPosition := 0, flags := fteUsed ||| ftflagsDir }
  releaseVnode fvn
  releaseVnode vn
  handleFor pid slot

/-- `syscall_opendir`: the `dir_handle` of the directory; nothing if it returns `NULL`. -/
def syscallOpendir (pid : Nat) (path : List Nat) : Prog Fs (Option Int) := do
  if pathMax < path.length then return none
  else
    let (dirPath, name) := parsePath path
    let vn ← openDirPart pid dirPath
    if vn = 0 then return none
    else
      let fvn ← fat12VopLookup vn name
      if fvn = 0 then
        releaseVnode vn
        return none
      else
        let v ← vnode fvn
        if Dirent.isDir v.data then return some (← openDirectory pid vn fvn)
        else
          releaseVnode fvn
          releaseVnode vn
          return none

/-! ## Sockets -/

def syscallCloseSocket (pid sd : Nat) : Prog Files Int := do
  let s ← get
  let h := (s.procs pid).fhandles sd
  if maxProcFiles ≤ sd then return ebadf
  else if isSock h then
    decrementSockrefCount h
    return 0
  else return enotsock

/-- `syscall_socket`. The descriptor is taken first, and given back if there is no socket. -/
def syscallSocket (pid : Nat) (type : SockType) : Prog Files Int := do
  let s ← get
  match (List.range maxProcFiles).find? fun i => (s.procs pid).fhandles i < -2 with
  | none => return enoFreeFileTableSlot
  | some fhand =>
    onFs (setHandle pid fhand 0)
    match (List.range maxSockets).find? fun j => (s.socktable j).type = .unused with
    | none =>
      onFs (setHandle pid fhand (-3))
      return enosocket
    | some j =>
      onFs (setHandle pid fhand (j + ftableSize))
      setSock j {
        type := if type = .stream then .stream else .dgram
        port := 0
        refCount := 1
        peerHost := 0
        peerPort := -1
        transmitterUsing := false
        delRequest := false }
      -- Add to the global sockets
      lockSocklist
      unlockSocklist
      return fhand

def sizeofConnectRequest : Int := 28

/-- What comes from the network while `syscall_accept` works: what the calls of
    `recv_fromsock_stream` return, with whether the message is a request and who sent it; the port
    that was free; and what `sock_send` returns. -/
structure Incoming where
  received : List (Int × Bool × Int × Int)
  port : Int
  sent : Int

/-- The loop of `syscall_accept`: the sender of the first request, or an error. It goes on waiting
    when there is no more. -/
def awaitRequest : List (Int × Bool × Int × Int) → Option (Except Int (Int × Int))
  | [] => none
  | (err, isRequest, src) :: rest =>
    if err ≠ sizeofConnectRequest then some (.error err)
    else if isRequest then some (.ok src)
    else awaitRequest rest

def syscallAccept (pid sd : Nat) (net : Incoming) : Prog Files Int := do
  let s ← get
  let h := (s.procs pid).fhandles sd
  if maxProcFiles ≤ sd then return ebadf
  else if isSock h then
    let k := s.socktable (sockIndex h)
    if k.type ≠ .stream then return esocktype
    else if k.port = 0 then return enotbound
    else
      match awaitRequest net.received with
      | none => stuck
      | some (.error err) => return err
      | some (.ok src) =>
        -- Create another socket assign it this connection
        let s₁ ← syscallSocket pid k.type
        if s₁ < 0 then return s₁
        else
          let s ← get
          let h₁ := (s.procs pid).fhandles s₁.toNat
          setSock (sockIndex h₁) { s.socktable (sockIndex h₁) with
            port := net.port, peerHost := src.1, peerPort := src.2 }
          -- Send connection reply message
          lockSocklist
          unlockSocklist
          if net.sent ≠ sizeofConnectRequest then
            let _ ← syscallCloseSocket pid s₁.toNat
            return net.sent
          else return s₁
  else return enotsock

/-! ## Both -/

def syscallClose (pid fd : Nat) : Prog Files Int := do
  let s ← get
  if fd < maxProcFiles ∧ isSock ((s.procs pid).fhandles fd) then syscallCloseSocket pid fd
  else onFs (AtomOs.syscallClose pid fd)

def syscallDup (pid oldfd : Nat) : Prog Files Int := do
  let s ← get
  let h := (s.procs pid).fhandles oldfd
  if maxProcFiles ≤ oldfd ∨ h ≤ fhUnused then return einvalidHandle
  else
    match freeHandle (s.procs pid) with
    | none => return enoFreeFileTableSlot
    | some i =>
      onFs (setHandle pid i h)
      incrementRefCount h
      return i

def syscallDup2 (pid oldfd newfd : Nat) : Prog Files Int := do
  let s ← get
  if maxProcFiles ≤ oldfd ∨ maxProcFiles ≤ newfd ∨
      (s.procs pid).fhandles oldfd ≤ fhUnused then return einvalidHandle
  else
    -- Already opened file handle, close it
    if 0 ≤ (s.procs pid).fhandles newfd then
      let _ ← syscallClose pid newfd
    let s ← get
    onFs (setHandle pid newfd ((s.procs pid).fhandles oldfd))
    incrementRefCount ((s.procs pid).fhandles oldfd)
    return newfd

/-! ## The end of a process -/

/-- The loop of `thread_terminate_handler` over the descriptors of the process `dead`, up to the
    `n`-th. The thread it runs in belongs to the process `pid`. -/
def closeHandles (pid dead : Nat) : Nat → Prog Files Unit
  | 0 => return
  | n + 1 => do
    closeHandles pid dead n
    let s ← get
    if 0 ≤ (s.procs dead).fhandles n then
      let _ ← syscallClose pid n

/-- A reference to a directory is given back, if there is one. -/
def dropDir (p : Nat) : Prog Fs Unit := do
  if p = 0 then return
  else
    getVnode p
    addCount p (-1)
    releaseVnode p

/-- The file part of `thread_terminate_handler`, for the process `dead`, in a thread of `pid`. -/
def terminateFiles (pid dead : Nat) : Prog Files Unit := do
  closeHandles pid dead maxProcFiles
  let s ← get
  onFs (dropDir (s.procs dead).currentDir)
  onFs (dropDir (s.procs dead).rootDir)

end Files

end AtomOs
