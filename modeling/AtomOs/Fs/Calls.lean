import AtomOs.Lib.Run
import AtomOs.Fs.Vnode

/-!
# The file system calls

Paths, the open file table, the descriptors of processes, and the system calls of `base/fs.c` over
them. A call is a `Prog` over the file system's state; the process that makes it is its first
argument. A path is the list of bytes in front of its terminating NUL.

`FsOp` and `fsStep` put the calls together: any number of processes, one call at a time.
-/

namespace AtomOs

open Lib Prog

def eaccess : Int := -49
def einvalidHandle : Int := -51
def elongPath : Int := -53
def einvalidSeek : Int := -55
def etargetExists : Int := -57
def epathNotExists : Int := -58
def efileCreateError : Int := -43
def edirOpenAsAFile : Int := -44
def emaxFiles : Int := -110
def edir : Int := -113

/-- `FTABLE_SIZE`; also `SOCKHANDLEBEGIN`, the first handle that is a socket. -/
def ftableSize : Nat := 100

def maxProcFiles : Nat := 20

def sockHandleEnd : Nat := 150

def pathMax : Nat := 500

def fhUnused : Int := -4

def fteUnused : Nat := 0
def fteUsed : Nat := 0x01
def ftflagsFile : Nat := 0x04
def ftflagsRead : Nat := 0x08
def ftflagsWrite : Nat := 0x10
def ftflagsAppend : Nat := 0x20
def ftflagsChanged : Nat := 0x40

def oRdonly : Nat := 0x01
def oWronly : Nat := 0x02
def oRdwr : Nat := 0x04
def oAppend : Nat := 0x08
def oTrunc : Nat := 0x10
def oCreat : Nat := 0x20

/-! ## The open file table and descriptors -/

def Fs.setFte (s : Fs) (h : Nat) (fte : FileTableEntry) : Fs :=
  { s with openFileTable := fun i => if i = h then fte else s.openFileTable i }

def Fs.setProc (s : Fs) (pid : Nat) (inf : FilesInfo) : Fs :=
  { s with procs := fun i => if i = pid then inf else s.procs i }

def setFte (h : Nat) (fte : FileTableEntry) : Prog Fs Unit := modify fun s => s.setFte h fte

def setHandle (pid fd : Nat) (h : Int) : Prog Fs Unit := modify fun s =>
  s.setProc pid { s.procs pid with
    fhandles := fun i => if i = fd then h else (s.procs pid).fhandles i }

/-- `alloc_ftab_slot`: the first unused slot, now used. -/
def allocFtabSlot : Prog Fs (Option Nat) := do
  let s ← get
  match (List.range ftableSize).find? fun i => (s.openFileTable i).flags == fteUnused with
  | none => return none
  | some i =>
    setFte i { s.openFileTable i with flags := fteUsed }
    return some i

def freeHandle (inf : FilesInfo) : Option Nat :=
  (List.range maxProcFiles).find? fun i => inf.fhandles i == fhUnused

/-- `alloc_process_file_handle`: a descriptor for the slot, or an error. -/
def allocProcessFileHandle (pid : Nat) (h : Int) : Prog Fs Int := do
  let s ← get
  match freeHandle (s.procs pid) with
  | none => return enoFreeFileTableSlot
  | some i =>
    setHandle pid i h
    return i

/-- `increment_ref_count`. Handles that are no slots of the table are sockets, or the terminal. -/
def incrementRefCount (h : Int) : Prog Fs Unit := do
  if 0 ≤ h ∧ h < ftableSize then
    let s ← get
    let fte := s.openFileTable h.toNat
    getVnode fte.vn
    addCount fte.vn 1
    setFte h.toNat { fte with refCount := fte.refCount + 1 }
    releaseVnode fte.vn
  else return

def decrementRefCount (h : Int) : Prog Fs Unit := do
  if 0 ≤ h ∧ h < ftableSize then
    let s ← get
    let fte := s.openFileTable h.toNat
    getVnode fte.vn
    addCount fte.vn (-1)
    setFte h.toNat { fte with refCount := fte.refCount - 1 }
    releaseVnode fte.vn
    -- Release the file table slot
    if fte.refCount - 1 = 0 then
      setFte h.toNat { fte with refCount := fte.refCount - 1, flags := fteUnused }
    else return
  else return

/-! ## Paths -/

def isSeparator (c : Nat) : Bool := c == 47 || c == 92

/-- `parse_path`: the directory part, with its last separator, and the name. `strncpy` leaves at
    most 254 characters of the latter. -/
def parsePath (path : List Nat) : List Nat × List Nat :=
  let name := (path.reverse.takeWhile fun c => !isSeparator c).reverse
  (path.take (path.length - name.length), name.take 254)

/-- The next component of a path and what is left of it. -/
def nextComponent (path : List Nat) : List Nat × List Nat :=
  let name := (path.takeWhile fun c => !isSeparator c).take 255
  (name, path.drop (name.length + 1))

/-- The loop of `lookup_path`, at directory `cur`. -/
def lookupPathFrom : Nat → List Nat → Nat → Prog Fs Nat
  | 0, _, _ => stuck
  | fuel + 1, path, cur => do
    if path = [] then
      addCount cur (-1)
      return cur
    else
      let (name, rest) := nextComponent path
      if name = nameDot then lookupPathFrom fuel rest cur
      else
        let new ← if name = nameDotDot then getPdir cur else fat12VopLookup cur name
        releaseVnode cur
        if new = 0 then return 0
        else
          addCount new 1
          lookupPathFrom fuel rest new

def getRootdir (pid : Nat) : Prog Fs Nat := do
  let s ← get
  getVnode (s.procs pid).rootDir
  return (s.procs pid).rootDir

def getCurdir (pid : Nat) : Prog Fs Nat := do
  let s ← get
  getVnode (s.procs pid).currentDir
  return (s.procs pid).currentDir

/-- `lookup_path`; 0 is `NULL`. -/
def lookupPath (pid : Nat) (path : List Nat) : Prog Fs Nat := do
  let abs := path.head?.any isSeparator
  let cur ← if abs then getRootdir pid else getCurdir pid
  addCount cur 1
  let path := if abs then path.tail else path
  lookupPathFrom (path.length + 1) path cur

/-- The directory a call works in: that of the directory part, or the current one. -/
def openDirPart (pid : Nat) (dirPath : List Nat) : Prog Fs Nat :=
  if dirPath ≠ [] then lookupPath pid dirPath else getCurdir pid

/-! ## Opening and closing -/

/-- `type & flag` is not 0. -/
def hasFlag (type flag : Nat) : Bool := type / flag % 2 == 1

/-- The flags `syscall_open` gives to a slot, on top of `FTE_USED`. -/
def openFlags (type : Nat) : Nat :=
  fteUsed |||
    (if hasFlag type oTrunc || hasFlag type oWronly then ftflagsChanged ||| ftflagsWrite
      else if type = oAppend then ftflagsAppend else 0) |||
    (if hasFlag type oRdonly || hasFlag type oRdwr then ftflagsRead else 0) |||
    (if hasFlag type oWronly || hasFlag type oRdwr then ftflagsWrite else 0) ||| ftflagsFile

/-- The part of `syscall_open` that fills the slot, and truncates. -/
def initSlot (h fvn type size : Nat) : Prog Fs Unit := do
  addCount fvn 1
  let s ← get
  let fte := s.openFileTable h
  if hasFlag type oTrunc || hasFlag type oWronly then
    if size ≠ 0 then fat12VopTrunc fvn
    setFte h { fte with flags := openFlags type, size := 0, curPosition := 0, vn := fvn }
  else
    setFte h { fte with
      flags := openFlags type, size := size, vn := fvn,
      curPosition := if type = oAppend then size else 0 }

/-- The descriptor for a slot; if there is none, the slot is given back. -/
def handleFor (pid : Nat) : Option Nat → Prog Fs Int
  | none => return emaxFiles
  | some h => do
    let fd ← allocProcessFileHandle pid h
    if fd < 0 then decrementRefCount h
    return fd

/-- The type of opening without its invalid bits; 0 is for reading. -/
def openType (type : Nat) : Nat := if type = 0 then oRdonly else type % 64

/-- `syscall_open` after the file was found or created. -/
def openFile (pid vn fvn type : Nat) : Prog Fs Int := do
  let v ← vnode fvn
  if Dirent.isDir v.data then
    releaseVnode vn
    releaseVnode fvn
    return edirOpenAsAFile
  else
    let type := openType type
    if (hasFlag type oWronly || hasFlag type oRdwr || hasFlag type oAppend) &&
        Dirent.readOnly v.data then
      releaseVnode vn
      releaseVnode fvn
      return eaccess
    else
      let slot ← allocFtabSlot
      match slot with
      | none => pure ()
      | some h => initSlot h fvn type (Dirent.fsize v.data)
      releaseVnode vn
      releaseVnode fvn
      handleFor pid slot

def syscallOpen (pid : Nat) (path : List Nat) (type mode : Nat) : Prog Fs Int := do
  if pathMax < path.length then return elongPath
  else
    let (dirPath, name) := parsePath path
    let vn ← openDirPart pid dirPath
    if vn = 0 then return epathNotExists
    else
      let fvn ← fat12VopLookup vn name
      if fvn ≠ 0 then openFile pid vn fvn type
      else if hasFlag type oCreat || hasFlag type oWronly || hasFlag type oRdwr then
        -- Not exists, creation can be done
        let fvn ← fat12VopCreate vn name mode
        if fvn = 0 then
          releaseVnode vn
          return efileCreateError
        else openFile pid vn fvn type
      else
        releaseVnode vn
        return epathNotExists

/-- `syscall_creat` after the file was truncated or created. -/
def creatFile (pid vn fvn : Nat) : Prog Fs Int := do
  let slot ← allocFtabSlot
  match slot with
  | none => pure ()
  | some h =>
    addCount fvn 1
    let s ← get
    setFte h { s.openFileTable h with
      vn := fvn, size := 0, curPosition := 0,
      flags := fteUsed ||| ftflagsChanged ||| ftflagsWrite ||| ftflagsFile }
  releaseVnode fvn
  releaseVnode vn
  handleFor pid slot

def syscallCreat (pid : Nat) (path : List Nat) (mode : Nat) : Prog Fs Int := do
  if pathMax < path.length then return elongPath
  else
    let (dirPath, name) := parsePath path
    let vn ← openDirPart pid dirPath
    if vn = 0 then return epathNotExists
    else
      let fvn ← fat12VopLookup vn name
      if fvn ≠ 0 then
        let v ← vnode fvn
        if Dirent.isDir v.data || Dirent.readOnly v.data then
          releaseVnode fvn
          releaseVnode vn
          return eaccess
        else
          -- Truncate the existing file
          fat12VopTrunc fvn
          creatFile pid vn fvn
      else
        let fvn ← fat12VopCreate vn name mode
        if fvn = 0 then
          releaseVnode vn
          return efileCreateError
        else creatFile pid vn fvn

def isSlot (h : Int) : Prop := 0 ≤ h ∧ h < ftableSize

instance (h : Int) : Decidable (isSlot h) := inferInstanceAs (Decidable (_ ∧ _))

/-- `syscall_close`. The descriptor of a socket stays as it is. -/
def syscallClose (pid fd : Nat) : Prog Fs Int := do
  let s ← get
  let h := (s.procs pid).fhandles fd
  if fd < maxProcFiles ∧ isSlot h then
    decrementRefCount h
    setHandle pid fd fhUnused
    return 0
  else if fd < maxProcFiles ∧ ftableSize ≤ h ∧ h < sockHandleEnd then return 0
  else return einvalidHandle

def syscallDup (pid oldfd : Nat) : Prog Fs Int := do
  let s ← get
  let h := (s.procs pid).fhandles oldfd
  if maxProcFiles ≤ oldfd ∨ h ≤ fhUnused then return einvalidHandle
  else
    match freeHandle (s.procs pid) with
    | none => return enoFreeFileTableSlot
    | some i =>
      setHandle pid i h
      incrementRefCount h
      return i

def syscallDup2 (pid oldfd newfd : Nat) : Prog Fs Int := do
  let s ← get
  if maxProcFiles ≤ oldfd ∨ maxProcFiles ≤ newfd ∨
      (s.procs pid).fhandles oldfd ≤ fhUnused then return einvalidHandle
  else
    -- Already opened file handle, close it
    if 0 ≤ (s.procs pid).fhandles newfd then
      let _ ← syscallClose pid newfd
    let s ← get
    setHandle pid newfd ((s.procs pid).fhandles oldfd)
    incrementRefCount ((s.procs pid).fhandles oldfd)
    return newfd

/-- The loop of `create_process` over the descriptors the new process inherits. -/
def inheritHandles (parent child : Nat) : Nat → Prog Fs Unit
  | 0 => return
  | n + 1 => do
    inheritHandles parent child n
    let s ← get
    let h := (s.procs parent).fhandles n
    setHandle child n h
    if 0 ≤ h then incrementRefCount h

/-- The file part of `create_process`: a new process takes over the directories and descriptors of
    the one that makes it. -/
def inheritFiles (parent child : Nat) : Prog Fs Unit := do
  let cur ← getCurdir parent
  addCount cur 1
  releaseVnode cur
  let root ← getRootdir parent
  addCount root 1
  releaseVnode root
  modify fun s => s.setProc child ⟨root, cur, (s.procs child).fhandles⟩
  inheritHandles parent child maxProcFiles

/-! ## Reading, writing, seeking -/

/-- The slot behind a descriptor that may be used for `flag`; `none` for the terminal, a socket or
    nothing. `valid_handle` is not 0 for an invalid handle, but such a handle is no slot. -/
def slotFor (s : Fs) (pid fd flag : Nat) : Option Nat :=
  let h := (s.procs pid).fhandles fd
  if fd < maxProcFiles ∧ isSlot h ∧ hasFlag (s.openFileTable h.toNat).flags flag then some h.toNat
  else none

/-- The position after `vop_read` or `vop_write` has returned `ret`, and the result of the call. -/
def advance (h : Nat) (ret : Int) : Prog Fs Int := do
  let s ← get
  let fte := s.openFileTable h
  if 0 < ret then
    setFte h { fte with curPosition := ret.toNat }
    return i32 (ret - fte.curPosition)
  else return ret

/-- `syscall_read` from a file; `einvalidHandle` stands for everything else a descriptor can be.
    The bytes are those stored in the caller's buffer. -/
def syscallRead (pid fd : Nat) (nbytes : Int) : Prog Fs (Int × List Nat) := do
  let s ← get
  match slotFor s pid fd ftflagsRead with
  | none => return (einvalidHandle, [])
  | some h =>
    let fte := s.openFileTable h
    getVnode fte.vn
    let (ret, bytes) := fat12VopRead s fte.vn (i32 fte.curPosition) nbytes
    let ret ← advance h ret
    releaseVnode fte.vn
    return (ret, bytes)

/-- `syscall_write` to a file. -/
def syscallWrite (pid fd : Nat) (buf : Bytes) (nbytes : Int) : Prog Fs Int := do
  let s ← get
  match slotFor s pid fd ftflagsWrite with
  | none => return einvalidHandle
  | some h =>
    let fte := s.openFileTable h
    getVnode fte.vn
    let ret ← fat12VopWrite fte.vn (i32 fte.curPosition) buf nbytes
    let ret ← advance h ret
    releaseVnode fte.vn
    return ret

/-- The position `syscall_lseek` leaves. All comparisons with `fte_size` are unsigned, so the test
    for a position below 0 is always passed. -/
def seekPosition (fte : FileTableEntry) (offset : Int) (whence : Nat) : Nat :=
  if whence = 0 then
    if 0 ≤ offset ∧ offset ≤ fte.size then offset.toNat else fte.curPosition
  else if whence = 1 then
    if u32 (fte.curPosition + offset) ≤ fte.size then u32 (fte.curPosition + offset)
    else fte.curPosition
  else if offset < 0 then u32 (fte.size + offset) else fte.curPosition

/-- `syscall_lseek`. A socket's handle indexes the table behind its end. -/
def syscallLseek (pid fd : Nat) (offset : Int) (whence : Nat) : Prog Fs Int := do
  let s ← get
  let h := (s.procs pid).fhandles fd
  if fd < maxProcFiles ∧ 0 ≤ h ∧ whence ≤ 2 then
    if h < ftableSize then
      let fte := s.openFileTable h.toNat
      getVnode fte.vn
      setFte h.toNat { fte with curPosition := seekPosition fte offset whence }
      releaseVnode fte.vn
      return 0
    else stuck
  else return einvalidSeek

/-! ## Directories -/

def syscallMkdir (pid : Nat) (path : List Nat) : Prog Fs Int := do
  if pathMax < path.length then return elongPath
  else
    let (dirPath, name) := parsePath path
    let vn ← openDirPart pid dirPath
    if vn = 0 then return epathNotExists
    else
      let fvn ← fat12VopLookup vn name
      if fvn ≠ 0 then
        releaseVnode fvn
        releaseVnode vn
        return eduplicateEntry
      else
        let err ← fat12VopMkdir vn name
        releaseVnode vn
        return err

def syscallRmdir (pid : Nat) (path : List Nat) : Prog Fs Int := do
  if pathMax < path.length then return elongPath
  else
    let (dirPath, name) := parsePath path
    let vn ← openDirPart pid dirPath
    if vn = 0 then return epathNotExists
    else
      let fvn ← fat12VopLookup vn name
      if fvn = 0 then
        releaseVnode vn
        return epathNotExists
      else
        let v ← vnode fvn
        let err ←
          if !Dirent.isDir v.data || Dirent.readOnly v.data then pure eaccess
          else fat12VopRmdir vn name
        releaseVnode fvn
        releaseVnode vn
        return err

def syscallChdir (pid : Nat) (path : List Nat) : Prog Fs Int := do
  if pathMax < path.length then return elongPath
  else
    let vn ← lookupPath pid path
    if vn = 0 then return epathNotExists
    else
      addCount vn 1
      releaseVnode vn
      let s ← get
      getVnode (s.procs pid).currentDir
      addCount (s.procs pid).currentDir (-1)
      releaseVnode (s.procs pid).currentDir
      modify fun s => s.setProc pid { s.procs pid with currentDir := vn }
      return 0

def syscallUnlink (pid : Nat) (path : List Nat) : Prog Fs Int := do
  if pathMax < path.length then return elongPath
  else
    let (dirPath, name) := parsePath path
    let vn ← openDirPart pid dirPath
    if vn = 0 then return epathNotExists
    else
      let fvn ← fat12VopLookup vn name
      if fvn = 0 then
        releaseVnode vn
        return epathNotExists
      else
        let v ← vnode fvn
        let err ←
          if Dirent.readOnly v.data then pure eaccess
          else if Dirent.isDir v.data then pure edir
          else fat12VopRemove fvn
        releaseVnode fvn
        releaseVnode vn
        return err

/-- `syscall_stat`, without the buffer it fills. -/
def syscallStat (pid : Nat) (path : List Nat) : Prog Fs Int := do
  if pathMax < path.length then return elongPath
  else
    let (dirPath, name) := parsePath path
    let vn ← openDirPart pid dirPath
    if vn = 0 then return epathNotExists
    else
      let fvn ← fat12VopLookup vn name
      if fvn = 0 then
        releaseVnode vn
        return epathNotExists
      else
        releaseVnode fvn
        releaseVnode vn
        return 0

/-- `syscall_rename` once both directories are open. The device of the target, which does not
    exist, is read through `NULL`. -/
def renameIn (svn dvn : Nat) (name₁ name₂ : List Nat) : Prog Fs Int := do
  let fsvn ← fat12VopLookup svn name₁
  if fsvn = 0 then
    releaseVnode svn
    releaseVnode dvn
    return epathNotExists
  else
    let fdvn ← fat12VopLookup dvn name₂
    if fdvn ≠ 0 then
      releaseVnode fdvn
      releaseVnode fsvn
      releaseVnode svn
      releaseVnode dvn
      return etargetExists
    else
      let s ← get
      let v ← vnode fsvn
      let err ← if s.nullDev ≠ v.dev then pure 0 else fat12VopRename fsvn dvn name₂
      releaseVnode fsvn
      releaseVnode svn
      releaseVnode dvn
      return err

def syscallRename (pid : Nat) (oldpath newpath : List Nat) : Prog Fs Int := do
  if pathMax < oldpath.length ∨ pathMax < newpath.length then return elongPath
  else
    let (dirPath₁, name₁) := parsePath oldpath
    let (dirPath₂, name₂) := parsePath newpath
    let svn ← openDirPart pid dirPath₁
    if svn = 0 then return epathNotExists
    else
      let dvn ← openDirPart pid dirPath₂
      if dvn = 0 then
        releaseVnode svn
        return epathNotExists
      else renameIn svn dvn name₁ name₂

/-! ## Mounting -/

/-- The entry `mountroot` makes up for the root directory. -/
def rootDirent : Bytes :=
  Dirent.setFsize (Dirent.setStart ((Bytes.zero.put 0 47).put 11 ftypeDir) (-12)) 0

/-- The state after `mountroot`, for a disk and its allocation table: the only vnode, at address 1,
    is that of the root directory. All processes are there, with the terminal as their first three
    descriptors. -/
def mountroot (fat : FatTable) (disk : Nat → Bytes) : Fs where
  fat := fat
  disk := disk
  unreadable b := decide (totalSect ≤ b)
  platter := disk
  faulty b := decide (totalSect ≤ b)
  vnodes p := ⟨false, if p = 1 then 1 else 0, 0, 0, -12, 0, rootDirent⟩
  vnlist h := if h = vnodeHash (-12) then [1] else []
  nextVnode := 2
  noMem _ := false
  openFileTable _ := ⟨0, fteUnused, 0, 0, 0⟩
  procs _ := ⟨1, 1, fun fd => if fd < 3 then -1 - fd else fhUnused⟩
  time := 0
  date := 0
  junk := Bytes.zero
  nullDev := 0

/-! ## Runs -/

inductive FsOp where
  | «open» (pid : Nat) (path : List Nat) (type mode : Nat)
  | creat (pid : Nat) (path : List Nat) (mode : Nat)
  | close (pid fd : Nat)
  | dup (pid oldfd : Nat)
  | dup2 (pid oldfd newfd : Nat)
  | inherit (parent child : Nat)
  | read (pid fd : Nat) (nbytes : Int)
  | write (pid fd : Nat) (buf : Bytes) (nbytes : Int)
  | lseek (pid fd : Nat) (offset : Int) (whence : Nat)
  | mkdir (pid : Nat) (path : List Nat)
  | rmdir (pid : Nat) (path : List Nat)
  | chdir (pid : Nat) (path : List Nat)
  | unlink (pid : Nat) (path : List Nat)
  | stat (pid : Nat) (path : List Nat)
  | rename (pid : Nat) (oldpath newpath : List Nat)

def FsOp.call : FsOp → Prog Fs Int
  | .open pid path type mode => syscallOpen pid path type mode
  | .creat pid path mode => syscallCreat pid path mode
  | .close pid fd => syscallClose pid fd
  | .dup pid oldfd => syscallDup pid oldfd
  | .dup2 pid oldfd newfd => syscallDup2 pid oldfd newfd
  | .inherit parent child => do
    inheritFiles parent child
    return 0
  | .read pid fd nbytes => do return (← syscallRead pid fd nbytes).1
  | .write pid fd buf nbytes => syscallWrite pid fd buf nbytes
  | .lseek pid fd offset whence => syscallLseek pid fd offset whence
  | .mkdir pid path => syscallMkdir pid path
  | .rmdir pid path => syscallRmdir pid path
  | .chdir pid path => syscallChdir pid path
  | .unlink pid path => syscallUnlink pid path
  | .stat pid path => syscallStat pid path
  | .rename pid oldpath newpath => syscallRename pid oldpath newpath

def fsStep (s : Fs) (op : FsOp) : Option Fs := (op.call s).map Prod.snd

end AtomOs
