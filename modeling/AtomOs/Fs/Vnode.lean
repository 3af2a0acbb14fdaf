import AtomOs.Lib.Prog
import AtomOs.Fs.Fat

/-!
# Vnodes and the FAT12 operations on them

The state of the file system and the functions of `base/fs.c` and `base/fat12.c` below the system
calls: the vnode table, directories on disk, and the operations of `fat12_vnops`.

* A vnode is found by its address; 0 is `NULL`. Its `v_data` is the directory entry it was made
  from. `v_count` is an `unsigned short`, so it is never negative, and `fat12_vop_destroy` never
  gives a vnode's memory back: a vnode whose count is 0 stays in its hash list.
* The disk is seen through the buffer cache: one block per sector, and the sectors that cannot be
  read at present. `platter` is what a sector reads as again after its buffer was thrown away.
* Reading through `NULL` does not fault in this kernel. `rename` does so for one word, `nullDev`;
  everything else that would touch a vnode at address 0 is `stuck`, as is a loop that does not end.
-/

namespace AtomOs

open Lib Prog

/-! ## State -/

/-- `struct vnode`; `changed` is the bit `FTFLAGS_CHANGED` of `v_flag`. -/
structure Vnode where
  changed : Bool
  count : Nat
  dev : Int
  offset : Int
  no : Int
  parent : Nat
  data : Bytes

structure FileTableEntry where
  refCount : Int
  flags : Nat
  size : Nat
  curPosition : Nat
  vn : Nat

/-- `struct files_info`: the directories and descriptors of a process. -/
structure FilesInfo where
  rootDir : Nat
  currentDir : Nat
  fhandles : Nat → Int

/-- The disk as the buffer cache shows it, and the allocation table. `platter` is what the disk itself
    holds, and `faulty` where it reports an error. A block that is `faulty` can be read as long as the
    cache has a buffer of it; if not, it is `unreadable`. -/
structure Volume where
  fat : FatTable
  disk : Nat → Bytes
  unreadable : Nat → Bool
  platter : Nat → Bytes
  faulty : Nat → Bool

/-- The file system's globals. `nextVnode` is the address of the next vnode, if `kmalloc` gives
    one (`noMem`); `time` and `date` are what the clock shows; `junk` is what the stack holds
    where a local is read before it was set. -/
structure Fs extends Volume where
  vnodes : Nat → Vnode
  vnlist : Nat → List Nat
  nextVnode : Nat
  noMem : Nat → Bool
  openFileTable : Nat → FileTableEntry
  procs : Nat → FilesInfo
  time : Nat
  date : Nat
  junk : Bytes
  nullDev : Int

/-- A value of `short`, `int` or `char *` an operation returns on failure. -/
def ediskRead : Int := -33
def enoFreeFileTableSlot : Int := -35
def edirEntryNotFound : Int := -37
def edirFull : Int := -38
def eduplicateEntry : Int := -39
def edirNotEmpty : Int := -40
def enoDiskSpace : Int := -41
def enotADirectory : Int := -42
def einvalidName : Int := -50
def einvalidOffset : Int := -112

def Fs.setVnode (s : Fs) (p : Nat) (v : Vnode) : Fs :=
  { s with vnodes := fun q => if q = p then v else s.vnodes q }

/-- A block is written in its buffer. From then on it is read from there, also if it lies behind the
    disk. -/
def Fs.setSector (s : Fs) (b : Nat) (data : Bytes) : Fs :=
  { s with
    disk := fun c => if c = b then data else s.disk c
    unreadable := fun c => if c = b then false else s.unreadable c }

/-- `bread` of the block of a cluster; `none` if it is not in the cache and the disk reports an error. -/
def Volume.bread (s : Volume) (cluster : Int) : Option Bytes :=
  let b := u32 (cluster + 31)
  if s.unreadable b then none else some (s.disk b)

/-- The buffer of a block is thrown away. -/
def Fs.dropSector (s : Fs) (b : Nat) : Fs :=
  { s with
    disk := fun c => if c = b then s.platter b else s.disk c
    unreadable := fun c => if c = b then s.faulty b else s.unreadable c }

/-- The block of a cluster was changed in its buffer, or written as a whole. -/
def Fs.writeCluster (s : Fs) (cluster : Int) (data : Bytes) : Fs :=
  s.setSector (u32 (cluster + 31)) data

def vnode (p : Nat) : Prog Fs Vnode := do
  if p = 0 then stuck
  else return (← get).vnodes p

def setVnode (p : Nat) (v : Vnode) : Prog Fs Unit := modify fun s => s.setVnode p v

def setFat (fat : FatTable) : Prog Fs Unit := modify fun s => { s with fat := fat }

/-- `vn->v_count += k`. -/
def addCount (p : Nat) (k : Int) : Prog Fs Unit := do
  let v ← vnode p
  setVnode p { v with count := ((v.count + k) % 65536).toNat }

/-- `mark_time_date(dvn->v_data); dvn->v_flag |= FTFLAGS_CHANGED`. -/
def markChanged (p : Nat) : Prog Fs Unit := do
  let s ← get
  let v ← vnode p
  setVnode p { v with data := Dirent.mark v.data s.time s.date, changed := true }

/-! ## Directories on disk -/

/-- A loop over the slots of a block, from byte `pos` on: the first slot that meets the
    condition, or a position behind the block. -/
def scanSlots (stop : Bytes → Bool) (buff : Bytes) : Nat → Nat → Nat
  | 0, pos => pos
  | fuel + 1, pos =>
    if pos < 512 then if stop (buff.skip pos) then pos else scanSlots stop buff fuel (pos + 32)
    else pos

/-- The first slot of a block that meets the condition. -/
def findSlot (stop : Bytes → Bool) (buff : Bytes) : Option Nat :=
  let pos := scanSlots stop buff 16 0
  if pos < 512 then some pos else none

/-- The loop of `add_dir_entry`, at cluster `cur`. -/
def addDirEntryFrom (dvn : Nat) (dent : Bytes) : Nat → Int → Prog Fs Int
  | 0, _ => stuck
  | fuel + 1, cur => do
    let s ← get
    match s.bread cur with
    | none => return ediskRead
    | some buff =>
      match findSlot Dirent.unused buff with
      | some pos =>
        modify fun s => s.writeCluster cur (buff.copy pos 32 dent)
        markChanged dvn
        return 1
      | none =>
        let next := stepCluster s.fat cur
        if 0xff8 ≤ next then
          if 2 ≤ cur then
            -- Allocate a new cluster for more entries
            let (cl, fat) := allocBlock12 s.fat
            if cl = 0 then return enoDiskSpace
            else
              setFat (setClval12 fat cur cl)
              modify fun s => s.writeCluster cl (Bytes.zero.copy 0 32 dent)
              markChanged dvn
              return 1
          else return edirFull
        else addDirEntryFrom dvn dent fuel next

def addDirEntry (dvn : Nat) (dent : Bytes) : Prog Fs Int := do
  let v ← vnode dvn
  addDirEntryFrom dvn dent chainFuel (Dirent.startCluster v.data)

/-- The loop of `delete_dir_entry`, at cluster `cur`. A cluster that is not of the root directory
    and holds no more entries leaves the chain, and its buffer is thrown away. -/
def deleteDirEntryFrom (dvn : Nat) (name : Bytes) : Nat → Int → Prog Fs Int
  | 0, _ => stuck
  | fuel + 1, cur => do
    let s ← get
    match s.bread cur with
    | none => return ediskRead
    | some buff =>
      match findSlot (fun d => sameName d name) buff with
      | some pos =>
        let buff := buff.put pos 0xE5
        if 2 ≤ cur ∧ findSlot (fun d => !Dirent.unused d) buff = none then
          let v ← vnode dvn
          match deleteClusterFromChain s.fat (Dirent.startCluster v.data) cur with
          | none => stuck
          | some fat =>
            setFat fat
            modify fun s => s.dropSector (u32 (cur + 31))
        else modify fun s => s.writeCluster cur buff
        markChanged dvn
        return 1
      | none =>
        let next := stepCluster s.fat cur
        if 0xff8 ≤ next then return edirEntryNotFound
        else deleteDirEntryFrom dvn name fuel next

def deleteDirEntry (dvn : Nat) (name : Bytes) : Prog Fs Int := do
  let v ← vnode dvn
  deleteDirEntryFrom dvn name chainFuel (Dirent.startCluster v.data)

/-- The loop of `update_dir_entry`, at cluster `cur`. -/
def updateDirEntryFrom (dent : Bytes) : Nat → Int → Prog Fs Int
  | 0, _ => stuck
  | fuel + 1, cur => do
    let s ← get
    match s.bread cur with
    | none => return ediskRead
    | some buff =>
      match findSlot (fun d => sameName d dent) buff with
      | some pos =>
        modify fun s => s.writeCluster cur (buff.copy pos 32 dent)
        return 1
      | none =>
        let next := stepCluster s.fat cur
        if 0xff8 ≤ next then return edirEntryNotFound else updateDirEntryFrom dent fuel next

def updateDirEntry (dvn : Nat) (dent : Bytes) : Prog Fs Int := do
  let v ← vnode dvn
  updateDirEntryFrom dent chainFuel (Dirent.startCluster v.data)

/-- What `fat12_vop_readdir` hands out: `d_ino`, `d_off` and the entry itself. -/
structure ReadEntry where
  ino : Int
  off : Nat
  dent : Bytes

/-- The first loop of `fat12_vop_readdir`: `i` clusters on, stopping at the end of the chain. The
    number of steps not taken comes with the cluster. -/
def seekCluster (fat : FatTable) : Nat → Int → Nat × Int
  | 0, cur => (0, cur)
  | i + 1, cur =>
    let next := stepCluster fat cur
    if 0xff8 ≤ next then (i, next) else seekCluster fat i next

/-- A slot `fat12_vop_readdir` passes over: unused, deleted, or part of a long name. -/
def skipped (d : Bytes) : Bool := Dirent.unused d || d 11 == 0x0f

/-- The second loop of `fat12_vop_readdir`. -/
def readdirFrom (s : Volume) : Nat → Int → Nat → Nat → Option (Except Int ReadEntry)
  | 0, _, _, _ => none
  | fuel + 1, cur, pos, offset =>
    match s.bread cur with
    | none => some (.error ediskRead)
    | some buff =>
      let found := scanSlots (fun d => !skipped d) buff 16 pos
      let offset := offset + (found - pos)
      if found < 512 then
        let dent := buff.skip found
        let copied := if dent 0 = 0x05 then dent.put 0 0xE5 else dent
        some (.ok ⟨Dirent.startCluster dent, offset, copied⟩)
      else
        let next := stepCluster s.fat cur
        if 0xff8 ≤ next then some (.error edirEntryNotFound)
        else readdirFrom s fuel next 0 offset

/-- `fat12_vop_readdir`: the first entry at or behind `offset` of the directory whose vnode holds
    `dent`. It changes nothing. -/
def fat12VopReaddir (s : Volume) (dent : Bytes) (offset : Nat) : Option (Except Int ReadEntry) :=
  let (left, cur) := seekCluster s.fat (offset / 512) (Dirent.startCluster dent)
  if 0 < left then some (.error einvalidOffset)
  else readdirFrom s chainFuel cur (offset % 512) offset

/-! ## The vnode table -/

def vnodeHashMax : Nat := 19

def vnodeHash (no : Int) : Nat := no.natAbs % vnodeHashMax

def vnodeAddHashlist (p : Nat) (no : Int) : Prog Fs Unit :=
  modify fun s => { s with
    vnlist := fun h => if h = vnodeHash no then p :: s.vnlist h else s.vnlist h }

def vnodeDelHashlist (p : Nat) (no : Int) : Prog Fs Unit :=
  modify fun s => { s with
    vnlist := fun h => if h = vnodeHash no then (s.vnlist h).erase p else s.vnlist h }

/-- The test of `alloc_vnode`: is this the vnode of that key? -/
def Vnode.hasKey (v : Vnode) (dev no : Int) (parent : Nat) (offset : Int) : Bool :=
  v.dev == dev && v.no == no && v.parent == parent && v.offset == offset

/-- `alloc_vnode`: the vnode with this key, one more time, or a new one; 0 if there is no memory
    for it. A new one's flags and data are what the memory held. -/
def allocVnode (dev no : Int) (pvn : Nat) (offset : Int) : Prog Fs Nat := do
  let s ← get
  match (s.vnlist (vnodeHash no)).find? fun p => (s.vnodes p).hasKey dev no pvn offset with
  | some p =>
    addCount p 1
    return p
  | none =>
    let p := s.nextVnode
    modify fun s => { s with nextVnode := p + 1 }
    if s.noMem p then return 0
    else
      setVnode p { s.vnodes p with dev := dev, no := no, parent := pvn, offset := offset, count := 0 }
      vnodeAddHashlist p no
      addCount p 1
      return p

def getVnode (p : Nat) : Prog Fs Unit := addCount p 1

def getPdir (p : Nat) : Prog Fs Nat := do
  let v ← vnode p
  getVnode v.parent
  return v.parent

/-- `fat12_vop_destroy`, as far as an unsigned count lets it go. -/
def fat12VopDestroy (p : Nat) : Prog Fs Unit := do
  let v ← vnode p
  if v.changed then
    let _ ← updateDirEntry v.parent v.data
    return
  else return

/-- `release_vnode`, with the recursion to the parent. -/
def releaseVnodeFrom : Nat → Nat → Prog Fs Unit
  | 0, _ => stuck
  | fuel + 1, p => do
    addCount p (-1)
    let v ← vnode p
    if v.count = 0 then
      fat12VopDestroy p
      if v.parent ≠ 0 then
        -- Reduce parent ref count
        getVnode v.parent
        addCount v.parent (-1)
        releaseVnodeFrom fuel v.parent
      else return
    else return

/-- `release_vnode`. A vnode is younger than its parent, so the recursion is not deeper than there
    are vnodes. -/
def releaseVnode (p : Nat) : Prog Fs Unit := do
  let s ← get
  releaseVnodeFrom (s.nextVnode + 1) p

/-! ## Looking up and creating -/

/-- The loop of `fat12_vop_lookup` over the entries of a directory, from `offset` on. -/
def findEntry (s : Volume) (dent : Bytes) (fname : Bytes) : Nat → Nat → Option (Option ReadEntry)
  | 0, _ => none
  | fuel + 1, offset =>
    match fat12VopReaddir s dent offset with
    | none => none
    | some (.error _) => some none
    | some (.ok e) =>
      if sameName e.dent fname then some (some e) else findEntry s dent fname fuel (e.off + 32)

/-- More slots than any chain has. -/
def slotFuel : Nat := 70000

def nameDot : List Nat := [46]
def nameDotDot : List Nat := [46, 46]

/-- `fat12_vop_lookup`; 0 is `NULL`. -/
def fat12VopLookup (dvn : Nat) (name : List Nat) : Prog Fs Nat := do
  if name = nameDot then
    getVnode dvn
    addCount dvn 1
    return dvn
  else if name = nameDotDot then getPdir dvn
  else
    match convertName name with
    | none => return 0
    | some fname =>
      let s ← get
      let dv ← vnode dvn
      match findEntry s.toVolume dv.data (Bytes.ofList fname) slotFuel 0 with
      | none => stuck
      | some none => return 0
      | some (some e) =>
        let p ← allocVnode dv.dev e.ino dvn e.off
        if p = 0 then return 0
        else
          let v ← vnode p
          -- If this is a new vnode then initialize the fields
          if v.count = 1 then
            setVnode p { v with changed := false, data := e.dent }
          return p

/-- The entry `fat12_vop_create` makes. -/
def newDirent (s : Fs) (name : List Nat) (mode : Nat) : Bytes :=
  let mode := mode % 64
  -- `mode & ~(FTYPE_DIR | FTYPE_VOLUME)`
  let attrib := if mode = 0 then 0x20 else mode - (mode / 8 % 4) * 8
  let d := (Bytes.zero.copy 0 11 (Bytes.ofList name)).put 11 attrib
  Dirent.setFsize (Dirent.setStart (Dirent.mark d s.time s.date) 0) 0

/-- `fat12_vop_create`. The result of `add_dir_entry`, which is 1, is taken for the offset of the
    new entry. -/
def fat12VopCreate (dvn : Nat) (fname : List Nat) (mode : Nat) : Prog Fs Nat := do
  match convertName fname with
  | none => return 0
  | some name =>
    let s ← get
    let dent := newDirent s name mode
    let offset ← addDirEntry dvn dent
    if offset < 0 then return 0
    else
      let dv ← vnode dvn
      let p ← allocVnode dv.dev 0 dvn offset
      if p = 0 then return 0
      else
        let v ← vnode p
        setVnode p { v with changed := false, data := dent }
        return p

/-! ## Files -/

def fat12VopTrunc (p : Nat) : Prog Fs Unit := do
  let v ← vnode p
  let s ← get
  if Dirent.fsize v.data ≠ 0 then
    match freeClusterChain s.fat (Dirent.startCluster v.data) with
    | none => stuck
    | some fat => setFat fat
  setVnode p { v with
    data := Dirent.mark (Dirent.setFsize (Dirent.setStart v.data 0) 0) s.time s.date }

def fat12VopRemove (p : Nat) : Prog Fs Int := do
  let v ← vnode p
  let s ← get
  match freeClusterChain s.fat (Dirent.startCluster v.data) with
  | none => stuck
  | some fat =>
    setFat fat
    let _ ← deleteDirEntry v.parent v.data
    return 0

/-- The cluster `i` steps behind the first, as `fat12_vop_read` walks. -/
def clusterAt (fat : FatTable) : Nat → Int → Int
  | 0, cur => cur
  | i + 1, cur => clusterAt fat i (stepCluster fat cur)

/-- The cluster `i` steps behind the first, as `fat12_vop_write` walks. -/
def clusterAt16 (fat : FatTable) : Nat → Nat → Nat
  | 0, cur => cur
  | i + 1, cur => clusterAt16 fat i (stepCluster16 fat cur)

/-- The loop of `fat12_vop_read`: `n` bytes from `offset` on. The bytes read so far come with the
    result. -/
def readLoop (s : Fs) (start : Int) : Nat → Int → Int → List Nat → Int × List Nat
  | 0, _, offset, acc => (offset, acc)
  | fuel + 1, n, offset, acc =>
    if n ≤ 0 then (offset, acc)
    else
      match s.bread (clusterAt s.fat (offset.tdiv 512).toNat start) with
      | none => (ediskRead, acc)
      | some buff =>
        let k := min (512 - offset.tmod 512) n
        let bytes := (List.range k.toNat).map (buff.skip (offset.tmod 512).toNat)
        readLoop s start fuel (n - k) (offset + k) (acc ++ bytes)

/-- `fat12_vop_read`: the new offset or an error, and the bytes. -/
def fat12VopRead (s : Fs) (p : Nat) (offset nb : Int) : Int × List Nat :=
  let d := (s.vnodes p).data
  let n := if Dirent.fsize d < u32 (offset + nb) then i32 (Dirent.fsize d - offset) else nb
  readLoop s (Dirent.startCluster d) n.toNat n offset []

/-- `if (offset > dent->fsize) dent->fsize = offset;`. -/
def growFile (p : Nat) (offset : Int) : Prog Fs Unit := do
  let v ← vnode p
  if Dirent.fsize v.data < u32 offset then
    setVnode p { v with data := Dirent.setFsize v.data (u32 offset) }
  else return

/-- The first cluster of an empty file: it changes the file's number, hence its hash list. -/
def firstCluster (p : Nat) : Prog Fs Nat := do
  let s ← get
  let v ← vnode p
  let (cl, fat) := allocBlock12 s.fat
  if cl = 0 then return 0
  else
    setFat fat
    vnodeDelHashlist p v.no
    setVnode p { v with data := Dirent.setStart v.data cl, no := cl }
    vnodeAddHashlist p cl
    return cl

/-- The cluster behind `cur`, a new one if `cur` is the last. -/
def followCluster (cur : Nat) : Prog Fs Nat := do
  let s ← get
  let next := nextCluster12 s.fat cur
  if 0xff8 ≤ next then
    let (cl, fat) := allocBlock12 s.fat
    if cl = 0 then return 0
    else
      setFat (setClval12 fat cur cl)
      return cl
  else return next

/-- The cluster for a block that starts at a multiple of the block size; `none` if the disk is
    full. -/
def clusterFor (p cur : Nat) : Prog Fs (Option Nat) := do
  let s ← get
  let v ← vnode p
  if Dirent.fsize v.data = 0 then
    let cl ← firstCluster p
    return if cl = 0 then none else some cl
  else
    let full := 0xff8 ≤ nextCluster12 s.fat cur
    let cl ← followCluster cur
    return if full ∧ cl = 0 then none else some cl

/-- The loop of `fat12_vop_write`. -/
def writeLoop (p : Nat) : Nat → Int → Int → Bytes → Prog Fs Int
  | 0, _, offset, _ => return offset
  | fuel + 1, n, offset, buf => do
    if n ≤ 0 then return offset
    else
      let s ← get
      let v ← vnode p
      let i := if offset.tmod 512 = 0 then offset.tdiv 512 - 1 else offset.tdiv 512
      let cur := clusterAt16 s.fat i.toNat (Dirent.startCluster v.data % 65536).toNat
      if offset.tmod 512 ≠ 0 then
        -- Current cluster is not full
        match s.bread cur with
        | none => return ediskRead
        | some buff =>
          let k := min (512 - offset.tmod 512) n
          modify fun s => s.writeCluster cur (buff.copy (offset.tmod 512).toNat k.toNat buf)
          growFile p (offset + k)
          writeLoop p fuel (n - k) (offset + k) (buf.skip k.toNat)
      else
        match ← clusterFor p cur with
        | none => return enoDiskSpace
        | some cl =>
          let s ← get
          if 512 ≤ n then
            modify fun s => s.writeCluster cl buf
            growFile p (offset + 512)
            writeLoop p fuel (n - 512) (offset + 512) (buf.skip 512)
          else
            match s.bread cl with
            | none => return ediskRead
            | some buff =>
              modify fun s => s.writeCluster cl (buff.copy 0 n.toNat buf)
              growFile p (offset + n)
              return offset + n

/-- `fat12_vop_write`: the new offset or an error. -/
def fat12VopWrite (p : Nat) (offset : Int) (buf : Bytes) (nb : Int) : Prog Fs Int := do
  let v ← vnode p
  setVnode p { v with changed := true }
  writeLoop p nb.toNat nb offset buf

/-! ## Directories -/

/-- The entry `make_dir` makes, with the bytes of the `dent` on its stack that it does not set. -/
def dirDirent (s : Fs) (name : List Nat) (cl : Nat) : Bytes :=
  let d := (s.junk.copy 0 11 (Bytes.ofList name)).put 11 ftypeDir
  Dirent.setFsize (Dirent.setStart (Dirent.mark d s.time s.date) cl) 0

def makeDir (dvn : Nat) (name : List Nat) : Prog Fs Int := do
  let s ← get
  let (cl, fat) := allocBlock12 s.fat
  if cl = 0 then return enoDiskSpace
  else
    setFat fat
    let dent := dirDirent s name cl
    let err ← addDirEntry dvn dent
    if err = 1 then
      let dv ← vnode dvn
      let dot := dent.copy 0 11 (Bytes.ofList (blankTo 11 nameDot))
      let dotDot := dv.data.copy 0 11 (Bytes.ofList (blankTo 11 nameDotDot))
      modify fun s => s.writeCluster cl ((Bytes.zero.copy 0 32 dot).copy 32 32 dotDot)
      return err
    else
      -- Release the previously allocated block
      modify fun s => { s with fat := setClval12 s.fat cl 0 }
      return err

def fat12VopMkdir (dvn : Nat) (dirname : List Nat) : Prog Fs Int := do
  match convertName dirname with
  | none => return -1
  | some name => makeDir dvn name

/-- `empty_dir12`. A directory that cannot be read counts as empty. -/
def emptyDir12 (s : Volume) (dent : Bytes) : Bool :=
  let start := Dirent.startCluster dent
  if nextCluster12 s.fat start < 0xff8 then false
  else
    match s.bread start with
    | none => true
    | some buff => 512 ≤ scanSlots (fun d => !Dirent.unused d) buff 14 64

/-- `rm_dir`: what is examined, and whose first cluster is freed, is the directory the entry is
    in. -/
def rmDir (dvn : Nat) (name : List Nat) : Prog Fs Int := do
  let s ← get
  let dv ← vnode dvn
  if Dirent.isDir dv.data then
    if emptyDir12 s.toVolume dv.data then
      setFat (setClval12 s.fat (Dirent.startCluster dv.data) 0)
      let _ ← deleteDirEntry dvn (Bytes.ofList name)
      return 1
    else return edirNotEmpty
  else return enotADirectory

def fat12VopRmdir (dvn : Nat) (dirname : List Nat) : Prog Fs Int := do
  match convertName dirname with
  | none => return -1
  | some name => rmDir dvn name

def fat12VopRename (svn ddvn : Nat) (nname : List Nat) : Prog Fs Int := do
  let v ← vnode svn
  match convertName nname with
  | none => return einvalidName
  | some name =>
    let err ← addDirEntry ddvn (v.data.copy 0 11 (Bytes.ofList name))
    if err < 0 then return err
    else
      let _ ← deleteDirEntry v.parent v.data
      return 0

end AtomOs
