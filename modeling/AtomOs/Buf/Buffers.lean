import AtomOs.Lib.Prog
import AtomOs.Lib.DList

/-!
# The buffer cache

The buffers of `base/fs.c`, for one thread: 30 headers, each on one of seven hash queues, and, while
nobody holds it, on the free list, which is kept in the order of release. A pointer to a header is
its index, or `none` for `NULL`. What a block holds is opaque to the cache, so it is a parameter.

* A store through `NULL` goes to low memory and changes no header.
* A thread that waits for a buffer it holds itself, or for any buffer while it holds all of them,
  waits forever. So does one that follows a queue that has become circular. Both are `stuck`.
* `enqueue_floppy_request` gives a request of no device, so there is one disk. Reading it may fail;
  what the buffer holds then is anything.
-/

namespace AtomOs

open Lib Prog

def maxBuffers : Nat := 30

def buffHashNumber : Nat := 7

/-- `struct buffer_header`, with the bits of `flags`: `BUFF_BUSY`, `BUFF_DATAVALID`,
    `BUFF_WRITEDELAY`. -/
structure Buffer (β : Type) where
  blockno : Nat
  device : Nat
  hashNext : Option Nat
  hashPrev : Option Nat
  freeNext : Option Nat
  freePrev : Option Nat
  writeNext : Option Nat
  busy : Bool
  valid : Bool
  delay : Bool
  ioStatus : Int
  buff : β

/-- The headers, the queues, and the disk. -/
structure Cache (β : Type) where
  buffers : Nat → Buffer β
  hashQueue : Nat → Option Nat
  freeHead : Option Nat
  freeTail : Option Nat
  writeHead : Option Nat
  writeTail : Option Nat
  disk : Nat → β

/-- The statuses of a request that has failed: a block number behind the end of the disk, and
    `FDC_ERROR`, `FDC_NODISK`, `FDC_TIMEOUT`. -/
inductive FdcStatus where
  | range
  | error
  | noDisk
  | timeout

def FdcStatus.code : FdcStatus → Int
  | .range => -1
  | .error => -30
  | .noDisk => -31
  | .timeout => -32

/-- What becomes of a request to read: done, or failed with something in the buffer. -/
inductive Outcome (β : Type) where
  | done
  | failed (status : FdcStatus) (junk : β)

section functions

variable {β : Type}

/-- A change to the header `p` points to. -/
def Cache.upd (c : Cache β) (p : Option Nat) (f : Buffer β → Buffer β) : Cache β :=
  { c with buffers := fun i => if some i = p then f (c.buffers i) else c.buffers i }

def Cache.setQueue (c : Cache β) (hash : Nat) (p : Option Nat) : Cache β :=
  { c with hashQueue := fun h => if h = hash then p else c.hashQueue h }

/-- `initialize_buffer_cache`, for headers in zeroed memory. -/
def initializeBufferCache (blank : β) (disk : Nat → β) : Cache β where
  buffers i := {
    blockno := 0, device := 0, hashNext := none, hashPrev := none
    freeNext := if i < maxBuffers - 1 then some (i + 1) else none
    freePrev := if 0 < i then some (i - 1) else none
    writeNext := none, busy := false, valid := false, delay := false, ioStatus := 0, buff := blank }
  hashQueue _ := none
  freeHead := some 0
  freeTail := some (maxBuffers - 1)
  writeHead := none
  writeTail := none
  disk := disk

/-! ## Queues -/

def enqueueToHashlist (c : Cache β) (hash b : Nat) : Cache β :=
  let first := c.hashQueue hash
  let c := c.upd (some b) fun h => { h with hashNext := first, hashPrev := none }
  let c := c.upd first fun h => { h with hashPrev := some b }
  c.setQueue hash (some b)

/-- `delete_from_hashlist`. A header with no neighbours is taken for one that is not on a queue. -/
def deleteFromHashlist (c : Cache β) (hash b : Nat) : Cache β :=
  let n := (c.buffers b).hashNext
  let p := (c.buffers b).hashPrev
  if p = none ∧ n = none then c
  else
    let c := if p ≠ none then c.upd p fun h => { h with hashNext := n } else c.setQueue hash n
    c.upd n fun h => { h with hashPrev := p }

def deleteFromFreelist (c : Cache β) (b : Nat) : Cache β :=
  let n := (c.buffers b).freeNext
  let p := (c.buffers b).freePrev
  let c := if c.freeHead ≠ some b then c.upd p fun h => { h with freeNext := n }
    else { c with freeHead := n }
  if c.freeTail ≠ some b then c.upd n fun h => { h with freePrev := p }
  else { c with freeTail := p }

def appendToFreelist (c : Cache β) (b : Nat) : Cache β :=
  let tail := c.freeTail
  let c := c.upd (some b) fun h => { h with freeNext := none, freePrev := tail }
  let c := if tail ≠ none then c.upd tail fun h => { h with freeNext := some b }
    else { c with freeHead := some b }
  { c with freeTail := some b }

/-- `prepend_to_freelist`. The tail of a list that was empty stays `NULL`. -/
def prependToFreelist (c : Cache β) (b : Nat) : Cache β :=
  let head := c.freeHead
  let c := c.upd (some b) fun h => { h with freeNext := head, freePrev := none }
  let c := c.upd head fun h => { h with freePrev := some b }
  { c with freeHead := some b }

/-- `append_to_write_queue`. The tail stays at the first header of the queue. -/
def appendToWriteQueue (c : Cache β) (b : Nat) : Cache β :=
  let c := c.upd (some b) fun h => { h with writeNext := none }
  if c.writeTail ≠ none then c.upd c.writeTail fun h => { h with writeNext := some b }
  else { c with writeHead := some b, writeTail := some b }

/-! ## Getting and releasing buffers -/

/-- The search of `getblk` along a hash queue. A search that has not ended after as many steps as
    there are headers does not end. -/
def searchQueue (c : Cache β) (device blockno : Nat) : Nat → Option Nat → Option (Option Nat)
  | _, none => some none
  | 0, some _ => none
  | fuel + 1, some b =>
    if (c.buffers b).device = device ∧ (c.buffers b).blockno = blockno then some (some b)
    else searchQueue c device blockno fuel (c.buffers b).hashNext

/-- The header for a block that is in the cache. -/
def lookupBlock (c : Cache β) (device blockno : Nat) : Option (Option Nat) :=
  searchQueue c device blockno maxBuffers (c.hashQueue (blockno % buffHashNumber))

/-- The loop of `getblk`. It goes round again whenever it has moved a header with delayed data to
    the write queue, which it can do once for each. -/
def getblkFrom (device blockno : Nat) : Nat → Prog (Cache β) Nat
  | 0 => stuck
  | fuel + 1 => do
    let c ← get
    match lookupBlock c device blockno with
    | none => stuck
    | some (some b) =>
      if (c.buffers b).busy then stuck
      else
        -- block found and not busy so allocate it.
        set (deleteFromFreelist (c.upd (some b) fun h => { h with busy := true }) b)
        return b
    | some none =>
      match c.freeHead with
      | none => stuck
      | some b =>
        let c := deleteFromFreelist c b
        if (c.buffers b).delay then
          set (appendToWriteQueue c b)
          getblkFrom device blockno fuel
        else
          -- Remove from old hash and add to new hash.
          let c := deleteFromHashlist c ((c.buffers b).blockno % buffHashNumber) b
          let c := c.upd (some b) fun h =>
            { h with blockno := blockno, device := device, busy := true, valid := false }
          set (enqueueToHashlist c (blockno % buffHashNumber) b)
          return b

def getblk (device blockno : Nat) : Prog (Cache β) Nat := getblkFrom device blockno (maxBuffers + 1)

def brelease (b : Nat) : Prog (Cache β) Unit := modify fun c =>
  let c := if (c.buffers b).valid then appendToFreelist c b else prependToFreelist c b
  c.upd (some b) fun h => { h with busy := false }

def bread (device blockno : Nat) (outcome : Outcome β) : Prog (Cache β) Nat := do
  let b ← getblk device blockno
  let c ← get
  if (c.buffers b).valid then return b
  else
    match outcome with
    | .done =>
      modify fun c => c.upd (some b) fun h =>
        { h with buff := c.disk blockno, valid := true, ioStatus := 0 }
      return b
    | .failed status junk =>
      modify fun c => c.upd (some b) fun h => { h with buff := junk, ioStatus := status.code }
      return b

/-- `read_block`: the data, or nothing if an error is reported. -/
def readBlock (device blk : Nat) (outcome : Outcome β) : Prog (Cache β) (Option β) := do
  let b ← bread device blk outcome
  let c ← get
  brelease b
  return if (c.buffers b).ioStatus ≠ 0 then none else some (c.buffers b).buff

def writeBlock (device blk : Nat) (data : β) : Prog (Cache β) Unit := do
  let b ← getblk device blk
  modify fun c => c.upd (some b) fun h => { h with buff := data, delay := true, valid := true }
  brelease b

/-- One header's delayed data goes to the disk. -/
def flushHeader (b : Nat) : Prog (Cache β) Unit := do
  let c ← get
  let b₃ ← getblk (c.buffers b).device (c.buffers b).blockno
  modify fun c => { c with
    disk := fun k => if k = (c.buffers b₃).blockno then (c.buffers b₃).buff else c.disk k }
  modify fun c => c.upd (some b₃) fun h => { h with delay := false }
  brelease b₃

/-- The first loop of `flush_buffers`, along the write queue. -/
def flushQueue : Nat → Option Nat → Prog (Cache β) Unit
  | _, none => return
  | 0, some _ => stuck
  | fuel + 1, some b => do
    flushHeader b
    let c ← get
    modify fun c => c.upd (some b) fun h => { h with writeNext := none }
    flushQueue fuel (c.buffers b).writeNext

/-- The second loop of `flush_buffers`, over the headers from `i` on. -/
def flushHeaders : Nat → Nat → Prog (Cache β) Unit
  | 0, _ => return
  | n + 1, i => do
    let c ← get
    if (c.buffers i).delay then flushHeader i
    flushHeaders n (i + 1)

/-- `flush_buffers`, if no write fails. -/
def flushBuffers : Prog (Cache β) Unit := do
  let c ← get
  modify fun c => { c with writeHead := none, writeTail := none }
  flushQueue (maxBuffers + 1) c.writeHead
  flushHeaders maxBuffers 0

end functions

/-! ## Runs -/

/-- What one thread does with the cache. `change` is the caller of `bread` that changes the buffer
    and sets `BUFF_WRITEDELAY`. -/
inductive CacheOp (β : Type) where
  | bread (blk : Nat) (outcome : Outcome β)
  | brelease (b : Nat)
  | change (b : Nat) (f : β → β)
  | readBlock (blk : Nat) (outcome : Outcome β)
  | writeBlock (blk : Nat) (data : β)
  | flush

inductive CacheResult (β : Type) where
  | unit
  | buffer (b : Nat)
  | data (data : Option β)
deriving DecidableEq

def floppy : Nat := 0

def CacheOp.run {β : Type} : CacheOp β → Prog (Cache β) (CacheResult β)
  | .bread blk outcome => do return .buffer (← AtomOs.bread floppy blk outcome)
  | .brelease b => do
    AtomOs.brelease b
    return .unit
  | .change b f => do
    modify fun c => c.upd (some b) fun h => { h with buff := f h.buff, delay := true }
    return .unit
  | .readBlock blk outcome => do return .data (← AtomOs.readBlock floppy blk outcome)
  | .writeBlock blk data => do
    AtomOs.writeBlock floppy blk data
    return .unit
  | .flush => do
    flushBuffers
    return .unit

end AtomOs
