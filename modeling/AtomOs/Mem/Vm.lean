import AtomOs.Mem.Kmalloc

/-!
# Address spaces

The regions of an address space and the page tables under them: `vm_addregion`, `vm_expandregion` and
`vm_shrinkregion` of `base/vmmap.c`, the functions under them, and the call `brk` over them.

The page directory, the page tables and the free list of pages are words of one memory, that of
`AtomOs/Mem/Core.lean`, because it is what the functions do to each other's words that matters: a frame
that is given back while an entry still leads to it, or a page table that the next `core_alloc` hands out
again, is a mistake that a model with page tables as finite maps could not make. The structures that the
functions get from `kmalloc` are not in that memory: regions, segments and the nodes of a segment's page
table list are records, found by the address `kmalloc` gave them. `AtomOs/Mem/KmallocRun.lean` shows that
such blocks lie apart from everything else, which is what makes the two ways of writing a state agree. A
read through a `NULL` node is a read of the record at 0, about which nothing is known.

Paging is off while the source works on tables, so table addresses are physical ones. Addresses and counts
are the source's unsigned 32-bit words: they are natural numbers here, and `u32` stands where a sum or a
difference may leave the range. Counts that the source keeps in an `int` go through `i32`.

The calls return `Option`. `none` is a call that does not come back: a walk that does not end, or a thread
that waits for a lock it holds. Of the locks only that matters here: `vm_expandregion` holds `vm_lock`, the
lock of the region and that of the segment until it returns. The walks that could go round for ever
(`expandTables`, `destroyTables`) have a bound on their rounds, which the theorems about them show to be
enough.

The loops are functions of their own, under the name of the function whose loop they are, so that the
modules behind this one can say once what a round keeps:

* `coreAllocFrom` takes frames in up to 32 runs, and gives all of them back if it fails;
* `mapRun` and `mapFrames` put frames under pages, and `expandTables` makes the page tables for them;
* `frameStep` collects frames into runs for `core_free`, for `vm_destroysegment` and `vm_shrinkregion`.
-/

namespace AtomOs

open Lib

/-! ## Structures -/

def enomem : Int := -2

def einvalidAddress : Int := -97

def segmentTypeCode : Nat := 1
def segmentTypeData : Nat := 2

/-- `struct memsegment`: the page tables made for a region. -/
structure MemSegment where
  shareCount : Nat
  npages : Nat
  pgtable : Nat
deriving DecidableEq, Repr

structure PageTableList where
  pgtable : Nat
  next : Nat
deriving DecidableEq, Repr

/-- `struct memregion`, with the address of its block. `segment` is the address of its
    segment, 0 for `NULL`. -/
structure MemRegion where
  ptr : Nat
  startAddr : Nat
  endAddr : Nat
  type : Nat
  segment : Nat
deriving DecidableEq, Repr

/-- One address space, with the memory and the kernel heap it lives in. `regions` is the list
    `vm_mregion`. -/
structure VmState where
  heap : HeapState
  segs : Nat → MemSegment
  ptls : Nat → PageTableList
  pgdir : Nat
  regions : List MemRegion

def VmState.mem (s : VmState) : Mem := s.heap.core.mem

def VmState.setCore (s : VmState) (core : CoreState) : VmState :=
  { s with heap := { s.heap with core := core } }

def VmState.put (s : VmState) (a v : Nat) : VmState := { s with heap := s.heap.put a v }

def VmState.setSeg (s : VmState) (p : Nat) (seg : MemSegment) : VmState :=
  { s with segs := fun q => if q = p then seg else s.segs q }

def VmState.setPtl (s : VmState) (p : Nat) (ptl : PageTableList) : VmState :=
  { s with ptls := fun q => if q = p then ptl else s.ptls q }

/-! ## Page directory and page table entries -/

/-- The upper 20 bits of an entry: `page_table_base_addr`, `page_base_addr`. -/
def entryBase (w : Nat) : Nat := w / 4096 % 1048576

def entryPresent (w : Nat) : Nat := w % 2

/-- `make_PDE` and `make_PTE`: all fields of an entry. Both set the same bits. -/
def makeEntry (addr avail rw present global : Nat) : Nat :=
  present % 2 + 2 * (rw % 2) + 4 * (if global = 1 then 0 else 1) + 8 + 16 + 256 * (global % 2) +
    512 * (avail % 8) + 4096 * (addr % 1048576)

/-- The page table of slot `pdind`, as an address; 0 if there is none. -/
def VmState.pageTable (s : VmState) (pdind : Nat) : Nat :=
  entryBase (s.mem (s.pgdir + 4 * pdind)) * 4096

/-- The slot of an address: its index in the page directory. -/
def pdIndex (a : Nat) : Nat := a / 4194304 % 1024

def ptIndex (a : Nat) : Nat := a / 4096 % 1024

/-! ## Taking and giving back frames -/

/-- The loops that give back what was taken so far, last first. -/
def coreFreeAll : CoreState → List CoreHeader → Option CoreState
  | s, [] => some s
  | s, ch :: chs =>
    match coreFree s ch with
    | none => none
    | some s => coreFreeAll s chs

/-- The loop of `core_alloc_n`, with room for `n` more headers and the ones taken so far, last
    first. -/
def coreAllocFrom : Nat → Int → List CoreHeader → CoreState →
    Option (Option (List CoreHeader) × CoreState)
  | n, pages, chs, s =>
    if pages ≤ 0 then some (some chs.reverse, s)
    else
      match n with
      | 0 => (coreFreeAll s chs).map fun s => (none, s)  -- Too many fragments
      | n + 1 =>
        match coreAlloc s pages with
        | none => none
        | some (ch, s) =>
          if ch.noBlocks = 0 then (coreFreeAll s chs).map fun s => (none, s)
          else coreAllocFrom n (i32 (pages - ch.noBlocks)) (ch :: chs) s

theorem coreAllocFrom_done (k : Nat) (acc : List CoreHeader) (s : CoreState) :
    coreAllocFrom k (0 : Nat) acc s = some (some acc.reverse, s) := by
  unfold coreAllocFrom
  rfl

/-- `core_alloc_n(npages, chs, 32)`: the headers taken, or `none` for `ENOMEM`. -/
def coreAllocN (s : CoreState) (npages : Int) : Option (Option (List CoreHeader) × CoreState) :=
  coreAllocFrom 32 npages [] s

/-- One page of the loops that map frames: the entry of the page `cur` is in, rounded
    upwards. -/
def mapPage (s : VmState) (rw cur phys : Nat) : VmState :=
  let page := u32 (cur + 4095)
  s.put (s.pageTable (pdIndex page) + 4 * ptIndex page) (makeEntry (phys / 4096) 0 rw 1 0)

/-- The inner loop: the `n` frames from `phys` on. -/
def mapRun (rw : Nat) : Nat → Nat → Nat → VmState → Nat × VmState
  | 0, _, cur, s => (cur, s)
  | n + 1, phys, cur, s =>
    mapRun rw n (u32 (phys + 4096)) (u32 (cur + 4096)) (mapPage s rw cur phys)

/-- The outer loop: the frames of all headers, from page `cur` on. -/
def mapFrames (rw : Nat) : List CoreHeader → Nat → VmState → VmState
  | [], _, s => s
  | ch :: chs, cur, s =>
    let r := mapRun rw ch.noBlocks ch.physAddr cur s
    mapFrames rw chs r.1 r.2

/-- What the loops that free frames carry: a run of adjacent frames not yet given back. Frames
    are numbered by the upper 20 bits of their address. -/
structure FrameRun where
  start : Nat
  prev : Nat
  n : Nat

/-- `core_free` of the run. -/
def FrameRun.release (r : FrameRun) (core : CoreState) : Option CoreState :=
  coreFree core ⟨u32 (r.start * 4096), r.n⟩

/-- One entry of such a loop. `prev_addr` stays at the first frame of the run, so no run gets
    longer than two frames. -/
def frameStep (core : CoreState) (r : FrameRun) (phys : Nat) : Option (CoreState × FrameRun) :=
  if phys = 0 then
    if r.start ≠ 0 then (r.release core).map fun core => (core, ⟨0, 0, 0⟩)
    else some (core, r)
  else if r.prev = 0 then some (core, ⟨phys, phys, 1⟩)
  else if r.prev + 1 = phys then some (core, { r with n := r.n + 1 })
  else (r.release core).map fun core => (core, ⟨phys, phys, 1⟩)

/-- The end of such a loop. -/
def frameEnd (core : CoreState) (r : FrameRun) : Option CoreState :=
  if 0 < r.n then r.release core else some core

/-! ## Segments -/

/-- The loop of `vm_destroysegment` over one page table, `n` entries from entry `j` on. -/
def freeTableFrames (pt : Nat) : Nat → Nat → CoreState → FrameRun → Option (CoreState × FrameRun)
  | 0, _, core, r => some (core, r)
  | n + 1, j, core, r =>
    match frameStep core r (entryBase (core.mem (pt + 4 * j))) with
    | none => none
    | some (core, r) => freeTableFrames pt n (j + 1) core r

/-- The loop of `vm_destroysegment` over the page tables of a segment. -/
def destroyTables : Nat → Nat → VmState → Option VmState
  | 0, _, _ => none
  | fuel + 1, ptl, s =>
    if ptl = 0 then some s
    else
      let node := s.ptls ptl
      match freeTableFrames node.pgtable 1024 0 s.heap.core ⟨0, 0, 0⟩ with
      | none => none
      | some (core, r) =>
        match frameEnd core r with
        | none => none
        | some core =>
          match coreFree core ⟨node.pgtable, 1⟩ with
          | none => none
          | some core =>
            match kfree { s.heap with core := core } ptl with
            | none => none
            | some heap => destroyTables fuel node.next { s with heap := heap }

/-- `vm_destroysegment`: frames, page tables and the segment itself are given back. The entries
    of the page directory stay as they are. -/
def vmDestroySegment (s : VmState) (mseg : Nat) : Option VmState :=
  match destroyTables nodeFuel (s.segs mseg).pgtable s with
  | none => none
  | some s => (kfree s.heap mseg).map fun heap => { s with heap := heap }

/-- `vm_getmemsegment`, for a region that has one. -/
def vmGetMemSegment (s : VmState) (mseg : Nat) : VmState :=
  let seg := s.segs mseg
  s.setSeg mseg { seg with shareCount := (seg.shareCount + 1) % 65536 }

def vmReleaseSegment (s : VmState) (mseg : Nat) : Option VmState :=
  let seg := s.segs mseg
  let count := (seg.shareCount + 65535) % 65536
  let s := s.setSeg mseg { seg with shareCount := count }
  if count = 0 then vmDestroySegment s mseg else some s

/-- A page table that was just made goes into the page directory and, between `ptl2` and
    `ptl1`, into the segment's list. -/
def linkTable (s : VmState) (mseg rw pdind table ptl ptl1 ptl2 : Nat) : VmState :=
  let s := { s with heap := zeroPage s.heap table }
  let s := s.put (s.pgdir + 4 * pdind) (makeEntry (table / 4096) 0 rw 1 0)
  let s := s.setPtl ptl ⟨table, ptl1⟩
  if ptl2 = 0 then s.setSeg mseg { s.segs mseg with pgtable := ptl }
  else s.setPtl ptl2 { s.ptls ptl2 with next := ptl }

/-- The loop of `vm_expandpagetables`, from `logicalStart` on. A region that reaches into the
    last slot makes `logicalStart` wrap, and the loop goes round for ever. -/
def expandTables (mseg rw logicalEnd : Nat) :
    Nat → Nat → Nat → Nat → VmState → Option (Int × VmState)
  | 0, _, _, _, _ => none
  | fuel + 1, ptl1, ptl2, logicalStart, s =>
    if logicalEnd < logicalStart then some (0, s)
    else
      let next := u32 (logicalStart + 0x00400000)
      if s.pageTable (pdIndex logicalStart) = 0 then
        -- Create a page table
        match coreAlloc s.heap.core 1 with
        | none => none
        | some (ch, core) =>
          if ch.noBlocks < 1 then some (enomem, s.setCore core)
          else
            match kmalloc { s.heap with core := core } 8 with
            | none => none
            | some (ptl, heap) =>
              if ptl = 0 then
                (coreFree heap.core ch).map fun core =>
                  (enomem, { s with heap := { heap with core := core } })
              else
                expandTables mseg rw logicalEnd fuel ptl1 ptl next
                  (linkTable { s with heap := heap } mseg rw (pdIndex logicalStart) ch.physAddr
                    ptl ptl1 ptl2)
      else expandTables mseg rw logicalEnd fuel (s.ptls ptl1).next ptl1 next s

/-- `vm_expandpagetables`. After 1024 rounds every slot has been seen, and none is empty. -/
def vmExpandPageTables (s : VmState) (mseg logicalStart logicalEnd rw : Nat) :
    Option (Int × VmState) :=
  expandTables mseg rw logicalEnd 1025 (s.segs mseg).pgtable 0
    (logicalStart / 4194304 * 4194304) s

/-- The `read_write` bit of a region's entries. -/
def regionRw (type : Nat) : Nat := if type = segmentTypeCode then 0 else 1

/-- `vm_creatememsegment` for the region `[startAddr, endAddr]`; 0 is `NULL`. That `kmalloc`
    gave nothing is printed but not acted upon. -/
def vmCreateMemSegment (s : VmState) (startAddr endAddr type : Nat) (memflag : Bool) :
    Option (Nat × VmState) :=
  match kmalloc s.heap 44 with
  | none => none
  | some (mseg, heap) =>
    let npages := u32 ((u32 (endAddr + 4095) / 4096 : Nat) - (startAddr / 4096 : Nat))
    let s := { s with heap := heap }.setSeg mseg ⟨1, npages, 0⟩
    match vmExpandPageTables s mseg startAddr endAddr (regionRw type) with
    | none => none
    | some (ret, s) =>
      if ret < 0 then (vmDestroySegment s mseg).map fun s => (0, s)
      else if memflag then
        match coreAllocN s.heap.core (i32 npages) with
        | none => none
        | some (none, core) => (vmDestroySegment (s.setCore core) mseg).map fun s => (0, s)
        | some (some chs, core) =>
          some (mseg, mapFrames (regionRw type) chs startAddr (s.setCore core))
      else some (mseg, s)

/-- `vm_creatememsegment` in a thread that holds the lock of the region: the call comes back only
    if it returns `NULL` before it takes that lock itself. -/
def vmCreateMemSegmentHeld (s : VmState) (startAddr endAddr type : Nat) : Option VmState :=
  match kmalloc s.heap 44 with
  | none => none
  | some (mseg, heap) =>
    let npages := u32 ((u32 (endAddr + 4095) / 4096 : Nat) - (startAddr / 4096 : Nat))
    let s := { s with heap := heap }.setSeg mseg ⟨1, npages, 0⟩
    match vmExpandPageTables s mseg startAddr endAddr (regionRw type) with
    | none => none
    | some (ret, s) => if ret < 0 then vmDestroySegment s mseg else none

/-! ## Regions -/

/-- Into the list, in front of the first region that does not start below it. -/
def insertRegion (mreg : MemRegion) : List MemRegion → List MemRegion
  | [] => [mreg]
  | r :: rs =>
    if r.startAddr < mreg.startAddr then r :: insertRegion mreg rs else mreg :: r :: rs

def vmAddRegion (s : VmState) (type lstart lend : Nat) (ptflag memflag : Bool) :
    Option (Int × VmState) :=
  match kmalloc s.heap 48 with
  | none => none
  | some (mreg, heap) =>
    let s := { s with heap := heap }
    if mreg = 0 then some (enomem, s)
    else if ptflag = false then
      some (0, { s with regions := insertRegion ⟨mreg, lstart, lend, type, 0⟩ s.regions })
    else
      match vmCreateMemSegment s lstart lend type memflag with
      | none => none
      | some (mseg, s) =>
        if mseg = 0 then
          (kfree s.heap mreg).map fun heap => (enomem, { s with heap := heap })
        else
          some (0, { s with regions := insertRegion ⟨mreg, lstart, lend, type, mseg⟩ s.regions })

/-- The search of `vm_expandregion` and `vm_shrinkregion`: what lies before the region that
    starts at `lstart`, the region, and what lies behind it. -/
def splitAtStart (lstart : Nat) :
    List MemRegion → Option (List MemRegion × MemRegion × List MemRegion)
  | [] => none
  | r :: rs =>
    if r.startAddr < lstart then
      (splitAtStart lstart rs).map fun (pre, mreg, post) => (r :: pre, mreg, post)
    else if r.startAddr = lstart then some ([], r, rs) else none

/-- The part of `vm_expandregion` that allocates memory, for a region that ended at `oend` and
    now ends at `endAddr`. -/
def expandFrames (s : VmState) (rw oend endAddr : Nat) : Option (Int × VmState) :=
  let np := u32 ((endAddr / 4096 * 4096 : Nat) - (oend / 4096 * 4096 : Nat)) / 4096
  if np = 0 then some (0, s)
  else
    match coreAllocN s.heap.core np with
    | none => none
    | some (none, core) => some (enomem, s.setCore core)
    | some (some chs, core) => some (0, mapFrames rw chs oend (s.setCore core))

/-- The part of `vm_expandregion` after the region's end was moved: page tables for the slots
    that are new, then frames. -/
def expandSegment (s : VmState) (mreg : MemRegion) (oend : Nat) (memflag : Bool) :
    Option (Int × VmState) :=
  let tables :=
    if oend / 4194304 ≠ mreg.endAddr / 4194304 then  -- In different 4 MB regions
      vmExpandPageTables s mreg.segment mreg.startAddr mreg.endAddr (regionRw mreg.type)
    else some (0, s)
  match tables with
  | none => none
  | some (ret, s) =>
    if ret < 0 then some (enomem, s)
    else if memflag then expandFrames s (regionRw mreg.type) oend mreg.endAddr
    else some (0, s)

/-- `vm_expandregion`. A region without a segment would get one, but the lock of the region is
    held when `vm_creatememsegment` is called. -/
def vmExpandRegion (s : VmState) (lstart size : Nat) (pgflag memflag : Bool) :
    Option (Int × VmState) :=
  match splitAtStart lstart s.regions with
  | none => some (-1, s)
  | some (pre, mreg, post) =>
    -- Is it overlapping with next region?
    if post.head?.any (fun next => decide (next.startAddr ≤ u32 (mreg.endAddr + size))) then
      some (-1, s)
    else
      let mreg' := { mreg with endAddr := u32 (mreg.endAddr + size) }
      let s := { s with regions := pre ++ mreg' :: post }
      if pgflag || memflag then
        if mreg.segment = 0 then
          (vmCreateMemSegmentHeld s mreg'.startAddr mreg'.endAddr mreg.type).map fun s => (-1, s)
        else
          match expandSegment (vmGetMemSegment s mreg.segment) mreg' mreg.endAddr memflag with
          | none => none
          | some (ret, s) => (vmReleaseSegment s mreg.segment).map fun s => (ret, s)
      else some (0, s)

/-- The loop of `vm_shrinkregion`: `n` entries from the page at `cur` on, which is where the
    region used to end. -/
def shrinkFrames (s : VmState) : Nat → Nat → CoreState → FrameRun →
    Option (CoreState × FrameRun)
  | 0, _, core, r => some (core, r)
  | n + 1, cur, core, r =>
    let next := u32 (cur + 4096)
    let pt := (s.setCore core).pageTable (pdIndex cur)
    if pt = 0 then shrinkFrames s n next core r
    else
      match frameStep core r (entryBase (core.mem (pt + 4 * ptIndex cur))) with
      | none => none
      | some (core, r) => shrinkFrames s n next core r

/-- The body of `vm_shrinkregion` for a region with a segment. -/
def shrinkSegment (s : VmState) (mseg np oend : Nat) : Option VmState :=
  let cur := u32 (oend + 4095) / 4096 * 4096
  match shrinkFrames s np cur s.heap.core ⟨0, 0, 0⟩ with
  | none => none
  | some (core, r) =>
    match frameEnd core r with
    | none => none
    | some core =>
      let seg := s.segs mseg
      some ((s.setCore core).setSeg mseg { seg with npages := u32 ((seg.npages : Int) - np) })

/-- `vm_shrinkregion`. It releases the segment also if there is none, through `NULL`. -/
def vmShrinkRegion (s : VmState) (lstart size : Nat) : Option (Int × VmState) :=
  match splitAtStart lstart s.regions with
  | none => some (-1, s)
  | some (pre, mreg, post) =>
    let oend := mreg.endAddr
    let endAddr := u32 ((oend : Int) - size)
    let s := { s with regions := pre ++ { mreg with endAddr := endAddr } :: post }
    let np := u32 ((oend / 4096 * 4096 : Nat) - (endAddr / 4096 * 4096 : Nat)) / 4096
    if mreg.segment = 0 then none
    else
      let s := vmGetMemSegment s mreg.segment
      match if 0 < np then shrinkSegment s mreg.segment np oend else some s with
      | none => none
      | some s => (vmReleaseSegment s mreg.segment).map fun s => (0, s)

/-! ## Calls -/

/-- `syscall_brk`; `none` also for a process without a data region. The end of the data region
    is returned as it is for `NULL`. -/
def syscallBrk (s : VmState) (endDataAddr : Nat) : Option (Int × VmState) :=
  match s.regions.find? fun r => r.type == segmentTypeData with
  | none => none
  | some ureg =>
    if endDataAddr = 0 then some (i32 ureg.endAddr, s)
    else if endDataAddr < ureg.startAddr then some (einvalidAddress, s)
    else
      let diffsize := i32 ((ureg.endAddr : Int) - endDataAddr)
      let result :=
        if diffsize < 0 then vmExpandRegion s ureg.startAddr (u32 (-diffsize)) true true
        else vmShrinkRegion s ureg.startAddr (u32 diffsize)
      result.map fun (ret, s) => (if ret = 0 then 0 else enomem, s)

end AtomOs
