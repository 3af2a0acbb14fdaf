import AtomOs.Lib.Linked
import AtomOs.Lib.Blocks
import AtomOs.Lib.Word

/-!
# The physical page allocator

`core_alloc` and `core_free` of `base/vmmap.c`. Free memory is a list of runs of 4 KiB
pages, and the list is threaded through the free memory itself: the first two words of a
run are its `free_mem_block`, the page count at offset 0 and the address of the next run
at offset 4. So the model has no list either. It has the words of physical memory and
`first_block`, and each function reads and writes words in the order the source does.

Every loop of the source follows `next_block` until `NULL`. The walks carry a fuel of one
step per page of the address space (`listFuel`); a function answers `none` only if such a
walk does not end. `AtomOs/Mem/CoreInv.lean` proves that none does.
-/

namespace AtomOs

open Lib

/-- Physical memory: the 32-bit word at each address. -/
abbrev Mem := Nat → Nat

def Mem.set (m : Mem) (a v : Nat) : Mem := fun x => if x = a then v else m x

@[simp] theorem Mem.set_same (m : Mem) (a v : Nat) : m.set a v a = v := by simp [Mem.set]

theorem Mem.set_ne {m : Mem} {a v x : Nat} (h : x ≠ a) : m.set a v x = m x := by
  simp [Mem.set, h]

theorem Mem.set_self (m : Mem) (a : Nat) : m.set a (m a) = m := by
  funext x
  by_cases h : x = a
  · rw [h, Mem.set_same]
  · rw [Mem.set_ne h]

/-- `struct core_header`: a run of pages handed out or given back. -/
structure CoreHeader where
  physAddr : Nat
  noBlocks : Nat
deriving DecidableEq, Repr

/-- `struct memory_map_descriptor`: one segment of the machine's memory map. -/
structure MemoryMapDescriptor where
  baseAddr : Nat
  length : Nat
  type : Nat
deriving DecidableEq, Repr

/-- The allocator's globals: memory, `first_block`, and the first `no_of_ram_segments`
    entries of `ram_segments`. -/
structure CoreState where
  mem : Mem
  firstBlock : Nat
  ramSegments : List MemoryMapDescriptor

def noPages (m : Mem) (t : Nat) : Nat := m t

def nextBlock (m : Mem) (t : Nat) : Nat := m (t + 4)

/-- There are `2 ^ 20` pages, so no list of them is longer. -/
def listFuel : Nat := 1048576

/-! ## Allocation -/

/-- What the scan of `core_alloc` carries from node to node: the best run so far, how many
    pages it has beyond the request, the node before it, and the node before the one being
    looked at. -/
structure Scan where
  baddr : Nat
  holeSize : Int
  t1 : Nat
  t2 : Nat

/-- One iteration of the scan, at node `t`. A run that is too short is replaced by any
    longer one; a run that is long enough only by a longer-than-requested one that leaves
    a smaller hole. The last comparison is between a `long` and an `unsigned`, hence
    unsigned. -/
def scanStep (m : Mem) (npages : Int) (acc : Scan) (t : Nat) : Scan :=
  let hole := i32 (noPages m t - npages)
  if acc.holeSize < 0 then
    if acc.holeSize < hole then ⟨t, hole, acc.t2, t⟩ else { acc with t2 := t }
  else if noPages m t > u32 npages ∧ u32 acc.holeSize > u32 (noPages m t - npages) then
    ⟨t, hole, acc.t2, t⟩
  else { acc with t2 := t }

/-- The pages the chosen run gives: all that were asked for, or the whole run. -/
def allocHeader (npages : Int) (best : Scan) : CoreHeader :=
  ⟨best.baddr, if 0 ≤ best.holeSize then u32 npages else u32 (npages + best.holeSize)⟩

/-- The update of the list once a run is chosen: unlink it, or leave its tail in place of
    it. -/
def allocUpdate (s : CoreState) (npages : Int) (best : Scan) : CoreState :=
  let t := best.baddr
  if best.holeSize ≤ 0 then
    -- Entire node must be deleted
    if t = s.firstBlock then { s with firstBlock := nextBlock s.mem t }
    else { s with mem := s.mem.set (best.t1 + 4) (nextBlock s.mem t) }
  else
    -- Just modify the node size
    let t2 := u32 (t + npages * 4096)
    let m := s.mem.set t2 (u32 best.holeSize)
    let m := m.set (t2 + 4) (nextBlock m t)
    if t = s.firstBlock then { s with mem := m, firstBlock := t2 }
    else { s with mem := m.set (best.t1 + 4) t2 }

/-- `core_alloc`: best fit; if no run is long enough, the longest one as it is. -/
def coreAlloc (s : CoreState) (npages : Int) : Option (CoreHeader × CoreState) :=
  if s.firstBlock = 0 then some (⟨0, 0⟩, s)
  else
    let first : Scan :=
      ⟨s.firstBlock, i32 (noPages s.mem s.firstBlock - npages), 0, s.firstBlock⟩
    match walk (nextBlock s.mem) 0 (scanStep s.mem npages) listFuel first
        (nextBlock s.mem s.firstBlock) with
    | none => none
    | some best => some (allocHeader npages best, allocUpdate s npages best)

/-! ## Release -/

/-- `is_valid_block`: the run is nonempty and starts in a usable segment, or right behind
    one. -/
def isValidBlock (segs : List MemoryMapDescriptor) (ch : CoreHeader) : Bool :=
  ch.noBlocks != 0 &&
    segs.any fun r =>
      r.type == 1 && decide (r.baseAddr ≤ ch.physAddr) &&
        decide (ch.physAddr ≤ u32 (r.baseAddr + r.length))

/-- `find_mem_block_before`: the last node below the run, `0` if there is none. -/
def findMemBlockBefore (s : CoreState) (ch : CoreHeader) : Option Nat :=
  (seek (nextBlock s.mem) (fun t => t == 0 || !decide (t < ch.physAddr)) listFuel 0
    s.firstBlock).map Prod.fst

/-- The run becomes the first node, joined with the old first node if they touch. -/
def freeAtFront (s : CoreState) (ch : CoreHeader) : CoreState :=
  let t2 := s.firstBlock
  let m := s.mem.set ch.physAddr ch.noBlocks
  if t2 ≠ 0 ∧ u32 (ch.physAddr + ch.noBlocks * 4096) = t2 then
    let m := m.set ch.physAddr (u32 (noPages m ch.physAddr + noPages m t2))
    { s with mem := m.set (ch.physAddr + 4) (nextBlock m t2), firstBlock := ch.physAddr }
  else { s with mem := m.set (ch.physAddr + 4) t2, firstBlock := ch.physAddr }

/-- The run goes in after node `t1`, joined with `t1`, with the node after it, with both,
    or with neither. -/
def freeAfter (s : CoreState) (ch : CoreHeader) (t1 : Nat) : CoreState :=
  let baddr := ch.physAddr
  let t2 := nextBlock s.mem t1
  if u32 (t1 + noPages s.mem t1 * 4096) = baddr then
    -- Adjacent to previous block
    let m := s.mem.set t1 (u32 (noPages s.mem t1 + ch.noBlocks))
    if t2 ≠ 0 ∧ u32 (t1 + noPages m t1 * 4096) = t2 then
      -- Adjacent to next block
      let m := m.set t1 (u32 (noPages m t1 + noPages m t2))
      { s with mem := m.set (t1 + 4) (nextBlock m t2) }
    else { s with mem := m }
  else if t2 ≠ 0 ∧ u32 (baddr + ch.noBlocks * 4096) = t2 then
    let m := s.mem.set (t1 + 4) baddr
    let m := m.set baddr (u32 (ch.noBlocks + noPages m t2))
    { s with mem := m.set (baddr + 4) (nextBlock m t2) }
  else
    -- Create a new node
    let m := s.mem.set (t1 + 4) baddr
    let m := m.set baddr ch.noBlocks
    { s with mem := m.set (baddr + 4) t2 }

def coreFree (s : CoreState) (ch : CoreHeader) : Option CoreState :=
  if isValidBlock s.ramSegments ch then
    match findMemBlockBefore s ch with
    | none => none
    | some t1 => some (if t1 = 0 then freeAtFront s ch else freeAfter s ch t1)
  else some s

end AtomOs
