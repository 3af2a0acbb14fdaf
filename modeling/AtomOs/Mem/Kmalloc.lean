import AtomOs.Mem.Core

/-!
# The kernel heap

`kmalloc` and `kfree` of `base/vmmap.c`, with the three functions under them. The heap hands
out byte ranges of the pages it takes from `core_alloc`. What is available and what is in use
is recorded in two linked lists of descriptors, `struct mem_list`: the start of the range, its
size, and the next descriptor, at offsets 0, 4 and 8. The descriptors are in pages of their
own, 341 to a page, and the last word of such a page is the address of the next one. A
descriptor that is not in use has size 0; there is no list of those.

As in `AtomOs/Mem/Core.lean` the model is the words of memory, and each function stores them in
the source's order. `none` is a walk that does not end.
-/

namespace AtomOs

open Lib

def mallocMax : Nat := 0x01000000

/-- Descriptors in a page: `(4096 - 4) / sizeof(struct mem_list)`. -/
def nodesPerPage : Nat := 341

/-- There are `2 ^ 32` addresses, so no list of descriptors is longer. -/
def nodeFuel : Nat := 4294967296

/-- The heap's globals, and the page allocator under it. -/
structure HeapState where
  core : CoreState
  kmmallocInfo : Nat
  kmavailList : Nat
  kmusedList : Nat
  kmcount : Int

def nodeAddr (m : Mem) (p : Nat) : Nat := m p

def nodeSize (m : Mem) (p : Nat) : Nat := m (p + 4)

def nodeNext (m : Mem) (p : Nat) : Nat := m (p + 8)

/-- The page after a page of descriptors. -/
def pageNext (m : Mem) (page : Nat) : Nat := m (page + 4092)

def HeapState.mem (s : HeapState) : Mem := s.core.mem

def HeapState.put (s : HeapState) (a v : Nat) : HeapState :=
  { s with core := { s.core with mem := s.core.mem.set a v } }

/-- The end of a descriptor's range, in 32-bit arithmetic. -/
def nodeFin (m : Mem) (p : Nat) : Nat := u32 ((nodeAddr m p : Int) + nodeSize m p)

/-- `p->size = 0; kmcount--;`: the descriptor is free again. -/
def dropNode (s : HeapState) (p : Nat) : HeapState :=
  { s.put (p + 4) 0 with kmcount := s.kmcount - 1 }

/-- `q` takes over the range of `p`, which lies right behind its own. -/
def growUp (s : HeapState) (q p : Nat) : HeapState :=
  s.put (q + 4) (u32 ((nodeSize s.mem q : Int) + nodeSize s.mem p))

/-- `q` takes over the range of `p`, which lies right in front of its own. -/
def growDown (s : HeapState) (q p : Nat) : HeapState :=
  let s := s.put q (nodeAddr s.mem p)
  s.put (q + 4) (u32 ((nodeSize s.mem q : Int) + nodeSize s.mem p))

/-- `insert_avail_node` for a list that is not empty and starts below `p`: the search for the
    first range that does not end below `p`, and the cases for it. -/
def insertInMiddle (s : HeapState) (p : Nat) : Option HeapState :=
  match seek (nodeNext s.mem)
      (fun q => q == 0 || !decide (nodeFin s.mem q < nodeAddr s.mem p)) nodeFuel 0
      s.kmavailList with
  | none => none
  | some (q2, q1) =>
    if q1 ≠ 0 then
      if nodeFin s.mem q1 = nodeAddr s.mem p then
        let s := dropNode (growUp s q1 p) p
        -- Look for next node
        let q2 := nodeNext s.mem q1
        if q2 ≠ 0 ∧ nodeFin s.mem q1 = nodeAddr s.mem q2 then
          let s := dropNode (growUp s q1 q2) q2
          some (s.put (q1 + 8) (nodeNext s.mem q2))
        else some s
      else if nodeFin s.mem p = nodeAddr s.mem q1 then some (dropNode (growDown s q1 p) p)
      else some ((s.put (p + 8) q1).put (q2 + 8) p)
    else some (s.put (q2 + 8) p)

/-- `insert_avail_node`: descriptor `p` joins the available list. It is dropped again if its
    range touches that of a neighbour, which then covers both. -/
def insertAvailNode (s : HeapState) (p : Nat) : Option HeapState :=
  let s := s.put (p + 8) 0
  let head := s.kmavailList
  if head = 0 then some { s with kmavailList := p }
  else if nodeAddr s.mem p < nodeAddr s.mem head then
    -- Insertion in the beginning
    if nodeFin s.mem p = nodeAddr s.mem head then some (dropNode (growDown s head p) p)
    else some { s.put (p + 8) head with kmavailList := p }
  else insertInMiddle s p

def deleteAvailNode (s : HeapState) (p : Nat) : Option HeapState :=
  let s := s.put (p + 4) 0
  if s.kmavailList = p then
    let s := { s with kmavailList := nodeNext s.mem s.kmavailList }
    some (s.put (p + 8) 0)
  else
    match seek (nodeNext s.mem) (fun q => q == 0 || nodeNext s.mem q == p) nodeFuel 0
        s.kmavailList with
    | none => none
    | some (_, q2) =>
      let s := if q2 ≠ 0 then s.put (q2 + 8) (nodeNext s.mem p) else s
      some (s.put (p + 8) 0)

/-- `bzero(page, 4096)`. -/
def zeroPage (s : HeapState) (page : Nat) : HeapState :=
  { s with core := { s.core with
      mem := fun a => if page ≤ a ∧ a < page + 4096 then 0 else s.core.mem a } }

/-- The inner loop of `create_mem_list_node`: the first of `n` descriptors from `p` on that
    has size 0. -/
def freeNodeFrom (m : Mem) : Nat → Nat → Option Nat
  | 0, _ => none
  | n + 1, p => if nodeSize m p = 0 then some p else freeNodeFrom m n (p + 12)

/-- The first part of `create_mem_list_node`: there is a page of descriptors, if one can be
    had. -/
def ensurePage (s : HeapState) : Option (Bool × HeapState) :=
  if s.kmmallocInfo = 0 then
    match coreAlloc s.core 1 with
    | none => none
    | some (chead, core) =>
      let s := { s with core := core }
      if chead.noBlocks < 1 then some (false, s)
      else some (true, zeroPage { s with kmmallocInfo := chead.physAddr } chead.physAddr)
  else some (true, s)

/-- The search for a free descriptor, page by page; a new page if there is none. -/
def searchPages (s : HeapState) : Option (Nat × HeapState) :=
  match seek (pageNext s.mem)
      (fun page => page == 0 || (freeNodeFrom s.mem nodesPerPage page).isSome) listFuel 0
      s.kmmallocInfo with
  | none => none
  | some (ptr2, ptr1) =>
    if ptr1 ≠ 0 then some ((freeNodeFrom s.mem nodesPerPage ptr1).getD 0, s)
    else
      match coreAlloc s.core 1 with
      | none => none
      | some (chead, core) =>
        let s := { s with core := core }
        if chead.noBlocks < 1 then some (0, s)
        else some (chead.physAddr, zeroPage (s.put (ptr2 + 4092) chead.physAddr) chead.physAddr)

/-- `create_mem_list_node`: a free descriptor, from a page there is or from a new one; `0`
    (`NULL`) if there is no page to be had. -/
def createMemListNode (s : HeapState) : Option (Nat × HeapState) :=
  match ensurePage s with
  | none => none
  | some (false, s) => some (0, s)
  | some (true, s) => searchPages s

/-- What the search of `kmalloc` carries: whether some range is large enough, the best one so
    far, and what it would leave over. `hole` starts as the bit pattern `0xefffffff`, and
    all comparisons with it are unsigned. -/
structure Best where
  avl : Bool
  p3 : Nat
  hole : Nat

def bestStep (m : Mem) (size : Nat) (acc : Best) (p : Nat) : Best :=
  if size ≤ nodeSize m p then
    if u32 ((nodeSize m p : Int) - size) < acc.hole then
      ⟨true, p, u32 ((nodeSize m p : Int) - size)⟩
    else { acc with avl := true }
  else acc

/-- The end of `kmalloc`: the descriptor goes to the used list, and its start is the result. -/
def giveOut (s : HeapState) (p3 : Nat) : Nat × HeapState :=
  let s := s.put (p3 + 8) s.kmusedList
  (nodeAddr s.mem p3, { s with kmusedList := p3 })

/-- Take `size` bytes of the range of `p1`: its front, under a new descriptor, or all of it. -/
def takeFrom (s : HeapState) (p1 size : Nat) : Option (Nat × HeapState) :=
  if p1 ≠ 0 ∧ size < nodeSize s.mem p1 then
    match createMemListNode s with
    | none => none
    | some (p3, s) =>
      let s := { s with kmcount := s.kmcount + 1 }
      if p3 = 0 then some (0, s)
      else
        let s := s.put p3 (nodeAddr s.mem p1)
        let s := s.put (p3 + 4) size
        let s := s.put (p3 + 8) 0
        let s := s.put (p1 + 4) (u32 ((nodeSize s.mem p1 : Int) - size))
        let s := s.put p1 (u32 ((nodeAddr s.mem p1 : Int) + size))
        some (giveOut s p3)
  else
    match deleteAvailNode s p1 with
    | none => none
    | some s => some (giveOut (s.put (p1 + 4) size) p1)

/-- The body of `kmalloc` from the label `kmalloc_1` on: search, and take new pages and start
    again if nothing fits. Each further round has taken a page, so `fuel` rounds for as many
    pages are enough. -/
def kmallocFrom (size : Nat) : Nat → HeapState → Best → Option (Nat × HeapState)
  | 0, _, _ => none
  | fuel + 1, s, acc =>
    match walk (nodeNext s.mem) 0 (bestStep s.mem size) nodeFuel acc s.kmavailList with
    | none => none
    | some acc =>
      if acc.avl then takeFrom s acc.p3 size
      else
        match coreAlloc s.core ((size + 4095) / 4096 : Nat) with
        | none => none
        | some (chead, core) =>
          let s := { s with core := core }
          if chead.noBlocks * 4096 < size then
            -- Release that and return NULL
            if 0 < chead.noBlocks then
              (coreFree s.core chead).map fun core => (0, { s with core := core })
            else some (0, s)
          else
            match createMemListNode s with
            | none => none
            | some (p1, s) =>
              let s := { s with kmcount := s.kmcount + 1 }
              if p1 = 0 then
                (coreFree s.core chead).map fun core => (0, { s with core := core })
              else
                let s := s.put p1 chead.physAddr
                let s := s.put (p1 + 4) (chead.noBlocks * 4096)
                let s := s.put (p1 + 8) 0
                match insertAvailNode s p1 with
                | none => none
                | some s => kmallocFrom size fuel s acc

/-- `kmalloc`; `0` is `NULL`. -/
def kmalloc (s : HeapState) (size : Nat) : Option (Nat × HeapState) :=
  if size = 0 then some (0, s)
  else if mallocMax < size then some (0, s)
  else kmallocFrom size listFuel s ⟨false, 0, 0xefffffff⟩

/-- `kfree`: the descriptor of `ptr` moves from the used list to the available one. -/
def kfree (s : HeapState) (ptr : Nat) : Option HeapState :=
  if ptr = 0 then some s
  else
    match seek (nodeNext s.mem) (fun p => p == 0 || nodeAddr s.mem p == ptr) nodeFuel 0
        s.kmusedList with
    | none => none
    | some (p2, p1) =>
      if p1 = 0 then some s
      else
        let s := if p1 = s.kmusedList then { s with kmusedList := nodeNext s.mem p1 }
          else s.put (p2 + 8) (nodeNext s.mem p1)
        insertAvailNode (s.put (p1 + 8) 0) p1

end AtomOs
