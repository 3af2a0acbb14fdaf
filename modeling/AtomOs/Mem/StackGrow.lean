import AtomOs.Mem.Shrink
import AtomOs.Mem.CoreAllocN

/-!
# Stacks that grow

A thread that touches its stack below what is mapped gets a page fault, and `do_page_fault` asks
`vm_expanddownregion` for a region that starts at the page of that address. The call asks for as many
pages as the region had behind its first one before, and maps them from the new start on. So it takes
too few pages, or too many and over pages that were there, unless the fault lies exactly as many pages
below the old start as the region reaches above it (`stack_hole` is a stack of one page). If the pages
cannot be had, the new start stays all the same.

`vmExpandDownRegion_grows` is the case in which the numbers agree, on the invariant of the address space.
In all others the invariant is lost, so `vmExpandDownRegion_spoils` looks at the entries of one slot only
(`SlotMapped`). **`doPageFault_grows_stack`** puts the two together: it says exactly which faults are dealt
with as they should be.
-/

namespace AtomOs

open Lib CoreHeader

/-! ## The calls -/

/-- The search of `vm_expanddownregion`: what lies before the first region that ends at `lend`, the
    region, and what lies behind it. -/
def splitAtEnd (lend : Nat) :
    List MemRegion → Option (List MemRegion × MemRegion × List MemRegion)
  | [] => none
  | r :: rs =>
    if r.endAddr = lend then some ([], r, rs)
    else (splitAtEnd lend rs).map fun (pre, mreg, post) => (r :: pre, mreg, post)

/-- The part of `vm_expanddownregion` that allocates memory, for a region that started at `ostart`
    and now starts at `startAddr`. -/
def expandDownFrames (s : VmState) (rw ostart startAddr endAddr : Nat) : Option (Int × VmState) :=
  let np := u32 ((endAddr / 4096 * 4096 : Nat) - (ostart / 4096 * 4096 : Nat)) / 4096
  if np = 0 then some (0, s)
  else
    match coreAllocN s.heap.core np with
    | none => none
    | some (none, core) => some (enomem, s.setCore core)
    | some (some chs, core) => some (0, mapFrames rw chs startAddr (s.setCore core))

/-- The part of `vm_expanddownregion` after the region's start was moved. -/
def expandDownSegment (s : VmState) (mreg : MemRegion) (ostart : Nat) (memflag : Bool) :
    Option (Int × VmState) :=
  let tables :=
    if ostart / 4194304 ≠ mreg.endAddr / 4194304 then  -- In different 4 MB regions
      vmExpandPageTables s mreg.segment mreg.startAddr mreg.endAddr (regionRw mreg.type)
    else some (0, s)
  match tables with
  | none => none
  | some (ret, s) =>
    if ret < 0 then some (enomem, s)
    else if memflag then
      expandDownFrames s (regionRw mreg.type) ostart mreg.startAddr mreg.endAddr
    else some (0, s)

def vmExpandDownRegion (s : VmState) (lstart lend : Nat) (pgflag memflag : Bool) :
    Option (Int × VmState) :=
  match splitAtEnd lend s.regions with
  | none => some (-1, s)
  | some (pre, mreg, post) =>
    -- Is it overlapping with previous region?
    if pre.getLast?.any (fun prev => decide (lstart ≤ prev.endAddr)) then some (-1, s)
    else
      let mreg' := { mreg with startAddr := lstart }
      let s := { s with regions := pre ++ mreg' :: post }
      if pgflag || memflag then
        if mreg.segment = 0 then
          (vmCreateMemSegmentHeld s mreg'.startAddr mreg'.endAddr mreg.type).map fun s => (-1, s)
        else
          match expandDownSegment (vmGetMemSegment s mreg.segment) mreg' mreg.startAddr memflag with
          | none => none
          | some (ret, s) => (vmReleaseSegment s mreg.segment).map fun s => (ret, s)
      else some (0, s)

/-- `vm_getptentry`: where the entry of the page of `addr` is, 0 for `NULL`. -/
def vmGetPtEntry (s : VmState) (addr : Nat) : Nat :=
  let pt := s.pageTable (pdIndex addr)
  if pt ≠ 0 then pt + 4 * ptIndex addr else 0

/-- Bit 11 of an entry, which `pte_mark_busy` sets: a fault on the page is being dealt with. -/
def pteBusy (w : Nat) : Bool := decide (w / 2048 % 2 = 1)

def pteMark (w : Nat) : Nat := if pteBusy w then w else w + 2048

def pteUnmark (w : Nat) : Nat := if pteBusy w then w - 2048 else w

inductive FaultEnd where
  | resumed
  | exited
deriving DecidableEq, Repr

def userDataSegmentStart : Nat := 0x24000000

/-- The end of `do_page_fault`. -/
def faultLeave (pte : Nat) (e : FaultEnd) (s : VmState) : FaultEnd × VmState :=
  (e, s.put pte (pteUnmark (s.mem pte)))

/-- Where the data region ends. -/
def faultLimit (s : VmState) : Nat :=
  match s.regions.find? fun r => r.type == segmentTypeData with
  | some mreg => mreg.endAddr
  | none => userDataSegmentStart

/-- `do_page_fault` at the address `cr2`, for a thread whose stack ends at `ustackstart`. While
    another thread deals with a fault on the same page it waits. -/
def doPageFault (s : VmState) (ustackstart cr2 : Nat) : Option (FaultEnd × VmState) :=
  let pte := vmGetPtEntry s cr2
  if pteBusy (s.mem pte) then none
  else
    let s := s.put pte (pteMark (s.mem pte))
    if cr2 < 0x20000000 then some (faultLeave pte .exited s)  -- Kernel range
    else if cr2 < userDataSegmentStart then some (faultLeave pte .exited s)
    else if cr2 < faultLimit s then some (faultLeave pte .exited s)
    else if cr2 < 0xFDC00000 then
      if ustackstart / 4194304 = cr2 / 4194304 then  -- Current stack
        let stackend := u32 ((u32 (ustackstart + 0x00400000 - 1) / 4194304 * 4194304 : Nat) - 1)
        match vmExpandDownRegion s (cr2 / 4096 * 4096) stackend true true with
        | none => none
        | some (ret, s) =>
          if ret < 0 then some (faultLeave pte .exited s) else some (faultLeave pte .resumed s)
      else some (faultLeave pte .exited s)
    else some (faultLeave pte .exited s)

/-! ## The busy bit -/

variable {w : Nat} {heap heap' : HeapState}

theorem pteUnmark_pteMark (h : pteBusy w = false) : pteUnmark (pteMark w) = w := by
  have hbit : w / 2048 % 2 = 0 := by
    have := of_decide_eq_false h
    omega
  have hset : pteBusy (w + 2048) = true := decide_eq_true (by omega)
  unfold pteMark
  rw [h, if_neg (by decide)]
  unfold pteUnmark
  rw [hset, if_pos rfl, Nat.add_sub_cancel]

theorem pteMark_entry (h : pteBusy w = false) :
    entryPresent (pteMark w) = entryPresent w ∧ entryBase (pteMark w) = entryBase w := by
  have hbit := of_decide_eq_false h
  unfold pteMark entryPresent entryBase
  rw [h, if_neg (by decide)]
  omega

theorem pteUnmark_entry (w : Nat) :
    entryPresent (pteUnmark w) = entryPresent w ∧ entryBase (pteUnmark w) = entryBase w := by
  unfold pteUnmark entryPresent entryBase
  split
  · rename_i h
    have hbit := of_decide_eq_true h
    omega
  · exact ⟨rfl, rfl⟩

theorem put_back (s : VmState) (a w : Nat) : (s.put a w).put a (s.mem a) = s := by
  have hmem : ((s.put a w).put a (s.mem a)).mem = s.mem := by
    funext b
    show (if b = a then _ else if b = a then _ else s.mem b) = _
    split
    · rename_i hb
      rw [hb]
    · rfl
  have hcore : ((s.put a w).put a (s.mem a)).heap.core = s.heap.core := by
    show CoreState.mk ((s.put a w).put a (s.mem a)).mem _ _ = _
    rw [hmem]
    rfl
  show VmState.mk (HeapState.mk ((s.put a w).put a (s.mem a)).heap.core _ _ _ _) _ _ _ _ = _
  rw [hcore]
  rfl

/-! ## Moving the start down -/

theorem splitAtEnd_of_first (d : MemRegion) (post : List MemRegion) :
    ∀ {pre : List MemRegion}, (∀ r ∈ pre, r.endAddr ≠ d.endAddr) →
      splitAtEnd d.endAddr (pre ++ d :: post) = some (pre, d, post)
  | [], _ => by simp [splitAtEnd]
  | r :: pre, h => by
    have hr : r.endAddr ≠ d.endAddr := h r (by simp)
    have hrest := splitAtEnd_of_first d post fun q hq => h q (List.mem_cons_of_mem r hq)
    simp [splitAtEnd, hr, hrest]

/-- A stack: the memory at the upper end of a slot, with nothing of others mapped between it and the
    region before it. -/
structure StackRegion (s : VmState) (pre : List MemRegion) (mreg : MemRegion)
    (post : List MemRegion) : Prop extends MappedRegion s pre mreg post where
  first : ∀ r ∈ pre, r.endAddr ≠ mreg.endAddr
  order : mreg.startAddr ≤ mreg.endAddr
  top : mreg.endAddr % 4194304 = 4194303
  slot : mreg.startAddr / 4194304 = mreg.endAddr / 4194304
  below : ∀ p, p / 1024 = mreg.startAddr / 4194304 → p < mreg.startAddr / 4096 → s.Mapped p →
    ∃ r ∈ pre.getLast?, p * 4096 ≤ r.endAddr

/-- The pages between the page of a fault and the old start. -/
def stackPages (a start : Nat) : Set Nat := {p | a / 4096 ≤ p ∧ p < start / 4096}

/-! ## What the free list has lost -/

section lost

variable {C base fixed new : Set Nat} {s t : VmState} {v v' : HeapView}

def newFrames (t : VmState) (new : Set Nat) : Set Nat := {x | ∃ p ∈ new, x ∈ pageAt (t.frame p)}

theorem SpaceOk.owned_grown (h : SpaceOk C base fixed s v) (h' : SpaceOk C base fixed t v')
    (htab : ∀ i < 1024, t.pageTable i = s.pageTable i)
    (hkeep : ∀ p < pageCount, s.Mapped p → t.Mapped p ∧ t.frame p = s.frame p)
    (honly : ∀ p < pageCount, t.Mapped p → s.Mapped p ∨ p ∈ new)
    (hnew : ∀ p ∈ new, p < pageCount ∧ t.Mapped p ∧ ¬ s.Mapped p) :
    v'.owned = v.owned ∪ newFrames t new ∧ ∀ x ∈ newFrames t new, x ∉ v.owned := by
  have hnf : ∀ p ∈ new, p ∉ fixed := fun p hp hf => (hnew p hp).2.2 (h.fixedMapped p hf).2
  constructor
  · ext x
    constructor
    · intro hx
      rcases h'.accounted x hx with hb | ⟨i, hi, h0, hxi⟩ | ⟨p, hp, hf, hm, hxp⟩
      · exact .inl (h.baseOwned hb)
      · rw [htab i hi] at h0 hxi
        exact .inl ((h.table i hi h0).2.1 hxi)
      · rcases honly p hp hm with hs | hn
        · rw [(hkeep p hp hs).2] at hxp
          exact .inl ((h.frame p hp hf hs).1 hxp).1
        · exact .inr ⟨p, hn, hxp⟩
    · rintro (hx | ⟨p, hn, hxp⟩)
      · rcases h.accounted x hx with hb | ⟨i, hi, h0, hxi⟩ | ⟨p, hp, hf, hm, hxp⟩
        · exact h'.baseOwned hb
        · rw [← htab i hi] at h0 hxi
          exact (h'.table i hi h0).2.1 hxi
        · obtain ⟨hm', hframe⟩ := hkeep p hp hm
          rw [← hframe] at hxp
          exact ((h'.frame p hp hf hm').1 hxp).1
      · obtain ⟨hp, hm, -⟩ := hnew p hn
        exact ((h'.frame p hp (hnf p hn) hm).1 hxp).1
  · rintro x ⟨p, hn, hxp⟩ hx
    obtain ⟨hp, hm, hns⟩ := hnew p hn
    obtain ⟨hin, hntab⟩ := h'.frame p hp (hnf p hn) hm
    rcases h.accounted x hx with hb | ⟨i, hi, h0, hxi⟩ | ⟨q, hq, hf, hmq, hxq⟩
    · exact (hin hxp).2 hb
    · rw [← htab i hi] at hxi
      exact pageAt_disjoint (frame_aligned t p) (pageTable_aligned t i) (hntab i hi) hxp hxi
    · obtain ⟨hmq', hframe⟩ := hkeep q hq hmq
      rw [← hframe] at hxq
      have hne : t.frame p ≠ t.frame q := fun he =>
        hns (h'.frameInj p hp q hq (hnf p hn) hf hm hmq' he ▸ hmq)
      exact pageAt_disjoint (frame_aligned t p) (frame_aligned t q) hne hxp hxq

/-- **The free list has lost exactly what is owned now and was not before.** -/
theorem HeapOk.free_lost {N : Set Nat} {L : List Blk} (h : HeapOk C heap v) (h' : HeapOk C heap' v')
    (hpages : v'.pages = v.pages) (hgiven : v'.given = v.given) (hown : v'.owned = v.owned ∪ N)
    (hN : ∀ x ∈ N, x ∉ v.owned) (hcore : CoreOk heap.core L) :
    ∃ L', CoreOk heap'.core L' ∧ cover L' ⊆ cover L ∧ cover L \ cover L' = N := by
  obtain ⟨F, hsys⟩ := h.sys
  obtain ⟨L', hsys'⟩ := h'.sys
  obtain rfl : F = L := hsys.core.list.unique hcore.list
  have hout : ∀ {w : HeapView}, cover ((w.pages ++ (w.given ++ w.others)).map blk) =
      cover (w.pages.map blk) ∪ (cover (w.given.map blk) ∪ w.owned) := by
    intro w
    rw [List.map_append, List.map_append, cover_append, cover_append]
    rfl
  have hfree := hsys.pool.cover_free
  have hfree' := hsys'.pool.cover_free
  rw [CoreSys.out, hout] at hfree hfree'
  rw [hpages, hgiven, hown] at hfree'
  refine ⟨L', hsys'.core, ?_, ?_⟩
  · rw [hfree, hfree']
    exact Set.sdiff_subset_sdiff_right (Set.union_subset_union_right _
      (Set.union_subset_union_right _ Set.subset_union_left))
  · -- the new blocks are of the pool, and apart from the heap's own
    have hin : N ⊆ C := fun x hx => by
      rw [← hsys'.pool.units, CoreSys.out, hout, hown]
      exact .inr (.inr (.inr (.inr hx)))
    have hapart : ∀ x ∈ N, x ∉ cover (v.pages.map blk) ∧
        x ∉ cover (v.given.map blk) := by
      intro x hx
      obtain ⟨b, hb, hxb⟩ : x ∈ v'.owned := hown ▸ .inr hx
      have hout' := hsys'.pool.outApart
      rw [CoreSys.out, List.map_append, List.map_append, hpages, hgiven] at hout'
      obtain ⟨-, hrest, hpo⟩ := List.pairwise_append.mp hout'
      obtain ⟨-, -, hgo⟩ := List.pairwise_append.mp hrest
      constructor
      · rintro ⟨c, hc, hxc⟩
        exact not_has_of_apart (hpo c hc b (List.mem_append_right _ hb)) hxc hxb
      · rintro ⟨c, hc, hxc⟩
        exact not_has_of_apart (hgo c hc b hb) hxc hxb
    rw [hfree, hfree']
    ext x
    simp only [Set.mem_sdiff, Set.mem_union]
    constructor
    · rintro ⟨⟨hC, hold⟩, hnow⟩
      by_contra hx
      exact hnow ⟨hC, by tauto⟩
    · intro hx
      obtain ⟨hp, hg⟩ := hapart x hx
      exact ⟨⟨hin hx, by tauto⟩, fun hnow => hnow.2 (.inr (.inr (.inr hx)))⟩

theorem HeapOk.core_same {L : List Blk} (h : HeapOk C heap v)
    (h' : HeapOk C heap' v) (hcore : CoreOk heap.core L) : CoreOk heap'.core L := by
  obtain ⟨F, hsys⟩ := h.sys
  obtain ⟨F', hsys'⟩ := h'.sys
  obtain rfl : F = L := hsys.core.list.unique hcore.list
  obtain rfl : F = F' := hsys.pool.free_unique hsys'.pool
  exact hsys'.core

end lost

/-! ## Frames over pages that are there

`vm_expanddownregion` does not look whether a page is mapped when it stores an entry. Within one slot that
is a store into one page table, so what becomes of every entry of the slot can be said for any state. -/

/-- `n` pages of the slot `i` from `p` on were given frames in `F`; the other entries of the slot are as
    they were. -/
structure SlotMapped (s t : VmState) (i p n : Nat) (F : Set Nat) : Prop where
  pgdir : t.pgdir = s.pgdir
  pde : t.pde i = s.pde i
  regions : SameRegions s t
  inside : ∀ q, p ≤ q → q < p + n → t.frame q ∈ F
  outside : ∀ q, q / 1024 = i → ¬ (p ≤ q ∧ q < p + n) → t.pte q = s.pte q

section slot

variable {s t u : VmState} {i p n m : Nat} {F G : Set Nat}

theorem SlotMapped.append (h : SlotMapped s t i p n F) (h' : SlotMapped t u i (p + n) m G)
    (hlow : i * 1024 ≤ p) (hhigh : p + n ≤ (i + 1) * 1024) : SlotMapped s u i p (n + m) (F ∪ G) where
  pgdir := h'.pgdir.trans h.pgdir
  pde := h'.pde.trans h.pde
  regions := h.regions.trans h'.regions
  inside q h1 h2 := by
    by_cases hq : q < p + n
    · refine .inl ?_
      rw [VmState.frame, h'.outside q (by omega) (by omega)]
      exact h.inside q h1 hq
    · exact .inr (h'.inside q (by omega) (by omega))
  outside q hq hnot := (h'.outside q hq (by omega)).trans (h.outside q hq (by omega))

theorem put_slot (hpgdir : s.pgdir % 4096 = 0) (hne : s.pageTable i ≠ s.pgdir) (hi : i < 1024)
    (hp : p / 1024 = i) (w : Nat) :
    (s.put (s.pageTable i + 4 * (p % 1024)) w).pde i = s.pde i ∧
      ∀ q, q / 1024 = i → (s.put (s.pageTable i + 4 * (p % 1024)) w).pte q =
        if q = p then w else s.pte q := by
  have hal := pageTable_aligned s i
  have hmem : ∀ x, (s.put (s.pageTable i + 4 * (p % 1024)) w).mem x =
      if x = s.pageTable i + 4 * (p % 1024) then w else s.mem x := fun _ => rfl
  have hpde : (s.put (s.pageTable i + 4 * (p % 1024)) w).pde i = s.pde i := by
    unfold VmState.pde
    rw [hmem]
    refine if_neg fun he => ?_
    have he : s.pgdir + 4 * i = s.pageTable i + 4 * (p % 1024) := he
    omega
  refine ⟨hpde, fun q hq => ?_⟩
  have htable : (s.put (s.pageTable i + 4 * (p % 1024)) w).pageTable i = s.pageTable i :=
    congrArg (entryBase · * 4096) hpde
  unfold VmState.pte
  rw [hq, htable, hmem]
  have hiff : s.pageTable i + 4 * (q % 1024) = s.pageTable i + 4 * (p % 1024) ↔ q = p := by omega
  simp only [hiff]

theorem put_slot_same {w q : Nat} (hpgdir : s.pgdir % 4096 = 0) (hne : s.pageTable i ≠ s.pgdir)
    (hi : i < 1024) (hp : p / 1024 = i) (hpres : entryPresent w = entryPresent (s.pte p))
    (hbase : entryBase w = entryBase (s.pte p)) (hq : q / 1024 = i) :
    ((s.put (s.pageTable i + 4 * (p % 1024)) w).Mapped q ↔ s.Mapped q) ∧
      (s.put (s.pageTable i + 4 * (p % 1024)) w).frame q = s.frame q := by
  obtain ⟨hpde, hpte⟩ := put_slot hpgdir hne hi hp w
  have hentry : entryPresent ((s.put (s.pageTable i + 4 * (p % 1024)) w).pte q) = entryPresent (s.pte q) ∧
      entryBase ((s.put (s.pageTable i + 4 * (p % 1024)) w).pte q) = entryBase (s.pte q) := by
    rw [hpte q hq]
    split
    · rename_i hqp
      rw [hqp]
      exact ⟨hpres, hbase⟩
    · exact ⟨rfl, rfl⟩
  refine ⟨?_, congrArg (· * 4096) hentry.2⟩
  have htable : (s.put (s.pageTable i + 4 * (p % 1024)) w).pageTable i = s.pageTable i :=
    congrArg (entryBase · * 4096) hpde
  unfold VmState.Mapped
  rw [hq, htable, hpde, hentry.1]

theorem mapPage_slot (rw : Nat) {phys : Nat} (hpgdir : s.pgdir % 4096 = 0)
    (hne : s.pageTable i ≠ s.pgdir) (hi : i < 1023) (hp : p / 1024 = i) (hphys : phys % 4096 = 0)
    (hlt : phys < 4294967296) :
    SlotMapped s (mapPage s rw (p * 4096) phys) i p 1 (pageAt phys) := by
  have hput : mapPage s rw (p * 4096) phys =
      s.put (s.pageTable i + 4 * (p % 1024)) (makeEntry (phys / 4096) 0 rw 1 0) := by
    have hpage : u32 ((p * 4096 : Nat) + 4095) = p * 4096 + 4095 :=
      u32_of_lt (x := p * 4096 + 4095) (by omega)
    have hpd : pdIndex (p * 4096 + 4095) = i := by
      unfold pdIndex
      omega
    have hpt : ptIndex (p * 4096 + 4095) = p % 1024 := by
      unfold ptIndex
      omega
    simp only [mapPage, hpage, hpd, hpt]
  obtain ⟨hpde, hpte⟩ := put_slot hpgdir hne (by omega) hp (makeEntry (phys / 4096) 0 rw 1 0)
  rw [hput]
  refine ⟨rfl, hpde, ⟨rfl, fun _ => rfl⟩, fun q h1 h2 => ?_, fun q hq hnot => ?_⟩
  · obtain rfl : q = p := by omega
    rw [VmState.frame, hpte q hp, if_pos rfl, makeEntry_base (by omega)]
    have hround : phys / 4096 * 4096 = phys := by omega
    rw [hround]
    exact self_mem_pageAt phys
  · rw [hpte q hq, if_neg (by omega)]

/-- The address of the next page is again one of a page, and the rest of the run is below its end. -/
theorem u32_next_page {phys : Nat} (hphys : phys % 4096 = 0) (hlt : phys + (n + 1) * 4096 ≤ 4294967296) :
    u32 (phys + 4096) % 4096 = 0 ∧ u32 (phys + 4096) + n * 4096 ≤ 4294967296 := by
  unfold u32
  omega

theorem mapRun_slot (rw : Nat) (hi : i < 1023) : ∀ {n phys p : Nat} {s : VmState},
    s.pgdir % 4096 = 0 → s.pageTable i ≠ s.pgdir → i * 1024 ≤ p → p + n ≤ (i + 1) * 1024 →
    phys % 4096 = 0 → phys + n * 4096 ≤ 4294967296 →
    (mapRun rw n phys (p * 4096) s).1 = (p + n) * 4096 ∧
      SlotMapped s (mapRun rw n phys (p * 4096) s).2 i p n (runAt phys n) := by
  intro n
  induction n with
  | zero =>
    intro phys p s _ _ _ _ _ _
    exact ⟨rfl, rfl, rfl, SameRegions.refl s, fun q h1 h2 => absurd h2 (by omega), fun _ _ _ => rfl⟩
  | succ n ih =>
    intro phys p s hpgdir hne hlow hhigh hphys hlt
    have hpage := mapPage_slot rw (s := s) (p := p) hpgdir hne hi (by omega) hphys (by omega)
    have hcur : u32 ((p * 4096 : Nat) + 4096) = (p + 1) * 4096 := by
      unfold u32
      omega
    have htable : (mapPage s rw (p * 4096) phys).pageTable i = s.pageTable i := by
      rw [pageTable_eq, hpage.pde, ← pageTable_eq]
    obtain ⟨hnext, hbelow⟩ := u32_next_page hphys hlt
    obtain ⟨hend, hrest⟩ := ih (p := p + 1) (s := mapPage s rw (p * 4096) phys)
      (by rw [hpage.pgdir]; exact hpgdir) (by rw [htable, hpage.pgdir]; exact hne) (by omega)
      (by omega) hnext hbelow
    rw [runAt_next hlt] at hrest
    have hboth := hpage.append hrest hlow (by omega)
    rw [runAt_succ, Set.union_comm, Nat.add_comm n 1]
    have heq : mapRun rw (1 + n) phys (p * 4096) s =
        mapRun rw n (u32 (phys + 4096)) ((p + 1) * 4096) (mapPage s rw (p * 4096) phys) := by
      rw [Nat.add_comm, mapRun, hcur]
    rw [heq]
    exact ⟨hend.trans (by rw [Nat.add_assoc]), hboth⟩

/-- **The frames of all runs**, within one slot. -/
theorem mapFrames_slot (rw : Nat) (hi : i < 1023) : ∀ {chs : List CoreHeader} {p : Nat} {s : VmState},
    s.pgdir % 4096 = 0 → s.pageTable i ≠ s.pgdir → i * 1024 ≤ p →
    p + runPages chs ≤ (i + 1) * 1024 →
    (∀ ch ∈ chs, ch.physAddr % 4096 = 0 ∧ ch.physAddr + ch.noBlocks * 4096 ≤ 4294967296) →
    SlotMapped s (mapFrames rw chs (p * 4096) s) i p (runPages chs) (cover (chs.map blk)) := by
  intro chs
  induction chs with
  | nil =>
    intro p s _ _ _ _ _
    refine ⟨rfl, rfl, SameRegions.refl s, fun q h1 h2 => ?_, fun _ _ _ => rfl⟩
    have h2 : q < p + 0 := h2
    omega
  | cons ch chs ih =>
    intro p s hpgdir hne hlow hhigh hall
    have hsum : runPages (ch :: chs) = ch.noBlocks + runPages chs := by simp [runPages]
    obtain ⟨⟨hal, hlt⟩, hrest⟩ := List.forall_mem_cons.mp hall
    obtain ⟨hend, hrun⟩ := mapRun_slot rw hi hpgdir hne hlow (by omega) hal hlt
    have htable : (mapRun rw ch.noBlocks ch.physAddr (p * 4096) s).2.pageTable i = s.pageTable i := by
      rw [pageTable_eq, hrun.pde, ← pageTable_eq]
    have hmore := ih (p := p + ch.noBlocks) (by rw [hrun.pgdir]; exact hpgdir)
      (by rw [htable, hrun.pgdir]; exact hne) (by omega) (by omega) hrest
    rw [mapFrames, hend, hsum, List.map_cons, cover_cons]
    exact hrun.append hmore hlow (by omega)

end slot

/-! ## The wrong number of pages -/

section wrong

variable {C base fixed : Set Nat} {s t : VmState} {v : HeapView} {L : List Blk} {i p q : Nat}

theorem SlotMapped.mapped_iff {n : Nat} {F : Set Nat} (h : SlotMapped s t i p n F) (hq : q / 1024 = i)
    (hout : ¬ (p ≤ q ∧ q < p + n)) : t.Mapped q ↔ s.Mapped q := by
  unfold VmState.Mapped
  rw [pageTable_eq, pageTable_eq, h.outside q hq hout, hq, h.pde]

/-- **The frames are too few, too many, or not to be had.** The pages `pa` to `ps` are to be mapped, and
    as many are asked for as there are from `ps` to `pe`. -/
theorem expandDownFrames_wrong (rw : Nat) {ostart endAddr pa ps pe : Nat} (h : SpaceOk C base fixed s v)
    (hcore : CoreOk s.heap.core L)
    (hnp : u32 ((endAddr / 4096 * 4096 : Nat) - (ostart / 4096 * 4096 : Nat)) / 4096 = pe - ps)
    (hi : i < 1023) (hlow : i * 1024 ≤ pa) (hlt : pa < ps) (hle : ps ≤ pe) (hhigh : pe < (i + 1) * 1024)
    (hfirst : s.Mapped ps) (hnf : ps ∉ fixed) (hgap : ∀ q, pa ≤ q → q < ps → ¬ s.Mapped q)
    (hwrong : ¬ (pe - ps = ps - pa ∧ Coverable L 32 (ps - pa))) :
    ∃ r t, expandDownFrames s rw ostart (pa * 4096) endAddr = some (r, t) ∧ SameRegions s t ∧
      (r < 0 ∨ ¬ r < 0 ∧ t.pgdir = s.pgdir ∧ t.pageTable i = s.pageTable i ∧
        ((∃ q, pa ≤ q ∧ q < ps ∧ ¬ t.Mapped q) ∨ t.frame ps ≠ s.frame ps)) := by
  have hps : ps < pageCount := by
    unfold pageCount
    omega
  unfold expandDownFrames
  dsimp only
  rw [hnp]
  by_cases h0 : pe - ps = 0
  · rw [if_pos h0]
    exact ⟨0, s, rfl, SameRegions.refl s, .inr ⟨by decide, rfl, rfl, .inl ⟨pa, Nat.le_refl _, hlt,
      hgap pa (Nat.le_refl _) hlt⟩⟩⟩
  rw [if_neg h0]
  obtain ⟨r, core, hrun, hiff⟩ := coreAllocN_settled (n := pe - ps) hcore (by omega)
  rw [hrun]
  cases r with
  | none => exact ⟨enomem, s.setCore core, rfl, ⟨rfl, fun _ => rfl⟩, .inl (by decide)⟩
  | some chs =>
    have hcount : pe - ps ≠ ps - pa := fun he =>
      hwrong ⟨he, he ▸ hiff.mp (Option.some_ne_none chs)⟩
    obtain ⟨v', hok, hext, hspare, hpages, htab, -⟩ := coreAllocN_spec h (by omega) hrun
    have hslot : ps / 1024 = i := by omega
    have htable : (s.setCore core).pageTable i ≠ 0 := by
      rw [htab i (by omega), ← hslot]
      exact hfirst.1
    have hmap : SlotMapped (s.setCore core) (mapFrames rw chs (pa * 4096) (s.setCore core)) i pa
        (runPages chs) (cover (chs.map blk)) :=
      mapFrames_slot rw hi hok.pgdirAligned (hok.table i (by omega) htable).2.2 hlow (by omega)
        fun ch hch => ⟨hspare.aligned ch hch, hspare.below ch hch⟩
    obtain ⟨hfirst', hpte⟩ := hext.entries ps hps hfirst
    have hsame := (congrArg (entryBase · * 4096) hmap.pde).trans (htab i (by omega))
    refine ⟨0, _, rfl, ⟨hmap.regions.regions, hmap.regions.shareCount⟩,
      .inr ⟨by decide, hmap.pgdir, hsame, ?_⟩⟩
    rw [hpages] at hmap
    rcases Nat.lt_or_gt_of_ne hcount with hfew | hmany
    · -- the page behind the last one that was mapped
      refine .inl ⟨pa + (pe - ps), by omega, by omega, fun hm => ?_⟩
      have hm := (hmap.mapped_iff (by omega) (by omega)).mp hm
      have hm := (hext.only _ (by unfold pageCount; omega) hm).resolve_right id
      exact hgap _ (by omega) (by omega) hm
    · -- the frame of the first page of the stack is a new one
      refine .inr fun he => ?_
      have hnew := hmap.inside ps (by omega) (by omega)
      have hold := (hok.frame ps hps hnf hfirst').1 (self_mem_pageAt _)
      have hframe : (s.setCore core).frame ps = s.frame ps := by
        unfold VmState.frame
        rw [hpte]
      rw [he, ← hframe] at hnew
      exact hold.2 (.inr hnew)

end wrong

/-! ## The fault -/

section fault

variable {C base fixed : Set Nat} {s t : VmState} {v : HeapView} {pre post : List MemRegion}
  {mreg : MemRegion} {a : Nat} {L : List Blk}

/-- What a fault at `a` is to do to the stack `mreg`, with the free blocks `L` before it. -/
structure StackGrown (fixed : Set Nat) (s t : VmState) (L : List Blk) (pre : List MemRegion)
    (mreg : MemRegion) (post : List MemRegion) (a : Nat) : Prop where
  regions : t.regions = pre ++ { mreg with startAddr := a / 4096 * 4096 } :: post
  present : ∀ p, a / 4096 ≤ p → p ≤ mreg.endAddr / 4096 → t.Mapped p
  kept : ∀ p < pageCount, s.Mapped p → t.Mapped p ∧ t.pte p = s.pte p
  contents : ∀ p < pageCount, p ∉ fixed → s.Mapped p → ∀ x ∈ pageAt (s.frame p), t.mem x = s.mem x
  distinct : ∀ p ∈ stackPages a mreg.startAddr, ∀ q ∈ stackPages a mreg.startAddr,
    t.frame p = t.frame q → p = q
  taken : ∃ L', CoreOk t.heap.core L' ∧ cover L' ⊆ cover L ∧
    cover L \ cover L' = newFrames t (stackPages a mreg.startAddr)

theorem StackRegion.of_remarked {p : Nat} (hr : StackRegion s pre mreg post)
    (hm : Remarked fixed s t p) (hregs : t.regions = s.regions) (hsegs : t.segs = s.segs) :
    StackRegion t pre mreg post where
  regions := hregs.trans hr.regions
  before := hr.before
  next := hr.next
  word := hr.word
  segment := hr.segment
  shared := hsegs ▸ hr.shared
  sharedLt := hsegs ▸ hr.sharedLt
  mapped q h1 h2 := by
    have hword := hr.word
    exact (hm.mapped q (by unfold pageCount; omega)).mpr (hr.mapped q h1 h2)
  first := hr.first
  order := hr.order
  top := hr.top
  slot := hr.slot
  below q hq hlt hmq := by
    have hword := hr.word
    have horder := hr.order
    exact hr.below q hq hlt ((hm.mapped q (by unfold pageCount; omega)).mp hmq)

theorem StackRegion.entry (hr : StackRegion s pre mreg post)
    (haslot : a / 4194304 = mreg.startAddr / 4194304) :
    a / 4096 < pageCount ∧ s.pageTable (a / 4096 / 1024) ≠ 0 ∧
      vmGetPtEntry s a = s.pageTable (a / 4096 / 1024) + 4 * (a / 4096 % 1024) := by
  have hword := hr.word
  have horder := hr.order
  have htable : s.pageTable (a / 4096 / 1024) ≠ 0 := by
    have := (hr.mapped _ (Nat.le_refl _) (by omega)).1
    rwa [show a / 4096 / 1024 = mreg.startAddr / 4096 / 1024 by omega]
  have hpd : pdIndex a = a / 4096 / 1024 := by
    unfold pdIndex
    omega
  refine ⟨by unfold pageCount; omega, htable, ?_⟩
  unfold vmGetPtEntry ptIndex
  rw [hpd, if_pos htable]

/-- `vm_expanddownregion` for a stack that does not run into the region before it. -/
theorem vmExpandDownRegion_held (hr : StackRegion s pre mreg post)
    (hfree : ∀ r ∈ pre.getLast?, r.endAddr < a / 4096 * 4096) :
    vmExpandDownRegion s (a / 4096 * 4096) mreg.endAddr true true =
      match expandDownSegment (vmGetMemSegment
          { s with regions := pre ++ { mreg with startAddr := a / 4096 * 4096 } :: post } mreg.segment)
        { mreg with startAddr := a / 4096 * 4096 } mreg.startAddr true with
      | none => none
      | some (ret, s) => (vmReleaseSegment s mreg.segment).map fun s => (ret, s) := by
  have hover : ¬ pre.getLast?.any (fun prev => decide (a / 4096 * 4096 ≤ prev.endAddr)) = true := by
    cases hlast : pre.getLast? with
    | none => simp
    | some r =>
      have := hfree r hlast
      simp only [Option.any_some, decide_eq_true_eq]
      omega
  unfold vmExpandDownRegion
  rw [hr.regions, splitAtEnd_of_first mreg post hr.first]
  dsimp only
  rw [if_neg hover, Bool.or_true, if_pos rfl, if_neg hr.segment]

theorem expandDownSegment_within (hslot : mreg.startAddr / 4194304 = mreg.endAddr / 4194304)
    (start : Nat) : expandDownSegment s { mreg with startAddr := start } mreg.startAddr true =
      expandDownFrames s (regionRw mreg.type) mreg.startAddr start mreg.endAddr := by
  unfold expandDownSegment
  rw [if_neg (not_not_intro hslot)]
  dsimp only
  rw [if_neg (by decide), if_pos rfl]

theorem StackRegion.pages_behind (hr : StackRegion s pre mreg post) :
    u32 ((mreg.endAddr / 4096 * 4096 : Nat) - (mreg.startAddr / 4096 * 4096 : Nat)) / 4096 =
      mreg.endAddr / 4096 - mreg.startAddr / 4096 := by
  have hword := hr.word
  have horder := hr.order
  unfold u32
  omega

theorem StackRegion.gap (hr : StackRegion s pre mreg post)
    (haslot : a / 4194304 = mreg.startAddr / 4194304)
    (hfree : ∀ r ∈ pre.getLast?, r.endAddr < a / 4096 * 4096) :
    ∀ p ∈ stackPages a mreg.startAddr, ¬ s.Mapped p := by
  intro p hps hm
  obtain ⟨r, hlast, hle⟩ := hr.below p (by have := hps.1; have := hps.2; omega) hps.2 hm
  have := hfree r hlast
  have := hps.1
  omega

section room

variable (h : SpaceOk C base fixed s v) (hr : StackRegion s pre mreg post)
  (ha : a / 4096 < mreg.startAddr / 4096) (haslot : a / 4194304 = mreg.startAddr / 4194304)
  (hfree : ∀ r ∈ pre.getLast?, r.endAddr < a / 4096 * 4096)
  (hcount : mreg.endAddr / 4096 - mreg.startAddr / 4096 = mreg.startAddr / 4096 - a / 4096)
  (hcore : CoreOk s.heap.core L) (hcov : Coverable L 32 (mreg.startAddr / 4096 - a / 4096))
include h hr ha haslot hfree hcount hcore hcov

/-- **`vm_expanddownregion`** for as many pages as the region has behind its first one. -/
theorem vmExpandDownRegion_doubles :
    ∃ t v', vmExpandDownRegion s (a / 4096 * 4096) mreg.endAddr true true = some (0, t) ∧
      SpaceOk C base fixed t v' ∧ Extends fixed s t (stackPages a mreg.startAddr) ∧
      (∀ p ∈ stackPages a mreg.startAddr, t.Mapped p) ∧
      (∀ i < 1024, t.pageTable i = s.pageTable i) ∧
      t.regions = pre ++ { mreg with startAddr := a / 4096 * 4096 } :: post ∧
      v'.pages = v.pages ∧ v'.given = v.given := by
  have hword := hr.word
  have hslot := hr.slot
  -- The region has its new start, and the segment is held.
  let s1 := vmGetMemSegment
    { s with regions := pre ++ { mreg with startAddr := a / 4096 * 4096 } :: post } mreg.segment
  obtain ⟨hok1, hext1, htab1⟩ := h.reheap (t := s1) rfl rfl
  have hcount1 : (s1.segs mreg.segment).shareCount = (s.segs mreg.segment).shareCount + 1 :=
    vmGetMemSegment_count hr.sharedLt
  have hseg : ∃ t2 v', expandDownSegment s1 { mreg with startAddr := a / 4096 * 4096 } mreg.startAddr
      true = some (0, t2) ∧ SpaceOk C base fixed t2 v' ∧
      Extends fixed s1 t2 (stackPages a mreg.startAddr) ∧
      (∀ p ∈ stackPages a mreg.startAddr, t2.Mapped p) ∧
      (∀ i < 1024, t2.pageTable i = s1.pageTable i) ∧ SameRegions s1 t2 ∧
      v'.pages = v.pages ∧ v'.given = v.given := by
    obtain ⟨chs, core, halloc⟩ := coreAllocN_covered hcore (by omega) hcov
    have halloc : coreAllocN s1.heap.core (mreg.startAddr / 4096 - a / 4096 : Nat) =
        some (some chs, core) := halloc
    have hvac : Vacant s1 ((a / 4096 * 4096 + 4095) / 4096) (mreg.startAddr / 4096 - a / 4096) := by
      intro p h1 h2
      have hp : p < pageCount := by
        unfold pageCount
        omega
      have hpslot : p / 1024 = mreg.startAddr / 4096 / 1024 := by omega
      rw [htab1 _ (by omega), hpslot]
      refine ⟨(hr.mapped _ (Nat.le_refl _) (by omega)).1, fun hm => ?_⟩
      exact hr.gap haslot hfree p ⟨by omega, by omega⟩ ((hext1.only p hp hm).resolve_right id)
    obtain ⟨v', hmap, hviews⟩ := mapAllocated_spec (regionRw mreg.type) hok1 halloc (by omega) hvac
    have hset : {p | (a / 4096 * 4096 + 4095) / 4096 ≤ p ∧
        p < (a / 4096 * 4096 + 4095) / 4096 + (mreg.startAddr / 4096 - a / 4096)} =
          stackPages a mreg.startAddr := by
      ext p
      simp only [stackPages, Set.mem_ofPred_eq]
      omega
    refine ⟨_, v', ?_, hmap.ok, ?_, fun p hp => ?_, hmap.tables, hmap.regions, hviews⟩
    · rw [expandDownSegment_within hslot]
      unfold expandDownFrames
      dsimp only
      rw [hr.pages_behind, hcount, if_neg (by omega), halloc]
    · rw [← hset]
      exact hmap.ext
    · rw [← hset] at hp
      exact hmap.mapped p hp.1 hp.2
  obtain ⟨t2, v', hrun, hok, hext, hmapped, htab, hsame, hviews⟩ := hseg
  obtain ⟨t, hrel, hheap, hpgdir, hregs, -⟩ := vmReleaseSegment_counted hr.shared hr.sharedLt
    ((hsame.shareCount _).trans hcount1)
  obtain ⟨hok', hext', htab'⟩ := hok.reheap hheap hpgdir
  refine ⟨t, v', ?_, hok', ?_, fun p hp => ?_, fun i hi => ?_, ?_, hviews⟩
  · rw [vmExpandDownRegion_held hr hfree, hrun]
    dsimp only
    rw [hrel]
    rfl
  · exact ((hext1.none _).trans hext).trans (hext'.none _)
  · have hlt : p < pageCount := by
      have := hp.2
      unfold pageCount
      omega
    exact (hext'.entries p hlt (hmapped p hp)).1
  · exact (htab' i hi).trans ((htab i hi).trans (htab1 i hi))
  · exact hregs.trans hsame.regions

/-- **A fault that finds its pages.** -/
theorem vmExpandDownRegion_grows (hfault : ¬ s.Mapped (a / 4096))
    (hbusy : pteBusy (s.mem (vmGetPtEntry s a)) = false) :
    ∃ t, vmExpandDownRegion (s.put (vmGetPtEntry s a) (pteMark (s.mem (vmGetPtEntry s a))))
        (a / 4096 * 4096) mreg.endAddr true true = some (0, t) ∧
      StackGrown fixed s (faultLeave (vmGetPtEntry s a) .resumed t).2 L pre mreg post a := by
  obtain ⟨hp, htable, hentry⟩ := hr.entry haslot
  have hword := hr.word
  have hpages : ∀ {p}, p ∈ stackPages a mreg.startAddr → p < pageCount := fun hp => by
    have := hp.2
    unfold pageCount
    omega
  rw [hentry] at hbusy ⊢
  obtain ⟨hpres, hbase⟩ := pteMark_entry hbusy
  obtain ⟨hok1, hmark⟩ := h.remark hp htable hpres hbase
    (t := s.put (s.pageTable (a / 4096 / 1024) + 4 * (a / 4096 % 1024)) (pteMark (s.pte (a / 4096))))
    rfl rfl
  have hr1 := hr.of_remarked hmark rfl rfl
  obtain ⟨t, v', hrun, hok, hext, hnew, htab, hregs, hviews⟩ :=
    vmExpandDownRegion_doubles hok1 hr1 ha haslot hfree hcount (h.heap.core_same hok1.heap hcore) hcov
  have htab : ∀ i < 1024, t.pageTable i = s.pageTable i := fun i hi =>
    (htab i hi).trans (hmark.tables i hi)
  have hat : a / 4096 / 1024 < 1024 := by omega
  have hpte : t.mem (s.pageTable (a / 4096 / 1024) + 4 * (a / 4096 % 1024)) = t.pte (a / 4096) := by
    unfold VmState.pte
    rw [htab _ hat]
  obtain ⟨hpres', hbase'⟩ := pteUnmark_entry (t.pte (a / 4096))
  let u := (faultLeave (s.pageTable (a / 4096 / 1024) + 4 * (a / 4096 % 1024)) .resumed t).2
  obtain ⟨hok', hunmark⟩ := hok.remark (t := u) hp (by rwa [htab _ hat]) hpres' hbase' rfl
    (by rw [htab _ hat, ← hpte]; rfl)
  have hnot := hr.gap haslot hfree
  have hkept : ∀ p < pageCount, s.Mapped p → u.Mapped p ∧ u.pte p = s.pte p := by
    intro p hlt hm
    have hne : p ≠ a / 4096 := fun he => hfault (he ▸ hm)
    obtain ⟨hmt, hptet⟩ := hext.entries p hlt ((hmark.mapped p hlt).mpr hm)
    refine ⟨(hunmark.mapped p hlt).mpr hmt, ?_⟩
    rw [hunmark.others p hlt hne, hptet, hmark.others p hlt hne]
  have hnew' : ∀ p ∈ stackPages a mreg.startAddr, p < pageCount ∧ u.Mapped p ∧ ¬ s.Mapped p :=
    fun p hps => ⟨hpages hps, (hunmark.mapped p (hpages hps)).mpr (hnew p hps), hnot p hps⟩
  have hnf : ∀ p ∈ stackPages a mreg.startAddr, p ∉ fixed := fun p hps hf =>
    hnot p hps (h.fixedMapped p hf).2
  obtain ⟨hown, hapart⟩ := h.owned_grown hok'
    (fun i hi => (hunmark.tables i hi).trans (htab i hi))
    (fun p hlt hm => ⟨(hkept p hlt hm).1, by unfold VmState.frame; rw [(hkept p hlt hm).2]⟩)
    (fun p hlt hm => by
      refine (hext.only p hlt ((hunmark.mapped p hlt).mp hm)).imp_left ?_
      exact (hmark.mapped p hlt).mp) hnew'
  refine ⟨t, hrun, hregs, fun p h1 h2 => ?_, hkept, fun p hlt hf hm x hx => ?_, fun p hp' q hq he => ?_,
    h.heap.free_lost hok'.heap hviews.1 hviews.2 hown hapart hcore⟩
  · by_cases hlt : p < mreg.startAddr / 4096
    · exact (hnew' p ⟨h1, hlt⟩).2.1
    · exact (hkept p (by unfold pageCount; omega) (hr.mapped p (by omega) h2)).1
  · have hm1 := (hmark.mapped p hlt).mpr hm
    have hx1 : x ∈ pageAt (VmState.frame _ p) := (hmark.frame p hlt).symm ▸ hx
    have hmt := hext.entries p hlt hm1
    have hxt : x ∈ pageAt (t.frame p) := by
      unfold VmState.frame at hx1 ⊢
      rwa [hmt.2]
    exact (hunmark.contents p hlt hf hmt.1 x hxt).trans
      ((hext.contents p hlt hf hm1 x hx1).trans (hmark.contents p hlt hf hm x hx))
  · exact hok'.frameInj p (hpages hp') q (hpages hq) (hnf p hp') (hnf q hq) (hnew' p hp').2.1
      (hnew' q hq).2.1 he

end room

section wrong

variable (h : SpaceOk C base fixed s v) (hr : StackRegion s pre mreg post)
  (ha : a / 4096 < mreg.startAddr / 4096) (haslot : a / 4194304 = mreg.startAddr / 4194304)
  (hhigh : a < 0xFDC00000) (hnf : mreg.startAddr / 4096 ∉ fixed)
  (hfree : ∀ r ∈ pre.getLast?, r.endAddr < a / 4096 * 4096) (hcore : CoreOk s.heap.core L)
  (hwrong : ¬ (mreg.endAddr / 4096 - mreg.startAddr / 4096 = mreg.startAddr / 4096 - a / 4096 ∧
    Coverable L 32 (mreg.startAddr / 4096 - a / 4096)))
include h hr ha haslot hhigh hnf hfree hcore hwrong

/-- **`vm_expanddownregion`** for any other number of pages: the new start stays though the call fails, or
    a page below the old start is not there, or the first page of the stack has lost its frame. -/
theorem vmExpandDownRegion_wrong :
    ∃ r t, vmExpandDownRegion s (a / 4096 * 4096) mreg.endAddr true true = some (r, t) ∧
      t.regions = pre ++ { mreg with startAddr := a / 4096 * 4096 } :: post ∧
      (r < 0 ∨ ¬ r < 0 ∧ t.pgdir = s.pgdir ∧
        t.pageTable (a / 4194304) = s.pageTable (a / 4194304) ∧
        ((∃ q ∈ stackPages a mreg.startAddr, ¬ t.Mapped q) ∨
          t.frame (mreg.startAddr / 4096) ≠ s.frame (mreg.startAddr / 4096))) := by
  have hslot := hr.slot
  have horder := hr.order
  have hps : mreg.startAddr / 4096 < pageCount := by
    unfold pageCount
    omega
  let s1 := vmGetMemSegment
    { s with regions := pre ++ { mreg with startAddr := a / 4096 * 4096 } :: post } mreg.segment
  obtain ⟨hok1, hext1, htab1⟩ := h.reheap (t := s1) rfl rfl
  have hfirst := hr.mapped _ (Nat.le_refl _) (Nat.div_le_div_right horder)
  have hgap : ∀ q, a / 4096 ≤ q → q < mreg.startAddr / 4096 → ¬ s1.Mapped q := fun q h1 h2 hm =>
    hr.gap haslot hfree q ⟨h1, h2⟩ ((hext1.only q (by omega) hm).resolve_right id)
  obtain ⟨r, t2, hrun, hsame, hres⟩ := expandDownFrames_wrong (i := a / 4194304) (regionRw mreg.type) hok1
    hcore hr.pages_behind (by omega) (by omega) ha (Nat.div_le_div_right horder) (by omega)
    (hext1.entries _ hps hfirst).1 hnf hgap hwrong
  obtain ⟨t, hrel, hheap, hpgdir, hregs, -⟩ := vmReleaseSegment_counted hr.shared hr.sharedLt
    ((hsame.shareCount _).trans (vmGetMemSegment_count hr.sharedLt))
  have hmem : t.mem = t2.mem := congrArg (·.core.mem) hheap
  have hpde : t.pde = t2.pde := by
    funext j
    unfold VmState.pde
    rw [hmem, hpgdir]
  have htable : t.pageTable = t2.pageTable := by
    funext j
    rw [pageTable_eq, hpde, ← pageTable_eq]
  have hpte : t.pte = t2.pte := by
    funext q
    unfold VmState.pte
    rw [hmem, htable]
  refine ⟨r, t, ?_, hregs.trans hsame.regions, hres.imp_right ?_⟩
  · rw [vmExpandDownRegion_held hr hfree, expandDownSegment_within hslot, hrun]
    dsimp only
    rw [hrel]
    rfl
  · rintro ⟨hr0, hdir, htab, hbad⟩
    refine ⟨hr0, hpgdir.trans hdir, (congrFun htable _).trans (htab.trans (htab1 _ (by omega))), ?_⟩
    refine hbad.imp (fun ⟨q, h1, h2, hm⟩ => ⟨q, ⟨h1, h2⟩, fun hmt => hm ?_⟩) fun hne he => hne ?_
    · unfold VmState.Mapped at hmt ⊢
      rwa [← htable, ← hpde, ← hpte]
    · unfold VmState.frame at he ⊢
      rwa [← hpte]

/-- **A fault that does not end as it should.** -/
theorem vmExpandDownRegion_spoils (hbusy : pteBusy (s.mem (vmGetPtEntry s a)) = false) :
    ∃ r t, vmExpandDownRegion (s.put (vmGetPtEntry s a) (pteMark (s.mem (vmGetPtEntry s a))))
        (a / 4096 * 4096) mreg.endAddr true true = some (r, t) ∧
      (r < 0 → (faultLeave (vmGetPtEntry s a) .exited t).2 ≠ s) ∧
      (¬ r < 0 → ¬ StackGrown fixed s (faultLeave (vmGetPtEntry s a) .resumed t).2 L pre mreg post a) := by
  obtain ⟨hp, htable, hentry⟩ := hr.entry haslot
  have hslot := hr.slot
  have horder := hr.order
  have hps : mreg.startAddr / 4096 < pageCount := by
    unfold pageCount
    omega
  have hslota : a / 4096 / 1024 = a / 4194304 := by omega
  rw [hentry] at hbusy ⊢
  obtain ⟨hpres, hbase⟩ := pteMark_entry hbusy
  obtain ⟨hok1, hmark⟩ := h.remark hp htable hpres hbase
    (t := s.put (s.pageTable (a / 4096 / 1024) + 4 * (a / 4096 % 1024)) (pteMark (s.pte (a / 4096))))
    rfl rfl
  obtain ⟨r, t, hrun, hregs, hres⟩ := vmExpandDownRegion_wrong hok1 (hr.of_remarked hmark rfl rfl) ha
    haslot hhigh hnf hfree (h.heap.core_same hok1.heap hcore) hwrong
  refine ⟨r, t, hrun, fun hneg he => ?_, fun hpos hgrown => ?_⟩
  · have hmoved : s.regions = pre ++ { mreg with startAddr := a / 4096 * 4096 } :: post := by
      rw [← he]
      exact hregs
    rw [hr.regions] at hmoved
    have hstart := congrArg MemRegion.startAddr (List.cons.inj (List.append_cancel_left hmoved)).1
    have hstart : mreg.startAddr = a / 4096 * 4096 := hstart
    omega
  · obtain ⟨-, hdir, htab, hbad⟩ := hres.resolve_left hpos
    have htab : t.pageTable (a / 4194304) = s.pageTable (a / 4194304) :=
      htab.trans (hmark.tables _ (by omega))
    have hne := (h.table _ (by omega) htable).2.2
    obtain ⟨hpres', hbase'⟩ := pteUnmark_entry (t.pte (a / 4096))
    have hpte : t.mem (s.pageTable (a / 4096 / 1024) + 4 * (a / 4096 % 1024)) = t.pte (a / 4096) := by
      unfold VmState.pte
      rw [hslota, htab]
    have hunmark := fun {q} => put_slot_same (s := t) (i := a / 4194304) (q := q)
      (by rw [hdir]; exact h.pgdirAligned) (by rw [htab, hdir, ← hslota]; exact hne) (by omega) hslota
      hpres' hbase'
    unfold faultLeave at hgrown
    rw [hpte, hslota, ← htab] at hgrown
    rcases hbad with ⟨q, hq, hm⟩ | hframe
    · have h1 := hq.1
      have h2 := hq.2
      exact hm ((hunmark (by omega)).1.mp (hgrown.present q h1 (by omega)))
    · have hkept := (hgrown.kept _ hps (hr.mapped _ (Nat.le_refl _) (Nat.div_le_div_right horder))).2
      refine hframe (((hunmark (by omega)).2.symm.trans ?_).trans (hmark.frame _ hps).symm)
      exact congrArg (entryBase · * 4096) hkept

end wrong

theorem vmExpandDownRegion_overlaps (hregs : s.regions = pre ++ mreg :: post)
    (hfirst : ∀ r ∈ pre, r.endAddr ≠ mreg.endAddr) {lstart : Nat} {prev : MemRegion}
    (hlast : prev ∈ pre.getLast?) (hle : lstart ≤ prev.endAddr) (pgflag memflag : Bool) :
    vmExpandDownRegion s lstart mreg.endAddr pgflag memflag = some (-1, s) := by
  unfold vmExpandDownRegion
  rw [hregs, splitAtEnd_of_first mreg post hfirst]
  dsimp only
  rw [hlast, Option.any_some, if_pos (decide_eq_true hle)]

theorem faultLeave_marked {pte : Nat} (hbusy : pteBusy (s.mem pte) = false) (e : FaultEnd) :
    faultLeave pte e (s.put pte (pteMark (s.mem pte))) = (e, s) := by
  unfold faultLeave
  have hmem : (s.put pte (pteMark (s.mem pte))).mem pte = pteMark (s.mem pte) := if_pos rfl
  rw [hmem, pteUnmark_pteMark hbusy, put_back]

theorem stackend_eq {e : Nat} (htop : e % 4194304 = 4194303) (hlt : e < 0xFDC00000) :
    u32 ((u32 (e + 0x00400000 - 1) / 4194304 * 4194304 : Nat) - 1) = e := by
  unfold u32
  omega

def MayBeStack (s : VmState) (a : Nat) : Prop :=
  userDataSegmentStart ≤ a ∧ faultLimit s ≤ a ∧ a < 0xFDC00000

theorem doPageFault_exits (hbusy : pteBusy (s.mem (vmGetPtEntry s a)) = false)
    (hstack : ¬ MayBeStack s a) (ustackstart : Nat) : doPageFault s ustackstart a = some (.exited, s) := by
  have hlim : faultLimit (s.put (vmGetPtEntry s a) (pteMark (s.mem (vmGetPtEntry s a)))) =
      faultLimit s := rfl
  unfold doPageFault
  rw [if_neg (by rw [hbusy]; decide)]
  simp only [faultLeave_marked hbusy, hlim]
  by_cases hkernel : a < 0x20000000
  · exact if_pos hkernel
  rw [if_neg hkernel]
  by_cases hlow : a < userDataSegmentStart
  · exact if_pos hlow
  rw [if_neg hlow]
  by_cases hdata : a < faultLimit s
  · exact if_pos hdata
  rw [if_neg hdata, if_neg fun hhigh => hstack ⟨by omega, by omega, hhigh⟩]

/-- A fault in the slot of the thread's stack is a matter of `vm_expanddownregion`. -/
theorem doPageFault_expands (hbusy : pteBusy (s.mem (vmGetPtEntry s a)) = false) (hstack : MayBeStack s a)
    (hr : StackRegion s pre mreg post) (haslot : a / 4194304 = mreg.startAddr / 4194304) :
    doPageFault s mreg.endAddr a =
      match vmExpandDownRegion (s.put (vmGetPtEntry s a) (pteMark (s.mem (vmGetPtEntry s a))))
        (a / 4096 * 4096) mreg.endAddr true true with
      | none => none
      | some (ret, t) => if ret < 0 then some (faultLeave (vmGetPtEntry s a) .exited t)
        else some (faultLeave (vmGetPtEntry s a) .resumed t) := by
  obtain ⟨hlow, hdata, hhigh⟩ := hstack
  have hslot := hr.slot
  have hkernel : ¬ a < 0x20000000 := by
    unfold userDataSegmentStart at hlow
    omega
  have hlim : faultLimit (s.put (vmGetPtEntry s a) (pteMark (s.mem (vmGetPtEntry s a)))) =
      faultLimit s := rfl
  unfold doPageFault
  rw [if_neg (by rw [hbusy]; decide)]
  simp only [hlim]
  rw [if_neg hkernel, if_neg (by omega), if_neg (by omega), if_pos hhigh, if_pos (by omega),
    stackend_eq hr.top (by omega)]

/-- The fault lies as many pages below the start of the stack as the stack has behind its first page, and
    these pages are to be had. -/
def FindsPages (L : List Blk) (mreg : MemRegion) (a : Nat) : Prop :=
  mreg.endAddr / 4096 - mreg.startAddr / 4096 = mreg.startAddr / 4096 - a / 4096 ∧
    Coverable L 32 (mreg.startAddr / 4096 - a / 4096)

/-- The fault is dealt with as it should be: the call returns unless it has to wait, and the stack has
    grown, or the thread ends and nothing has changed. -/
def FaultServed (fixed : Set Nat) (s : VmState) (L : List Blk) (pre : List MemRegion) (mreg : MemRegion)
    (post : List MemRegion) (a : Nat) : Prop :=
  (pteBusy (s.mem (vmGetPtEntry s a)) = false → ∃ r, doPageFault s mreg.endAddr a = some r) ∧
    ∀ e t, doPageFault s mreg.endAddr a = some (e, t) →
      (e = .resumed → StackGrown fixed s t L pre mreg post a) ∧ (e = .exited → t = s)

theorem FaultServed.of_run {e : FaultEnd} (hrun : doPageFault s mreg.endAddr a = some (e, t)) :
    FaultServed fixed s L pre mreg post a ↔
      (e = .resumed → StackGrown fixed s t L pre mreg post a) ∧ (e = .exited → t = s) := by
  refine ⟨fun h => h.2 e t hrun, fun h => ⟨fun _ => ⟨_, hrun⟩, fun e' t' hrun' => ?_⟩⟩
  cases hrun.symm.trans hrun'
  exact h

/-- **Stack growth on a page fault.** A fault in the slot of the stack and below its start is dealt with as
    it should be just if another fault on the page is being dealt with, or it is not for a stack, or runs
    into the region before the stack, or finds its pages. -/
theorem doPageFault_grows_stack (h : SpaceOk C base fixed s v) (hr : StackRegion s pre mreg post)
    (ha : a < mreg.startAddr) (haslot : a / 4194304 = mreg.startAddr / 4194304)
    (hfault : ¬ s.Mapped (a / 4096)) (hnf : mreg.startAddr / 4096 ∉ fixed)
    (hcore : CoreOk s.heap.core L) :
    FaultServed fixed s L pre mreg post a ↔
      pteBusy (s.mem (vmGetPtEntry s a)) = true ∨ ¬ MayBeStack s a ∨
      (∃ prev ∈ pre.getLast?, a / 4096 * 4096 ≤ prev.endAddr) ∨ FindsPages L mreg a := by
  have hslot := hr.slot
  have hpage : a / 4096 < mreg.startAddr / 4096 := by
    refine Nat.lt_of_le_of_ne (Nat.div_le_div_right (Nat.le_of_lt ha)) fun he => hfault ?_
    rw [he]
    exact hr.mapped _ (Nat.le_refl _) (Nat.div_le_div_right hr.order)
  cases hbusy : pteBusy (s.mem (vmGetPtEntry s a)) with
  | true =>
    refine iff_of_true ⟨by rw [hbusy]; nofun, fun e t hrun => ?_⟩ (.inl rfl)
    unfold doPageFault at hrun
    rw [if_pos hbusy] at hrun
    cases hrun
  | false =>
    by_cases hstack : MayBeStack s a
    · have hrun := doPageFault_expands hbusy hstack hr haslot
      by_cases hover : ∃ prev ∈ pre.getLast?, a / 4096 * 4096 ≤ prev.endAddr
      · obtain ⟨prev, hlast, hle⟩ := hover
        rw [vmExpandDownRegion_overlaps (s := s.put _ _) hr.regions hr.first hlast hle true true] at hrun
        dsimp only at hrun
        rw [if_pos (by decide), faultLeave_marked hbusy] at hrun
        exact iff_of_true ((FaultServed.of_run hrun).mpr ⟨nofun, fun _ => rfl⟩)
          (.inr (.inr (.inl ⟨prev, hlast, hle⟩)))
      have hfree : ∀ r ∈ pre.getLast?, r.endAddr < a / 4096 * 4096 := fun r hlast =>
        Nat.lt_of_not_le fun hle => hover ⟨r, hlast, hle⟩
      by_cases hfinds : FindsPages L mreg a
      · obtain ⟨t, hexp, hgrown⟩ := vmExpandDownRegion_grows h hr hpage haslot hfree hfinds.1
          hcore hfinds.2 hfault hbusy
        rw [hexp] at hrun
        exact iff_of_true ((FaultServed.of_run hrun).mpr ⟨fun _ => hgrown, nofun⟩)
          (.inr (.inr (.inr hfinds)))
      · obtain ⟨r, t, hexp, hneg, hpos⟩ := vmExpandDownRegion_spoils h hr hpage haslot hstack.2.2 hnf
          hfree hcore hfinds hbusy
        rw [hexp] at hrun
        dsimp only at hrun
        have hcond : ¬ (false = true ∨ ¬ MayBeStack s a ∨
            (∃ prev ∈ pre.getLast?, a / 4096 * 4096 ≤ prev.endAddr) ∨ FindsPages L mreg a) := by
          rintro (hb | hs | ho | hf)
          exacts [Bool.false_ne_true hb, hs hstack, hover ho, hfinds hf]
        refine iff_of_false (fun hserved => ?_) hcond
        by_cases hr0 : r < 0
        · rw [if_pos hr0] at hrun
          exact hneg hr0 (((FaultServed.of_run hrun).mp hserved).2 rfl)
        · rw [if_neg hr0] at hrun
          exact hpos hr0 (((FaultServed.of_run hrun).mp hserved).1 rfl)
    · exact iff_of_true ((FaultServed.of_run (doPageFault_exits hbusy hstack _)).mpr
        ⟨nofun, fun _ => rfl⟩) (.inr (.inl hstack))

end fault

/-! ## Small stacks -/

def segmentTypeStack : Nat := 4

theorem bareStack {s : VmState} {start lend : Nat} (halign : start % 4096 = 0)
    (horder : start ≤ lend) (htop : lend % 4194304 = 4194303)
    (hslot : start / 4194304 = lend / 4194304) (hword : lend < 4294967296)
    (hadd : vmAddRegion bareSpace segmentTypeStack start lend true true = some (0, s))
    (hone : s.regions.map MemRegion.endAddr = [lend]) :
    ∃ C base v mreg L, SpaceOk C base ∅ s v ∧ StackRegion s [] mreg [] ∧
      mreg.startAddr = start ∧ mreg.endAddr = lend ∧ CoreOk s.heap.core L ∧
      ∀ p < start / 4096, ¬ s.Mapped p := by
  obtain ⟨pre, mreg, post, hg, -, ⟨v, hok⟩, hext⟩ := vmAddRegion_grown bareSpace_ok
    halign (by omega) hword (by omega) (by omega) (bareSpace_room _ _) hadd
  obtain ⟨L, hsys⟩ := hok.heap.sys
  have hm := hg.mappedRegion
  rw [hg.regions, List.map_append, List.map_cons] at hone
  obtain ⟨rfl, rfl, hend⟩ : pre = [] ∧ post = [] ∧ mreg.endAddr = lend := by
    cases pre with
    | nil => simpa [and_comm] using hone
    | cons r pre => simp at hone
  have hbelow : ∀ p < start / 4096, ¬ s.Mapped p := by
    intro p hp hmp
    have hlt : p < pageCount := by
      unfold pageCount
      omega
    rcases hext.only p hlt hmp with hb | hnew
    · exact bareSpace_not_mapped hlt hb
    · exact absurd hnew.1 (by omega)
  refine ⟨_, _, v, mreg, L, hok, ⟨hm, by simp, ?_, ?_, ?_, ?_⟩, hg.startAddr, hend, hsys.core, hbelow⟩
  · rw [hg.startAddr, hend]
    exact horder
  · rw [hend]
    exact htop
  · rw [hg.startAddr, hend]
    exact hslot
  · intro p _ hp hmp
    rw [hg.startAddr] at hp
    exact absurd hmp (hbelow p hp)

/-- **A hole in a stack.** The fault is for the page below a stack of one page. The region starts at
    that page now and the thread goes on, but no page was mapped. -/
theorem stack_hole : ∃ C base fixed s v mreg t, SpaceOk C base fixed s v ∧
    StackRegion s [] mreg [] ∧ mreg.startAddr = 0x247ff000 ∧ mreg.endAddr = 0x247fffff ∧
    doPageFault s mreg.endAddr 0x247fe010 = some (.resumed, t) ∧
    t.regions = [{ mreg with startAddr := 0x247fe000 }] ∧ ¬ t.Mapped 0x247fe := by
  obtain ⟨⟨_, s⟩, hadd, rfl, hone, ⟨_, t⟩, hfault, rfl, hregs, hmapped⟩ :
      ∃ r ∈ vmAddRegion bareSpace segmentTypeStack 0x247ff000 0x247fffff true true, r.1 = 0 ∧
        r.2.regions.map MemRegion.endAddr = [0x247fffff] ∧
        ∃ q ∈ doPageFault r.2 0x247fffff 0x247fe010, q.1 = .resumed ∧
          q.2.regions = r.2.regions.map (fun m => { m with startAddr := 0x247fe000 }) ∧
          ¬ q.2.Mapped 0x247fe := by decide +kernel
  obtain ⟨C, base, v, mreg, L, hok, hr, hstart, hend, -⟩ := bareStack (by decide) (by decide)
    (by decide) (by decide) (by decide) hadd hone
  refine ⟨C, base, ∅, s, v, mreg, t, hok, hr, hstart, hend, by rw [hend]; exact hfault, ?_, hmapped⟩
  rw [hregs, hr.regions]
  rfl

theorem CoreOk.coverable_first {s : CoreState} {L : List Blk} {n : Nat} (h : CoreOk s L)
    (h0 : s.firstBlock ≠ 0) (hn : n ≤ noPages s.mem s.firstBlock) : Coverable L 32 n := by
  obtain ⟨ts, hts, rfl⟩ := h.list
  cases ts with
  | nil => exact absurd hts h0
  | cons x ts =>
    obtain ⟨rfl, -, -⟩ := hts
    refine ⟨[blkOf s.mem s.firstBlock], by simp, by simp, by simp, ?_⟩
    show n * 4096 ≤ noPages s.mem s.firstBlock * 4096 + 0
    omega

/-- The theorem at a stack of two pages and a fault in the page below it. -/
theorem doPageFault_twoPages : ∃ fixed s t mreg L, StackRegion s [] mreg [] ∧
    mreg.startAddr = 0x247fe000 ∧ mreg.endAddr = 0x247fffff ∧ CoreOk s.heap.core L ∧
    doPageFault s mreg.endAddr 0x247fd010 = some (.resumed, t) ∧
    StackGrown fixed s t L [] mreg [] 0x247fd010 := by
  obtain ⟨⟨_, s⟩, hadd, rfl, hone, ⟨hblock, hpages⟩, ⟨_, t⟩, hfault, rfl⟩ :
      ∃ r ∈ vmAddRegion bareSpace segmentTypeStack 0x247fe000 0x247fffff true true, r.1 = 0 ∧
        r.2.regions.map MemRegion.endAddr = [0x247fffff] ∧
        (r.2.heap.core.firstBlock ≠ 0 ∧ 0 < noPages r.2.mem r.2.heap.core.firstBlock) ∧
        ∃ q ∈ doPageFault r.2 0x247fffff 0x247fd010, q.1 = .resumed := by decide +kernel
  obtain ⟨C, base, v, mreg, L, hok, hr, hstart, hend, hcore, hbelow⟩ := bareStack (by decide)
    (by decide) (by decide) (by decide) (by decide) hadd hone
  have hcov : Coverable L 32 1 := hcore.coverable_first hblock hpages
  have hfinds : FindsPages L mreg 0x247fd010 := ⟨by rw [hstart, hend], by rw [hstart]; exact hcov⟩
  have hgrows := ((doPageFault_grows_stack (a := 0x247fd010) hok hr (by rw [hstart]; decide)
    (by rw [hstart]) (hbelow _ (by decide)) (Set.notMem_empty _) hcore).mpr (.inr (.inr (.inr hfinds)))).2 _ _
    (by rw [hend]; exact hfault)
  exact ⟨∅, s, t, mreg, L, hr, hstart, hend, hcore, by rw [hend]; exact hfault, hgrows.1 rfl⟩

end AtomOs
