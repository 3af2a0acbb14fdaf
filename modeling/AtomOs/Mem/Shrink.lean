import AtomOs.Mem.Destroy

/-!
# The pages `vm_shrinkregion` gives back

Shrinking a region should unmap the pages that lie wholly above its new end, give their frames back,
and leave the rest alone, so that the region can grow again as if it had never been larger: `Shrunk`.
The source counts these pages rightly, but starts to walk at the old end and walks upwards, so that
what it gives back, if anything, is what lies behind the region, and it never clears an entry.
`shrink_keeps_pages_mapped` is a region of two pages shrunk to one.

Only where there is nothing to release is all well: **`vmShrinkRegion_within_page`** says that the call
does what it is for just if the new end lies in the page of the old end. One direction is that nothing
but the end changes then; the other is that the walk leaves every page table as it is
(`MappedRegion.shrink_keeps`), whatever frames it finds behind the region and gives back.
-/

namespace AtomOs

open Lib

/-! ## What shrinking is for -/

/-- A region between its neighbours, with a segment and a frame for each of its pages. -/
structure MappedRegion (s : VmState) (pre : List MemRegion) (mreg : MemRegion)
    (post : List MemRegion) : Prop where
  regions : s.regions = pre ++ mreg :: post
  before : ∀ r ∈ pre, r.startAddr < mreg.startAddr
  next : ∀ r ∈ post.head?, mreg.endAddr < r.startAddr
  word : mreg.endAddr < 4294967296
  segment : mreg.segment ≠ 0
  shared : 0 < (s.segs mreg.segment).shareCount
  sharedLt : (s.segs mreg.segment).shareCount < 65535
  mapped : ∀ p, mreg.startAddr / 4096 ≤ p → p ≤ mreg.endAddr / 4096 → s.Mapped p

/-- The pages of a region up to `oend` that lie wholly above `newEnd`. -/
def releasedPages (newEnd oend : Nat) : Set Nat := {p | newEnd / 4096 < p ∧ p ≤ oend / 4096}

/-- What `vm_shrinkregion` of `mreg` by `size` is to do, with the free blocks `L` before it and `L'`
    after it. -/
structure Shrunk (s t : VmState) (L L' : List Blk) (mreg : MemRegion) (size : Nat) : Prop where
  unmapped : ∀ p ∈ releasedPages (mreg.endAddr - size) mreg.endAddr, ¬ t.Mapped p
  freed : cover L' = cover L ∪
    {a | ∃ p ∈ releasedPages (mreg.endAddr - size) mreg.endAddr, a ∈ pageAt (s.frame p)}
  kept : ∀ p ≤ (mreg.endAddr - size) / 4096, (t.Mapped p ↔ s.Mapped p) ∧ t.pte p = s.pte p
  -- Growing again fills exactly the pages that were released, from what is free.
  regrown : ∃ u, vmExpandRegion t mreg.startAddr size true true = some (0, u) ∧
    (∀ p ∈ releasedPages (mreg.endAddr - size) mreg.endAddr,
      u.Mapped p ∧ pageAt (u.frame p) ⊆ cover L') ∧
    ∀ p, p ∉ releasedPages (mreg.endAddr - size) mreg.endAddr →
      (u.Mapped p ↔ t.Mapped p) ∧ u.pte p = t.pte p

/-! ## Within a page -/

theorem VmState.entries_congr {s t : VmState} (hheap : t.heap = s.heap) (hpgdir : t.pgdir = s.pgdir)
    (p : Nat) : (t.Mapped p ↔ s.Mapped p) ∧ t.pte p = s.pte p := by
  have hmem : t.mem = s.mem := by
    unfold VmState.mem
    rw [hheap]
  have htab : ∀ i, t.pageTable i = s.pageTable i := by
    intro i
    unfold VmState.pageTable
    rw [hmem, hpgdir]
  have hpte : t.pte p = s.pte p := by
    unfold VmState.pte
    rw [hmem, htab]
  have hpde : ∀ i, t.pde i = s.pde i := by
    intro i
    unfold VmState.pde
    rw [hmem, hpgdir]
  refine ⟨?_, hpte⟩
  unfold VmState.Mapped
  rw [htab, hpte, hpde]

theorem vmReleaseSegment_counted {s : VmState} {mseg c : Nat} (hpos : 0 < c) (hlt : c < 65535)
    (hcount : (s.segs mseg).shareCount = c + 1) :
    ∃ t, vmReleaseSegment s mseg = some t ∧ t.heap = s.heap ∧ t.pgdir = s.pgdir ∧
      t.regions = s.regions ∧ (t.segs mseg).shareCount = c := by
  have hback : (c + 1 + 65535) % 65536 = c := by omega
  unfold vmReleaseSegment
  dsimp only
  rw [hcount, hback, if_neg (by omega)]
  exact ⟨_, rfl, rfl, rfl, rfl, by simp [VmState.setSeg]⟩

theorem vmGetMemSegment_count {s : VmState} {mseg : Nat} (hlt : (s.segs mseg).shareCount < 65535) :
    ((vmGetMemSegment s mseg).segs mseg).shareCount = (s.segs mseg).shareCount + 1 := by
  unfold vmGetMemSegment VmState.setSeg
  simp only [if_true]
  omega

section page

variable {s : VmState} {pre post : List MemRegion} {mreg : MemRegion} {size : Nat}

theorem MappedRegion.splitAtStart (h : MappedRegion s pre mreg post) :
    AtomOs.splitAtStart mreg.startAddr s.regions = some (pre, mreg, post) := by
  rw [h.regions]
  exact splitAtStart_of_sorted mreg post h.before

theorem MappedRegion.shrinkPage (h : MappedRegion s pre mreg post) (hsize : size ≤ mreg.endAddr)
    (hpage : (mreg.endAddr - size) / 4096 = mreg.endAddr / 4096) :
    ∃ t, vmShrinkRegion s mreg.startAddr size = some (0, t) ∧ t.heap = s.heap ∧ t.pgdir = s.pgdir ∧
      t.regions = pre ++ { mreg with endAddr := mreg.endAddr - size } :: post ∧
      (t.segs mreg.segment).shareCount = (s.segs mreg.segment).shareCount := by
  have hword := h.word
  have hend : u32 ((mreg.endAddr : Int) - size) = mreg.endAddr - size :=
    u32_sub hsize (by omega)
  have hnp : u32 ((mreg.endAddr / 4096 * 4096 : Nat) -
      ((mreg.endAddr - size) / 4096 * 4096 : Nat)) / 4096 = 0 := by
    rw [hpage, Int.sub_self]
    rfl
  obtain ⟨t, hrel, hheap, hpgdir, hregs, hcount⟩ := vmReleaseSegment_counted h.shared h.sharedLt
    (@vmGetMemSegment_count
      { s with regions := pre ++ { mreg with endAddr := mreg.endAddr - size } :: post } _ h.sharedLt)
  refine ⟨t, ?_, hheap, hpgdir, hregs, hcount⟩
  unfold vmShrinkRegion
  rw [h.splitAtStart]
  dsimp only
  rw [hend, hnp, if_neg h.segment, if_neg (Nat.lt_irrefl 0)]
  dsimp only
  rw [hrel]
  rfl

theorem MappedRegion.growPage (h : MappedRegion s pre mreg post) (hword : mreg.endAddr + size < 4294967296)
    (hpage : (mreg.endAddr + size) / 4096 = mreg.endAddr / 4096)
    (hnext : ∀ r ∈ post.head?, mreg.endAddr + size < r.startAddr) :
    ∃ u, vmExpandRegion s mreg.startAddr size true true = some (0, u) ∧ u.heap = s.heap ∧
      u.pgdir = s.pgdir := by
  have hend : u32 ((mreg.endAddr : Int) + size) = mreg.endAddr + size :=
    u32_of_lt (x := mreg.endAddr + size) hword
  have hover : ¬ post.head?.any (fun r => decide (r.startAddr ≤ mreg.endAddr + size)) = true := by
    cases hhead : post.head? with
    | none => simp
    | some r =>
      have := hnext r hhead
      simpa using this
  have hslot : mreg.endAddr / 4194304 = (mreg.endAddr + size) / 4194304 := by omega
  have hnp : u32 (((mreg.endAddr + size) / 4096 * 4096 : Nat) -
      (mreg.endAddr / 4096 * 4096 : Nat)) / 4096 = 0 := by
    rw [hpage, Int.sub_self]
    rfl
  obtain ⟨u, hrel, hheap, hpgdir, -⟩ := vmReleaseSegment_counted h.shared h.sharedLt
    (@vmGetMemSegment_count
      { s with regions := pre ++ { mreg with endAddr := mreg.endAddr + size } :: post } _ h.sharedLt)
  refine ⟨u, ?_, hheap, hpgdir⟩
  unfold vmExpandRegion
  rw [h.splitAtStart]
  dsimp only
  rw [hend, if_neg hover, Bool.or_true, if_pos rfl, if_neg h.segment]
  unfold expandSegment expandFrames
  rw [if_neg (not_not_intro hslot)]
  dsimp only
  rw [if_neg (by decide), if_pos rfl, hnp, if_pos rfl]
  dsimp only
  rw [hrel]
  rfl

theorem MappedRegion.shrunk {L : List Blk} (h : MappedRegion s pre mreg post)
    (hcore : CoreOk s.heap.core L) (hsize : size ≤ mreg.endAddr - mreg.startAddr)
    (hpage : (mreg.endAddr - size) / 4096 = mreg.endAddr / 4096) :
    ∃ t L', vmShrinkRegion s mreg.startAddr size = some (0, t) ∧ CoreOk t.heap.core L' ∧
      Shrunk s t L L' mreg size := by
  have hword := h.word
  have hle : size ≤ mreg.endAddr := by omega
  have hnone : ∀ p, p ∉ releasedPages (mreg.endAddr - size) mreg.endAddr := by
    rintro p ⟨h1, h2⟩
    omega
  obtain ⟨t, hrun, hheap, hpgdir, hregs, hcount⟩ := h.shrinkPage hle hpage
  have hsame := VmState.entries_congr hheap hpgdir
  have ht : MappedRegion t pre { mreg with endAddr := mreg.endAddr - size } post := by
    refine ⟨hregs, h.before, fun r hr => ?_, ?_, h.segment, ?_, ?_, fun p h1 h2 => ?_⟩
    · have := h.next r hr
      show mreg.endAddr - size < r.startAddr
      omega
    · show mreg.endAddr - size < 4294967296
      omega
    · exact hcount.symm ▸ h.shared
    · exact hcount.symm ▸ h.sharedLt
    · have h2 : p ≤ (mreg.endAddr - size) / 4096 := h2
      exact (hsame p).1.mpr (h.mapped p h1 (by omega))
  have hback : mreg.endAddr - size + size = mreg.endAddr := Nat.sub_add_cancel hle
  obtain ⟨u, hgrow, hheap', hpgdir'⟩ := @MappedRegion.growPage t pre post
    { mreg with endAddr := mreg.endAddr - size } size ht
    (by rw [hback]; exact hword) (by rw [hback]; exact hpage.symm) (by rw [hback]; exact h.next)
  refine ⟨t, L, hrun, by rw [hheap]; exact hcore, fun p hp => absurd hp (hnone p), ?_,
    fun p _ => hsame p, u, hgrow, fun p hp => absurd hp (hnone p),
    fun p _ => VmState.entries_congr hheap' hpgdir' p⟩
  ext a
  constructor
  · exact .inl
  · rintro (ha | ⟨p, hp, -⟩)
    · exact ha
    · exact absurd hp (hnone p)

end page

/-! ## More than a page

What the loop looks at lies behind the region: `np` pages from its old end on. The frames it finds there
go back to the page allocator, and as long as the page directory and the page tables are not among them
every entry of the address space stays as it is, those of the released pages too. -/

/-- The entries of `n` pages from `cur` on, in slots that have a page table. -/
def entriesBehind (m : Mem) (pgdir : Nat) : Nat → Nat → List Nat
  | 0, _ => []
  | n + 1, cur =>
    let pt := entryBase (m (pgdir + 4 * pdIndex cur)) * 4096
    if pt = 0 then entriesBehind m pgdir n (u32 (cur + 4096))
    else entryBase (m (pt + 4 * ptIndex cur)) :: entriesBehind m pgdir n (u32 (cur + 4096))

/-- The entries that `vm_shrinkregion` looks at. -/
def walked (s : VmState) (mreg : MemRegion) (size : Nat) : List Nat :=
  entriesBehind s.mem s.pgdir (mreg.endAddr / 4096 - (mreg.endAddr - size) / 4096)
    (u32 (mreg.endAddr + 4095) / 4096 * 4096)

/-- The page directory and the page tables lie in `K`. -/
structure TablesIn (s : VmState) (K : Set Nat) : Prop where
  pgdir : pageAt s.pgdir ⊆ K
  tables : ∀ i < 1024, s.pageTable i ≠ 0 → pageAt (s.pageTable i) ⊆ K

section behind

variable {C K : Set Nat} {v : HeapView} {rest : List CoreHeader} {s t : VmState}

theorem TablesIn.pageTable_eq (h : TablesIn s K) {m : Mem} (hm : ∀ a ∈ K, m a = s.mem a) {i : Nat}
    (hi : i < 1024) : entryBase (m (s.pgdir + 4 * i)) * 4096 = s.pageTable i := by
  rw [hm _ (h.pgdir (word_mem_pageAt _ hi))]
  rfl

theorem TablesIn.mapped (h : TablesIn s K) (hm : ∀ a ∈ K, t.mem a = s.mem a) (hpgdir : t.pgdir = s.pgdir)
    {p : Nat} (hp : p < pageCount) (hmapped : s.Mapped p) : t.Mapped p := by
  have hi : p / 1024 < 1024 := by
    unfold pageCount at hp
    omega
  have htable : t.pageTable (p / 1024) = s.pageTable (p / 1024) := by
    rw [VmState.pageTable, hpgdir]
    exact h.pageTable_eq hm hi
  obtain ⟨h0, hpde, hpte⟩ := hmapped
  refine ⟨htable.trans_ne h0, ?_, ?_⟩
  · rwa [VmState.pde, hpgdir, hm _ (h.pgdir (word_mem_pageAt _ hi))]
  · rwa [VmState.pte, htable, hm _ (h.tables _ hi h0 (word_mem_pageAt _ (Nat.mod_lt _ (by decide))))]

/-- **The loop of `vm_shrinkregion`** makes the calls for the entries as they were, if the page tables are
    not among what goes back meanwhile. -/
theorem shrinkFrames_spec (hk : TablesIn s (v.kept rest)) : ∀ {n cur : Nat} {heap : HeapState}
    {r : FrameRun}, (∀ a ∈ v.kept rest, heap.mem a = s.mem a) →
    HeapOk C heap { v with others := runCalls r (entriesBehind s.mem s.pgdir n cur) ++ rest } →
    ∃ core r', shrinkFrames s n cur heap.core r = some (core, r') ∧
      HeapOk C { heap with core := core } { v with others := r'.last ++ rest } ∧
      ∀ a ∈ v.kept rest, core.mem a = s.mem a := by
  intro n
  induction n with
  | zero => exact fun {cur heap r} hkeep h => ⟨heap.core, r, rfl, h, hkeep⟩
  | succ n ih =>
    intro cur heap r hkeep h
    have hi : pdIndex cur < 1024 := Nat.mod_lt _ (by decide)
    have htable : (s.setCore heap.core).pageTable (pdIndex cur) = s.pageTable (pdIndex cur) :=
      hk.pageTable_eq hkeep hi
    have hsplit : entriesBehind s.mem s.pgdir (n + 1) cur =
        if s.pageTable (pdIndex cur) = 0 then entriesBehind s.mem s.pgdir n (u32 (cur + 4096))
        else entryBase (s.mem (s.pageTable (pdIndex cur) + 4 * ptIndex cur)) ::
          entriesBehind s.mem s.pgdir n (u32 (cur + 4096)) := rfl
    rw [hsplit] at h
    unfold shrinkFrames
    dsimp only
    rw [htable]
    by_cases h0 : s.pageTable (pdIndex cur) = 0
    · rw [if_pos h0] at h ⊢
      exact ih hkeep h
    have hentry : heap.core.mem (s.pageTable (pdIndex cur) + 4 * ptIndex cur) =
        s.mem (s.pageTable (pdIndex cur) + 4 * ptIndex cur) :=
      hkeep _ (hk.tables _ hi h0 (word_mem_pageAt _ (Nat.mod_lt _ (by decide))))
    rw [if_neg h0] at h ⊢
    rw [runCalls, List.append_assoc] at h
    obtain ⟨core1, hall, hok1, hkeep1⟩ := h.giveBackAll
    rw [hentry, frameStep_eq]
    have hall : coreFreeAll heap.core
        (r.calls (entryBase (s.mem (s.pageTable (pdIndex cur) + 4 * ptIndex cur)))) = some core1 := hall
    rw [hall, Option.map_some]
    exact @ih _ { heap with core := core1 } _
      (fun a ha => (hkeep1 a (v.kept_append _ rest ha)).trans (hkeep a ha)) hok1

theorem shrinkSegment_spec (hk : TablesIn s (v.kept rest)) {np oend : Nat} (mseg : Nat)
    (h : HeapOk C s.heap { v with
      others := (runCalls ⟨0, 0, 0⟩
        (entriesBehind s.mem s.pgdir np (u32 (oend + 4095) / 4096 * 4096))) ++ rest }) :
    ∃ u, shrinkSegment s mseg np oend = some u ∧ u.pgdir = s.pgdir ∧
      (∀ a ∈ v.kept rest, u.mem a = s.mem a) ∧
      (u.segs mseg).shareCount = (s.segs mseg).shareCount := by
  obtain ⟨core, r, hloop, hok, hkeep⟩ := shrinkFrames_spec hk (fun _ _ => rfl) h
  obtain ⟨core', hlast, -, hkeep'⟩ := hok.giveBackAll
  have hlast : frameEnd core r = some core' := (frameEnd_eq core r).trans hlast
  unfold shrinkSegment
  dsimp only
  rw [hloop]
  dsimp only
  rw [hlast]
  refine ⟨_, rfl, rfl, fun a ha => (hkeep' a ha).trans (hkeep a ha), ?_⟩
  simp [VmState.setSeg, VmState.setCore]

variable {pre post : List MemRegion} {mreg : MemRegion} {size : Nat}

/-- **Shrinking by pages unmaps none.** -/
theorem MappedRegion.shrink_keeps (h : MappedRegion s pre mreg post) (hsize : size ≤ mreg.endAddr)
    (hpage : (mreg.endAddr - size) / 4096 < mreg.endAddr / 4096)
    (hok : HeapOk C s.heap { v with others := runCalls ⟨0, 0, 0⟩ (walked s mreg size) ++ rest })
    (hk : TablesIn s (v.kept rest)) (hrun : vmShrinkRegion s mreg.startAddr size = some (0, t))
    {p : Nat} (hp : p < pageCount) (hmapped : s.Mapped p) : t.Mapped p := by
  have hword := h.word
  have hend : u32 ((mreg.endAddr : Int) - size) = mreg.endAddr - size := u32_sub hsize (by omega)
  have hnp : u32 ((mreg.endAddr / 4096 * 4096 : Nat) - ((mreg.endAddr - size) / 4096 * 4096 : Nat)) /
      4096 = mreg.endAddr / 4096 - (mreg.endAddr - size) / 4096 := by
    rw [u32_sub (by omega) (by omega)]
    omega
  obtain ⟨u, hshrink, hpgdir, hkeep, hcount⟩ := shrinkSegment_spec
    (s := vmGetMemSegment
      { s with regions := pre ++ { mreg with endAddr := mreg.endAddr - size } :: post } mreg.segment)
    (TablesIn.mk hk.pgdir hk.tables) mreg.segment hok
  obtain ⟨t', hrel, hheap, hpgdir', -⟩ := vmReleaseSegment_counted h.shared h.sharedLt
    (hcount.trans (vmGetMemSegment_count h.sharedLt))
  have hcall : vmShrinkRegion s mreg.startAddr size = some (0, t') := by
    unfold vmShrinkRegion
    rw [h.splitAtStart]
    dsimp only
    rw [hend, hnp, if_neg h.segment, if_pos (by omega), hshrink]
    dsimp only
    rw [hrel]
    rfl
  obtain rfl : t' = t := congrArg Prod.snd (Option.some.inj (hcall.symm.trans hrun))
  refine hk.mapped (fun a ha => ?_) (hpgdir'.trans hpgdir) hp hmapped
  rw [VmState.mem, hheap]
  exact hkeep a ha

/-- **`vm_shrinkregion` does what it is for** just if the new end lies in the page of the old one, so that
    there is nothing to release. Otherwise the page of the old end is to be released, and stays mapped:
    whatever lies behind the region, as long as the frames there are handed out and the page tables are
    not among them. -/
theorem vmShrinkRegion_within_page {L : List Blk} (h : MappedRegion s pre mreg post)
    (hcore : CoreOk s.heap.core L) (hsize : size ≤ mreg.endAddr - mreg.startAddr)
    (hok : HeapOk C s.heap { v with others := runCalls ⟨0, 0, 0⟩ (walked s mreg size) ++ rest })
    (hk : TablesIn s (v.kept rest)) :
    (∃ t L', vmShrinkRegion s mreg.startAddr size = some (0, t) ∧ CoreOk t.heap.core L' ∧
      Shrunk s t L L' mreg size) ↔ (mreg.endAddr - size) / 4096 = mreg.endAddr / 4096 := by
  refine ⟨?_, h.shrunk hcore hsize⟩
  rintro ⟨t, L', hrun, -, hshrunk⟩
  by_contra hne
  have hword := h.word
  have hpage : (mreg.endAddr - size) / 4096 < mreg.endAddr / 4096 := by omega
  have hmapped : s.Mapped (mreg.endAddr / 4096) := h.mapped _ (by omega) le_rfl
  refine hshrunk.unmapped _ ⟨hpage, le_rfl⟩ ?_
  exact h.shrink_keeps (by omega) hpage hok hk hrun (by unfold pageCount; omega) hmapped

end behind

/-! ## A region of two pages -/

theorem Grown.mappedRegion {s : VmState} {start : Nat} {pre post : List MemRegion} {mreg : MemRegion}
    (h : Grown s start pre mreg post) : MappedRegion s pre mreg post := by
  have hstart := h.startAddr
  have hbelow := h.below
  refine ⟨h.regions, fun r hr => hstart ▸ h.before r hr, fun r hr => h.next r (List.mem_of_head? hr),
    by omega, h.segment, by rw [h.shareCount]; decide, by rw [h.shareCount]; decide,
    fun p h1 h2 => h.mapped p (by omega) (by omega)⟩

theorem SpaceOk.tablesIn {C base fixed : Set Nat} {s : VmState} {v : HeapView}
    (h : SpaceOk C base fixed s v) : TablesIn s (v.kept v.others) := by
  have howned : v.owned ⊆ v.kept v.others := by
    intro a ha
    unfold HeapView.kept
    rw [List.map_append, List.map_append, cover_append, cover_append]
    exact .inr (.inr ha)
  exact ⟨(h.pgdir.trans h.baseOwned).trans howned,
    fun i hi h0 => (h.table i hi h0).2.1.trans howned⟩

theorem twoPages {s : VmState}
    (hadd : vmAddRegion bareSpace segmentTypeData 0x24000000 0x24001fff true true = some (0, s))
    (hend : regionEnd s 0x24000000 = some 0x24001fff) :
    ∃ pre mreg post C base fixed v, MappedRegion s pre mreg post ∧ mreg.startAddr = 0x24000000 ∧
      mreg.endAddr = 0x24001fff ∧ SpaceOk C base fixed s v := by
  obtain ⟨pre, mreg, post, hg, -, ⟨v, hok⟩, -⟩ := vmAddRegion_grown bareSpace_ok (by decide)
    (by decide) (by decide) (by decide) (by decide) (bareSpace_room _ _) hadd
  rw [hg.regionEnd] at hend
  exact ⟨pre, mreg, post, _, _, _, v, hg.mappedRegion, hg.startAddr, Option.some.inj hend, hok⟩

/-- The theorem at these, shrunk by 16 bytes. -/
theorem vmShrinkRegion_twoPages : ∃ s t pre mreg post L L', MappedRegion s pre mreg post ∧
    CoreOk s.heap.core L ∧ mreg.endAddr = 0x24001fff ∧
    vmShrinkRegion s mreg.startAddr 16 = some (0, t) ∧ CoreOk t.heap.core L' ∧
    Shrunk s t L L' mreg 16 := by
  obtain ⟨⟨_, s⟩, hadd, rfl, hend⟩ :
      ∃ r ∈ vmAddRegion bareSpace segmentTypeData 0x24000000 0x24001fff true true, r.1 = 0 ∧
        regionEnd r.2 0x24000000 = some 0x24001fff := by decide +kernel
  obtain ⟨pre, mreg, post, C, base, fixed, v, hm, hstart, hend', hok⟩ := twoPages hadd hend
  obtain ⟨L, hsys⟩ := hok.heap.sys
  have hnone : walked s mreg 16 = [] := by
    rw [walked, hend']
    rfl
  have hsize : 16 ≤ mreg.endAddr - mreg.startAddr := by
    rw [hstart, hend']
    decide
  obtain ⟨t, L', hshrink, hcore', hshrunk⟩ := (vmShrinkRegion_within_page (v := v) hm hsys.core hsize
    (by rw [hnone]; exact hok.heap) hok.tablesIn).mpr (by rw [hend'])
  exact ⟨s, t, pre, mreg, post, L, L', hm, hsys.core, hend', hshrink, hcore', hshrunk⟩

/-- **A page that stays mapped.** Shrunk by a page, the region ends in its first page, but the
    second one is still there. -/
theorem shrink_keeps_pages_mapped : ∃ s t pre mreg post, MappedRegion s pre mreg post ∧
    mreg.startAddr = 0x24000000 ∧ mreg.endAddr = 0x24001fff ∧
    vmShrinkRegion s mreg.startAddr 0x1000 = some (0, t) ∧
    0x24001 ∈ releasedPages (mreg.endAddr - 0x1000) mreg.endAddr ∧ t.Mapped 0x24001 := by
  obtain ⟨⟨_, s⟩, hadd, rfl, hend, ⟨_, t⟩, hshrink, rfl, hmapped⟩ :
      ∃ r ∈ vmAddRegion bareSpace segmentTypeData 0x24000000 0x24001fff true true, r.1 = 0 ∧
        regionEnd r.2 0x24000000 = some 0x24001fff ∧
        ∃ q ∈ vmShrinkRegion r.2 0x24000000 0x1000, q.1 = 0 ∧ q.2.Mapped 0x24001 := by
    decide +kernel
  obtain ⟨pre, mreg, post, -, -, -, -, hm, hstart, hend', -⟩ := twoPages hadd hend
  refine ⟨s, t, pre, mreg, post, hm, hstart, hend', by rw [hstart]; exact hshrink, ?_, hmapped⟩
  rw [hend']
  exact ⟨by decide, by decide⟩

end AtomOs
