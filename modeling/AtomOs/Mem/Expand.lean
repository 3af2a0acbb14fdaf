import AtomOs.Mem.SpaceOps

/-!
# The pages of a region that grows

A region is added with memory and then expanded again and again. `mreg_endaddr` is the address of
its last byte. **`region_pages_follow_end`** says that every page of `[start, end]` is mapped in
every state of such a run, that no entry is ever replaced, and that every page taken is accounted
for, as long as no end that is the first byte of a page is expanded past that page. An expansion
counts new pages from the page of the old end, but maps from the old end rounded upwards, and for
such an end these are the same page: its entry is replaced, and the last page stays without one
(`expand_loses_page`).
-/

namespace AtomOs

open Lib List

variable {C base fixed : Set Nat} {a lend mseg start type : Nat} {mreg : MemRegion}
  {post pre : List MemRegion} {s t : VmState} {v : HeapView}

/-! ## The run -/

def regionEnd (s : VmState) (start : Nat) : Option Nat :=
  (s.regions.find? fun r => r.startAddr == start).map MemRegion.endAddr

/-- An expansion: by how much, and the flag that asks for page tables alone. -/
structure Growth where
  size : Nat
  pgflag : Bool

/-- A successful expansion with memory. -/
def growStep (start : Nat) (s : VmState) (g : Growth) : Option VmState :=
  match vmExpandRegion s start g.size g.pgflag true with
  | some (ret, t) => if ret = 0 then some t else none
  | none => none

/-- The region does not get round the end of the address space, and its end is not the first byte
    of a page, unless it stays in that page. -/
def GrowOk (start : Nat) (s : VmState) (g : Growth) : Prop :=
  ∀ e ∈ regionEnd s start, e + g.size < 4294967296 ∧
    (e % 4096 ≠ 0 ∨ (e + g.size) / 4096 = e / 4096)

instance (start : Nat) (s : VmState) (g : Growth) : Decidable (GrowOk start s g) :=
  inferInstanceAs (Decidable (∀ e ∈ regionEnd s start, _))

/-- There is room for the region: regions start at page boundaries, none lies in `[start, lend]`, and
    what is mapped from `start` on belongs to a region that starts behind it. -/
structure Room (s : VmState) (start lend : Nat) : Prop where
  sorted : s.regions.Pairwise fun r q => r.startAddr < q.startAddr
  aligned : ∀ r ∈ s.regions, r.startAddr % 4096 = 0
  apart : ∀ r ∈ s.regions, r.startAddr < start ∨ start < r.startAddr ∧ lend < r.startAddr
  behind : ∀ p < pageCount, start / 4096 ≤ p → s.Mapped p →
    ∃ r ∈ s.regions, start < r.startAddr ∧ r.startAddr / 4096 ≤ p

/-- The invariant: the region between its neighbours, with a page table for each of its slots and a
    frame for each of its pages. -/
structure Grown (s : VmState) (start : Nat) (pre : List MemRegion) (mreg : MemRegion)
    (post : List MemRegion) : Prop where
  regions : s.regions = pre ++ mreg :: post
  before : ∀ r ∈ pre, r.startAddr < start
  startAddr : mreg.startAddr = start
  next : ∀ r ∈ post, mreg.endAddr < r.startAddr
  sorted : post.Pairwise fun r q => r.startAddr < q.startAddr
  aligned : ∀ r ∈ post, r.startAddr % 4096 = 0
  segment : mreg.segment ≠ 0
  shareCount : (s.segs mreg.segment).shareCount = 1
  below : mreg.endAddr < 0xFFC00000
  order : start ≤ mreg.endAddr + 1
  tables : ∀ i < 1024, start / 4194304 ≤ i → i * 4194304 ≤ mreg.endAddr → s.pageTable i ≠ 0
  mapped : ∀ p, start / 4096 ≤ p → p * 4096 ≤ mreg.endAddr → s.Mapped p
  behind : ∀ p < pageCount, mreg.endAddr / 4096 < p → s.Mapped p →
    ∃ r ∈ post, r.startAddr / 4096 ≤ p

theorem SpaceOk.pgdir_mem
    (h : SpaceOk C base fixed s v) : s.pgdir ∈ base := h.pgdir (self_mem_pageAt _)

theorem Grown.splitAtStart (h : Grown s start pre mreg post) :
    AtomOs.splitAtStart start s.regions = some (pre, mreg, post) := by
  have hbefore : ∀ r ∈ pre, r.startAddr < mreg.startAddr := fun r hr => by
    rw [h.startAddr]
    exact h.before r hr
  have hsplit := splitAtStart_of_sorted mreg post hbefore
  rw [h.startAddr] at hsplit
  rw [h.regions]
  exact hsplit

theorem Grown.regionEnd
    (h : Grown s start pre mreg post) : AtomOs.regionEnd s start = some mreg.endAddr := by
  unfold AtomOs.regionEnd
  have hpre : pre.find? (fun r => r.startAddr == start) = none := by
    refine find?_eq_none.mpr fun r hr => ?_
    have := h.before r hr
    simp only [beq_iff_eq]
    omega
  rw [h.regions, find?_append, hpre, find?_cons_of_pos (by simp [h.startAddr])]
  rfl

/-! ## One expansion -/

/-- The pages an expansion from `oend` to `lend` adds. -/
def newPages (oend lend : Nat) : Set Nat := {p | oend / 4096 < p ∧ p ≤ lend / 4096}

structure Mapping (C base fixed : Set Nat) (s t : VmState) (new : Set Nat) : Prop where
  ok : ∃ v, SpaceOk C base fixed t v
  ext : Extends fixed s t new
  mapped : ∀ p ∈ new, t.Mapped p
  regions : SameRegions s t

/-- **The frames of an expansion**, if its end was not the first byte of a page. -/
theorem expandFrames_spec {rw oend : Nat} (h : SpaceOk C base fixed s v) (hle : oend ≤ lend)
    (hlow : lend < 0xFFC00000) (hend : oend % 4096 ≠ 0 ∨ lend / 4096 = oend / 4096)
    (hvac : ∀ p ∈ newPages oend lend, s.pageTable (p / 1024) ≠ 0 ∧ ¬ s.Mapped p)
    (hrun : expandFrames s rw oend lend = some (0, t)) :
    Mapping C base fixed s t (newPages oend lend) := by
  have hnp : u32 ((lend / 4096 * 4096 : Nat) - (oend / 4096 * 4096 : Nat)) / 4096 =
      lend / 4096 - oend / 4096 := by
    unfold u32
    omega
  unfold expandFrames at hrun
  dsimp only at hrun
  rw [hnp] at hrun
  split at hrun
  · rename_i hzero
    cases hrun
    have hempty : ∀ p, p ∉ newPages oend lend := fun p hp => by
      obtain ⟨h1, h2⟩ := hp
      omega
    exact ⟨⟨v, h⟩, Extends.refl _ _ _, fun p hp => absurd hp (hempty p), SameRegions.refl s⟩
  rename_i hpos
  split at hrun
  · cases hrun
  · simp only [Option.some.injEq, Prod.mk.injEq] at hrun
    exact absurd hrun.1 (by decide)
  rename_i chs core halloc
  simp only [Option.some.injEq, Prod.mk.injEq, true_and] at hrun
  subst hrun
  -- The pages start behind that of the old end.
  have hset : {p | (oend + 4095) / 4096 ≤ p ∧ p < (oend + 4095) / 4096 + (lend / 4096 - oend / 4096)} =
      newPages oend lend := by
    ext p
    simp only [newPages, Set.mem_ofPred_eq]
    omega
  have hvac' : Vacant s ((oend + 4095) / 4096) (lend / 4096 - oend / 4096) := fun p h1 h2 =>
    hvac p ⟨by omega, by omega⟩
  obtain ⟨v', hmap, -⟩ := mapAllocated_spec rw h halloc (by omega) hvac'
  refine ⟨⟨v', hmap.ok⟩, ?_, fun p hp => ?_, hmap.regions⟩
  · rw [← hset]
    exact hmap.ext
  · rw [← hset] at hp
    exact hmap.mapped p hp.1 hp.2

/-- **Page tables and frames of an expansion.** -/
theorem expandSegment_spec {oend : Nat} (h : SpaceOk C base fixed s v)
    (hstart : mreg.startAddr ≤ oend + 1) (hle : oend ≤ mreg.endAddr)
    (hword : mreg.endAddr < 4294967296) (hlow : oend < 0xFFC00000)
    (hend : oend % 4096 ≠ 0 ∨ mreg.endAddr / 4096 = oend / 4096)
    (htabs : ∀ i < 1024, mreg.startAddr / 4194304 ≤ i → i * 4194304 ≤ oend → s.pageTable i ≠ 0)
    (hnone : ∀ p ∈ newPages oend mreg.endAddr, ¬ s.Mapped p)
    (hrun : expandSegment s mreg oend true = some (0, t)) :
    Mapping C base fixed s t (newPages oend mreg.endAddr) ∧ mreg.endAddr < 0xFFC00000 ∧
      ∀ i < 1024, mreg.startAddr / 4194304 ≤ i → i * 4194304 ≤ mreg.endAddr →
        t.pageTable i ≠ 0 := by
  unfold expandSegment at hrun
  dsimp only at hrun
  split at hrun
  · cases hrun
  rename_i ret s1 hs1
  split at hrun
  · simp only [Option.some.injEq, Prod.mk.injEq] at hrun
    exact absurd hrun.1 (by decide)
  rename_i hret
  obtain ⟨hlow', v1, hok, hext, hsame, htabs1⟩ : mreg.endAddr < 0xFFC00000 ∧
      ∃ v1, SpaceOk C base fixed s1 v1 ∧ Extends fixed s s1 ∅ ∧ SameRegions s s1 ∧
        ∀ i < 1024, mreg.startAddr / 4194304 ≤ i → i * 4194304 ≤ mreg.endAddr →
          s1.pageTable i ≠ 0 := by
    split at hs1
    · obtain ⟨hlow', v1, hok, hext, hsame, htabs1⟩ := expandTables_spec h h.pgdir_mem (by omega)
        (Nat.mul_mod_left _ _) hs1 (by omega)
      refine ⟨hlow', v1, hok, hext, hsame, fun i hi h1 h2 => htabs1 i hi ?_ h2⟩
      rw [Nat.mul_div_cancel _ (by decide)]
      exact h1
    · rename_i hslot
      cases hs1
      refine ⟨by omega, v, h, Extends.refl _ _ _, SameRegions.refl s, fun i hi h1 h2 => ?_⟩
      exact htabs i hi h1 (by omega)
  have hvac : ∀ p ∈ newPages oend mreg.endAddr, s1.pageTable (p / 1024) ≠ 0 ∧ ¬ s1.Mapped p := by
    intro p hp
    obtain ⟨h1, h2⟩ := hp
    refine ⟨htabs1 _ (by omega) (by omega) (by omega), fun hc => ?_⟩
    rcases hext.only p (by unfold pageCount; omega) hc with hc | hc
    · exact hnone p ⟨h1, h2⟩ hc
    · exact hc.elim
  have hmap := expandFrames_spec hok hle hlow' hend hvac hrun
  refine ⟨⟨hmap.ok, (hext.none _).trans hmap.ext, hmap.mapped, hsame.trans hmap.regions⟩, hlow',
    fun i hi h1 h2 => ?_⟩
  rw [hmap.ext.tables i hi (htabs1 i hi h1 h2)]
  exact htabs1 i hi h1 h2

theorem vmReleaseSegment_shared
    (hcount : (s.segs mseg).shareCount = 2) (hrun : vmReleaseSegment s mseg = some t) :
    t.heap = s.heap ∧ t.pgdir = s.pgdir ∧ (t.segs mseg).shareCount = 1 := by
  unfold vmReleaseSegment at hrun
  dsimp only at hrun
  rw [hcount, if_neg (by decide)] at hrun
  cases hrun
  exact ⟨rfl, rfl, by simp [VmState.setSeg]⟩

/-- **One expansion** keeps the invariant and every entry that was there. -/
theorem Grown.step (hg : Grown s start pre mreg post) (h : SpaceOk C base fixed s v) {g : Growth}
    (hok : GrowOk start s g) (hrun : growStep start s g = some t) :
    Grown t start pre { mreg with endAddr := mreg.endAddr + g.size } post ∧
      (∃ v', SpaceOk C base fixed t v') ∧
      Extends fixed s t (newPages mreg.endAddr (mreg.endAddr + g.size)) := by
  obtain ⟨hword, hend⟩ := hok mreg.endAddr hg.regionEnd
  have hendAddr : u32 (mreg.endAddr + g.size) = mreg.endAddr + g.size := by
    unfold u32
    omega
  unfold growStep at hrun
  split at hrun
  rotate_left
  · cases hrun
  rename_i ret t' hcall
  split at hrun
  rotate_left
  · cases hrun
  rename_i hret
  cases hrun
  subst hret
  -- The end does not reach the next region.
  have hnext : ∀ r ∈ post, mreg.endAddr + g.size < r.startAddr := by
    rcases vmExpandRegion_regions hg.splitAtStart hcall with ⟨hneg, -⟩ | ⟨-, hfree⟩
    · exact absurd hneg (by decide)
    rw [hendAddr] at hfree
    intro r hr
    cases hpost : post with
    | nil => simp [hpost] at hr
    | cons n rest =>
      rw [hpost] at hr hfree
      have hn := hfree n rfl
      rcases mem_cons.mp hr with rfl | hr
      · exact hn
      · have hsort := hg.sorted
        rw [hpost] at hsort
        exact Nat.lt_trans hn ((pairwise_cons.mp hsort).1 r hr)
  unfold vmExpandRegion at hcall
  rw [hg.splitAtStart] at hcall
  dsimp only at hcall
  rw [hendAddr] at hcall
  split at hcall
  · simp only [Option.some.injEq, Prod.mk.injEq] at hcall
    exact absurd hcall.1 (by decide)
  rw [Bool.or_true, if_pos rfl, if_neg hg.segment] at hcall
  split at hcall
  · cases hcall
  rename_i ret s2 hs2
  obtain ⟨t', hrel, heq⟩ := Option.map_eq_some_iff.mp hcall
  cases heq
  -- The state in which the segment is held.
  generalize hs1 : vmGetMemSegment { s with regions := pre ++
    { mreg with endAddr := mreg.endAddr + g.size } :: post } mreg.segment = s1 at hs2
  obtain ⟨hheap1, hpgdir1, hregs1, hcount1⟩ : s1.heap = s.heap ∧ s1.pgdir = s.pgdir ∧
      s1.regions = pre ++ { mreg with endAddr := mreg.endAddr + g.size } :: post ∧
      (s1.segs mreg.segment).shareCount = 2 := by
    rw [← hs1]
    refine ⟨rfl, rfl, rfl, ?_⟩
    simp [vmGetMemSegment, VmState.setSeg, hg.shareCount]
  obtain ⟨hok1, hext1, htab1⟩ := h.reheap hheap1 hpgdir1
  have hnone : ∀ p ∈ newPages mreg.endAddr (mreg.endAddr + g.size), ¬ s1.Mapped p := by
    intro p hp hm
    obtain ⟨h1, h2⟩ := hp
    have hlt : p < pageCount := by
      unfold pageCount
      omega
    rcases hext1.only p hlt hm with hm | hm
    · obtain ⟨r, hr, hrp⟩ := hg.behind p hlt h1 hm
      have := hnext r hr
      have := hg.aligned r hr
      omega
    · exact hm.elim
  have horder : mreg.startAddr ≤ mreg.endAddr + 1 := by
    rw [hg.startAddr]
    exact hg.order
  have htabs : ∀ i < 1024, mreg.startAddr / 4194304 ≤ i → i * 4194304 ≤ mreg.endAddr →
      s1.pageTable i ≠ 0 := by
    intro i hi h1 h2
    rw [htab1 i hi]
    rw [hg.startAddr] at h1
    exact hg.tables i hi h1 h2
  obtain ⟨hmap, hlow, htabs2⟩ := @expandSegment_spec C base fixed
    { mreg with endAddr := mreg.endAddr + g.size } s1 s2 v mreg.endAddr hok1 horder
    (Nat.le_add_right _ _) hword hg.below hend htabs hnone hs2
  obtain ⟨v2, hok2⟩ := hmap.ok
  obtain ⟨hheap3, hpgdir3, hcount3⟩ := vmReleaseSegment_shared
    ((hmap.regions.shareCount _).trans hcount1) hrel
  obtain ⟨hok3, hext3, htab3⟩ := hok2.reheap hheap3 hpgdir3
  have hext : Extends fixed s t (newPages mreg.endAddr (mreg.endAddr + g.size)) :=
    ((hext1.none _).trans hmap.ext).trans (hext3.none _)
  refine ⟨⟨?_, hg.before, hg.startAddr, hnext, hg.sorted, hg.aligned, hg.segment, hcount3, hlow, ?_,
    fun i hi h1 h2 => ?_, fun p h1 h2 => ?_, fun p hp h1 hm => ?_⟩, ⟨v2, hok3⟩, hext⟩
  · rw [vmReleaseSegment_regions hrel, hmap.regions.regions, hregs1]
  · exact Nat.le_trans hg.order (by simp)
  · rw [htab3 i hi]
    rw [← hg.startAddr] at h1
    exact htabs2 i hi h1 h2
  · have hlt : p < pageCount := by
      unfold pageCount
      omega
    by_cases hold : p * 4096 ≤ mreg.endAddr
    · exact (hext.entries p hlt (hg.mapped p h1 hold)).1
    · dsimp only at h2
      exact (hext3.entries p hlt (hmap.mapped p ⟨by omega, by dsimp only; omega⟩)).1
  · dsimp only at h1
    rcases hext.only p hp hm with hm | hm
    · exact hg.behind p hp (by omega) hm
    · have := hm.2
      omega

/-! ## The first end -/

theorem insertRegion_split (mreg : MemRegion) : ∀ (rs : List MemRegion),
    rs.Pairwise (fun r q => r.startAddr < q.startAddr) →
    ∃ pre post, insertRegion mreg rs = pre ++ mreg :: post ∧ rs = pre ++ post ∧
      (∀ r ∈ pre, r.startAddr < mreg.startAddr) ∧ ∀ r ∈ post, mreg.startAddr ≤ r.startAddr
  | [], _ => ⟨[], [], rfl, rfl, by simp, by simp⟩
  | r :: rs, hsort => by
    obtain ⟨hr, hrest⟩ := pairwise_cons.mp hsort
    unfold insertRegion
    split
    · rename_i hlt
      obtain ⟨pre, post, hins, hrs, hpre, hpost⟩ := insertRegion_split mreg rs hrest
      refine ⟨r :: pre, post, ?_, ?_, forall_mem_cons.mpr ⟨hlt, hpre⟩, hpost⟩
      · rw [hins]
        rfl
      · rw [hrs]
        rfl
    · rename_i hlt
      refine ⟨[], r :: rs, rfl, rfl, by simp, forall_mem_cons.mpr ⟨Nat.le_of_not_lt hlt, ?_⟩⟩
      intro q hq
      have := hr q hq
      omega

/-- What a successful `vm_creatememsegment` with memory has done. The function that makes the page
    tables is a variable here: to compare two terms that call it, the kernel would unfold its 1025
    rounds. -/
theorem vmCreateMemSegment_cases {f : VmState → Nat → Nat → Nat → Nat → Option (Int × VmState)}
    (hf : vmExpandPageTables = f)
    (hrun : vmCreateMemSegment s start lend type true = some (mseg, t)) (hmseg : mseg ≠ 0) :
    ∃ heap ret s2 chs core, kmalloc s.heap 44 = some (mseg, heap) ∧
      f (VmState.setSeg { s with heap := heap } mseg
        ⟨1, u32 ((u32 (lend + 4095) / 4096 : Nat) - (start / 4096 : Nat)), 0⟩) mseg start lend
          (regionRw type) = some (ret, s2) ∧ 0 ≤ ret ∧
      coreAllocN s2.heap.core (i32 (u32 ((u32 (lend + 4095) / 4096 : Nat) - (start / 4096 : Nat)))) =
        some (some chs, core) ∧
      t = mapFrames (regionRw type) chs start (s2.setCore core) := by
  unfold vmCreateMemSegment at hrun
  rw [hf] at hrun
  split at hrun
  · cases hrun
  rename_i ptr heap hmalloc
  extract_lets npages s1 at hrun
  split at hrun
  · cases hrun
  rename_i ret s2 hs2
  split at hrun
  · obtain ⟨_, -, heq⟩ := Option.map_eq_some_iff.mp hrun
    cases heq
    exact absurd rfl hmseg
  rename_i hret
  rw [if_pos rfl] at hrun
  split at hrun
  · cases hrun
  · obtain ⟨_, -, heq⟩ := Option.map_eq_some_iff.mp hrun
    cases heq
    exact absurd rfl hmseg
  rename_i chs core halloc
  cases hrun
  exact ⟨heap, ret, s2, chs, core, hmalloc, hs2, by omega, halloc, rfl⟩

section added

variable (h : SpaceOk C base fixed s v) (halign : start % 4096 = 0) (hstart : start < 4294967296)
  (hword : lend < 4294967296) (horder : start ≤ lend + 1) (hend : lend % 4096 ≠ 0)
include h halign hstart hword horder hend

/-- **A segment with memory** for a region whose end is not the first byte of a page. -/
theorem vmCreateMemSegment_spec (hnone : ∀ p, start / 4096 ≤ p → p ≤ lend / 4096 → ¬ s.Mapped p)
    (hrun : vmCreateMemSegment s start lend type true = some (mseg, t)) (hmseg : mseg ≠ 0) :
    (∃ v', SpaceOk C base fixed t v') ∧ lend < 0xFFC00000 ∧
      Extends fixed s t {p | start / 4096 ≤ p ∧ p ≤ lend / 4096} ∧
      (∀ p, start / 4096 ≤ p → p ≤ lend / 4096 → t.Mapped p) ∧
      (∀ i < 1024, start / 4194304 ≤ i → i * 4194304 ≤ lend → t.pageTable i ≠ 0) ∧
      (t.segs mseg).shareCount = 1 ∧ t.regions = s.regions := by
  obtain ⟨heap, ret, s2, chs, core, hmalloc, hs2, hret, halloc, rfl⟩ :=
    vmCreateMemSegment_cases rfl hrun hmseg
  generalize hnpages : u32 ((u32 (lend + 4095) / 4096 : Nat) - (start / 4096 : Nat)) = npages
    at hs2 halloc
  obtain ⟨_, _, v1, hmalloc', hok1, -, hext1, -⟩ := h.kmalloc (by decide : 0 < 44)
  cases hmalloc.symm.trans hmalloc'
  generalize hs1 : VmState.setSeg { s with heap := heap } mseg ⟨1, npages, 0⟩ = s1 at hs2
  obtain ⟨hheap1, hpgdir1, hregs1, hcount1⟩ : s1.heap = heap ∧ s1.pgdir = s.pgdir ∧
      s1.regions = s.regions ∧ (s1.segs mseg).shareCount = 1 := by
    rw [← hs1]
    exact ⟨rfl, rfl, rfl, by simp [VmState.setSeg]⟩
  obtain ⟨hok2, hext2, -⟩ := hok1.reheap (t := s1) hheap1 hpgdir1
  obtain ⟨hlow, v3, hok3, hext3, hsame3, htabs3⟩ := expandTables_spec hok2 hok2.pgdir_mem (by omega)
    (Nat.mul_mod_left _ _) hs2 (by omega)
  rw [Nat.mul_div_cancel _ (by decide)] at htabs3
  have hnp : npages = lend / 4096 + 1 - start / 4096 := by
    rw [← hnpages]
    unfold u32
    omega
  rw [i32_of_range (by omega) (by omega)] at halloc
  have hext : Extends fixed s s2 ∅ := (hext1.trans hext2).trans hext3
  have hvac : Vacant s2 ((start + 4095) / 4096) npages := by
    intro p h1 h2
    refine ⟨htabs3 _ (by omega) (by omega) (by omega), fun hc => ?_⟩
    rcases hext.only p (by unfold pageCount; omega) hc with hc | hc
    · exact hnone p (by omega) (by omega) hc
    · exact hc.elim
  obtain ⟨v4, hmap, -⟩ := mapAllocated_spec (regionRw type) hok3 halloc (by omega) hvac
  refine ⟨⟨v4, hmap.ok⟩, hlow, ?_, fun p h1 h2 => hmap.mapped p (by omega) (by omega),
    fun i hi h1 h2 => ?_, ?_, ?_⟩
  · refine (hext.none _).trans (hmap.ext.mono fun p hp => ?_)
    obtain ⟨h1, h2⟩ := hp
    exact ⟨by omega, by omega⟩
  · rw [hmap.tables i hi]
    exact htabs3 i hi h1 h2
  · rw [hmap.regions.shareCount]
    exact (hsame3.shareCount _).trans hcount1
  · rw [hmap.regions.regions]
    exact hsame3.regions.trans hregs1

/-- **Adding the region** starts the run: it stands between its neighbours with all its pages. -/
theorem vmAddRegion_grown (hroom : Room s start lend)
    (hadd : vmAddRegion s type start lend true true = some (0, t)) :
    ∃ pre mreg post, Grown t start pre mreg post ∧
      (∀ r ∈ s.regions, start < r.startAddr → r ∈ post) ∧ (∃ v', SpaceOk C base fixed t v') ∧
      Extends fixed s t {p | start / 4096 ≤ p ∧ p ≤ lend / 4096} := by
  obtain ⟨mptr, heap, v1, hmalloc, hok1, -, hext1, htab1⟩ := h.kmalloc (by decide : 0 < 48)
  unfold vmAddRegion at hadd
  rw [hmalloc] at hadd
  dsimp only at hadd
  split at hadd
  · cases hadd
  rw [if_neg (by decide)] at hadd
  split at hadd
  · cases hadd
  rename_i mseg s2 hseg
  split at hadd
  · obtain ⟨_, -, heq⟩ := Option.map_eq_some_iff.mp hadd
    cases heq
  rename_i hmseg
  simp only [Option.some.injEq, Prod.mk.injEq, true_and] at hadd
  -- What was mapped before lies behind `lend`.
  have hnone : ∀ p, start / 4096 ≤ p → p ≤ lend / 4096 →
      ¬ VmState.Mapped { s with heap := heap } p := by
    intro p h1 h2 hm
    have hlt : p < pageCount := by
      unfold pageCount
      omega
    rcases hext1.only p hlt hm with hm | hm
    · obtain ⟨r, hr, hgt, hrp⟩ := hroom.behind p hlt h1 hm
      have := hroom.aligned r hr
      have := hroom.apart r hr
      omega
    · exact hm.elim
  obtain ⟨⟨v2, hok2⟩, hlow, hext2, hmapped, htabs, hcount, hregs⟩ :=
    vmCreateMemSegment_spec hok1 halign hstart hword horder hend hnone hseg hmseg
  obtain ⟨hok3, hext3, htab3⟩ := hok2.reheap (t := t) (by rw [← hadd]) (by rw [← hadd])
  have hext : Extends fixed s t {p | start / 4096 ≤ p ∧ p ≤ lend / 4096} :=
    ((hext1.none _).trans hext2).trans (hext3.none _)
  have hregs' : s2.regions = s.regions := hregs
  obtain ⟨pre, post, hins, hsplit, hpre, hpost⟩ :=
    insertRegion_split ⟨mptr, start, lend, type, mseg⟩ s2.regions (hregs'.symm ▸ hroom.sorted)
  rw [hregs'] at hsplit
  have hmem : ∀ r ∈ post, r ∈ s.regions := fun r hr => by
    rw [hsplit]
    exact mem_append_right _ hr
  have hbehind : ∀ r ∈ s.regions, start < r.startAddr → r ∈ post := fun r hr hgt => by
    rw [hsplit] at hr
    rcases mem_append.mp hr with hr | hr
    · exact absurd (hpre r hr) (Nat.not_lt.mpr (Nat.le_of_lt hgt))
    · exact hr
  refine ⟨pre, ⟨mptr, start, lend, type, mseg⟩, post, ?_, hbehind, ⟨v2, hok3⟩, hext⟩
  refine ⟨?_, hpre, rfl, fun r hr => ?_, ?_, fun r hr => hroom.aligned r (hmem r hr), hmseg, ?_, hlow,
    horder, fun i hi h1 h2 => ?_, fun p h1 h2 => ?_, fun p hp h1 hm => ?_⟩
  · rw [← hadd]
    exact hins
  · have := hroom.apart r (hmem r hr)
    have := hpost r hr
    dsimp only at this ⊢
    omega
  · have hsort := hroom.sorted
    rw [hsplit] at hsort
    exact (pairwise_append.mp hsort).2.1
  · rw [← hadd]
    exact hcount
  · rw [htab3 i hi]
    exact htabs i hi h1 h2
  · dsimp only at h2
    have hlt : p < pageCount := by
      unfold pageCount
      omega
    exact (hext3.entries p hlt (hmapped p h1 (by omega))).1
  · dsimp only at h1
    rcases hext.only p hp hm with hm | hm
    · obtain ⟨r, hr, hgt, hrp⟩ := hroom.behind p hp (by omega) hm
      exact ⟨r, hbehind r hr hgt, hrp⟩
    · have := hm.2
      omega

end added

/-! ## The whole run -/

/-- **Expansions one after the other** keep the invariant, and all that was mapped stays. -/
theorem Grown.run (hg : Grown s start pre mreg post)
    (h : SpaceOk C base fixed s v) (hrun : Reaches (growStep start) (GrowOk start) s t) :
    ∃ mreg', Grown t start pre mreg' post ∧ mreg.endAddr ≤ mreg'.endAddr ∧
      (∃ v', SpaceOk C base fixed t v') ∧
      Extends fixed s t (newPages mreg.endAddr mreg'.endAddr) := by
  induction hrun with
  | refl => exact ⟨mreg, hg, Nat.le_refl _, ⟨v, h⟩, Extends.refl _ _ _⟩
  | tail _ hlast ih =>
    obtain ⟨mreg1, hg1, hle, ⟨v1, hok1⟩, hext1⟩ := ih
    obtain ⟨g, hgok, hstep⟩ := hlast
    obtain ⟨hg2, hok2, hext2⟩ := hg1.step hok1 hgok hstep
    refine ⟨_, hg2, Nat.le_trans hle (Nat.le_add_right _ _), hok2, ?_⟩
    refine (hext1.mono fun p hp => ?_).trans (hext2.mono fun p hp => ?_)
    · exact ⟨hp.1, Nat.le_trans hp.2 (by dsimp only; omega)⟩
    · exact ⟨Nat.lt_of_le_of_lt (Nat.div_le_div_right hle) hp.1, hp.2⟩

/-- The pages of the region are mapped, none of them is one of the pages that were mapped by other
    means, and memory is in order: in particular no page that was taken from the allocator is
    lost. -/
def PagesFollow (C base fixed : Set Nat) (start : Nat) (s : VmState) : Prop :=
  ∃ e, regionEnd s start = some e ∧
    (∀ a, start ≤ a → a ≤ e → s.Mapped (a / 4096) ∧ a / 4096 ∉ fixed) ∧
    ∃ v, SpaceOk C base fixed s v

/-- Whatever was mapped from `start` on before the region was there lies behind it. -/
theorem Grown.notMem_fixed (hg : Grown t start pre mreg post) (h : SpaceOk C base fixed s v)
    (hroom : Room s start lend) (hpost : ∀ r ∈ s.regions, start < r.startAddr → r ∈ post)
    (h1 : start ≤ a) (h2 : a ≤ mreg.endAddr) : a / 4096 ∉ fixed := by
  intro hf
  obtain ⟨hlt, hm⟩ := h.fixedMapped _ hf
  obtain ⟨r, hr, hgt, hra⟩ := hroom.behind _ hlt (Nat.div_le_div_right h1) hm
  have hnext := hg.next r (hpost r hr hgt)
  have hal := hroom.aligned r hr
  omega

/-- **Mapped pages follow the region's end.** Add a region of which the last byte is not the first of
    a page, and expand it as often as you like, never from an end that is the first byte of a page into
    another page. In every state of the run all pages of the region are mapped and every page of
    memory is accounted for, and from the start and from every state on, all entries and what is in
    their frames stay as they are. -/
theorem region_pages_follow_end {C base fixed : Set Nat} {s t : VmState} {v : HeapView}
    {start lend type : Nat} (h : SpaceOk C base fixed s v) (hroom : Room s start lend)
    (halign : start % 4096 = 0) (hstart : start < 4294967296) (hword : lend < 4294967296)
    (horder : start ≤ lend + 1) (hend : lend % 4096 ≠ 0)
    (hadd : vmAddRegion s type start lend true true = some (0, t)) :
    Extends fixed s t {p | start / 4096 ≤ p} ∧
    ∀ u, Reaches (growStep start) (GrowOk start) t u → PagesFollow C base fixed start u ∧
      ∀ w, Reaches (growStep start) (GrowOk start) u w →
        Extends fixed u w {p | start / 4096 ≤ p} := by
  obtain ⟨pre, mreg, post, hg, hpost, ⟨v1, hok⟩, hext⟩ :=
    vmAddRegion_grown h halign hstart hword horder hend hroom hadd
  refine ⟨hext.mono fun p hp => hp.1, fun u hu => ?_⟩
  obtain ⟨mreg', hg', -, ⟨v2, hok'⟩, -⟩ := hg.run hok hu
  refine ⟨⟨mreg'.endAddr, hg'.regionEnd, fun a h1 h2 => ⟨?_, ?_⟩, v2, hok'⟩, fun w hw => ?_⟩
  · exact hg'.mapped _ (Nat.div_le_div_right h1) (by omega)
  · exact hg'.notMem_fixed h hroom hpost h1 h2
  · obtain ⟨_, -, -, -, hext'⟩ := hg'.run hok' hw
    refine hext'.mono fun p hp => ?_
    have horder' := hg'.order
    have hlow := hp.1
    show start / 4096 ≤ p
    omega

/-! ## An address space without regions -/

/-- 32 free pages, and before them the page of a page directory without entries. -/
def bareSpace : VmState where
  heap := heapInit ⟨fun a => if a = 0x101000 then 32 else 0, 0x101000, [⟨0x100000, 0x21000, 1⟩]⟩
  segs := fun _ => ⟨0, 0, 0⟩
  ptls := fun _ => ⟨0, 0⟩
  pgdir := 0x100000
  regions := []

/-- Only the page of the directory is out. -/
def bareView : HeapView := { HeapView.empty with others := [⟨0x100000, 1⟩] }

theorem bareSpace_mem (h : a ≠ 0x101000) : bareSpace.mem a = 0 := if_neg h

theorem bareSpace_pageTable {i : Nat} (hi : i < 1024) : bareSpace.pageTable i = 0 := by
  have hmem := bareSpace_mem (a := 0x100000 + 4 * i) (by omega)
  unfold VmState.pageTable
  rw [show bareSpace.pgdir = 0x100000 from rfl, hmem]
  rfl

theorem bareSpace_not_mapped {p : Nat} (hp : p < pageCount) : ¬ bareSpace.Mapped p := by
  unfold pageCount at hp
  exact fun h => h.1 (bareSpace_pageTable (by omega))

theorem bareView_owned : bareView.owned = pageAt 0x100000 := by
  unfold HeapView.owned bareView
  rw [map_singleton, cover_cons, cover_nil, Set.union_empty]
  rfl

theorem inRam_bareSpace {n : Nat} (hal : a % 4096 = 0) (hlo : 0x100000 ≤ a)
    (hhi : a + n * 4096 ≤ 0x121000) : InRam bareSpace.heap.core.ramSegments ⟨a, n * 4096⟩ := by
  have hu : u32 1183744 = 1183744 := by decide
  refine ⟨hal, Nat.mul_mod_left _ _, by simp only [Blk.fin]; omega, fun x hx _ => ?_⟩
  have h1 : a ≤ x := hx.1
  have h2 : x < a + n * 4096 := hx.2
  simp [bareSpace, heapInit, isValidBlock, hu]
  omega

theorem bareSpace_heap : HeapOk {x | 0x100000 ≤ x ∧ x < 0x121000} bareSpace.heap bareView := by
  have hcore : CoreOk bareSpace.heap.core [⟨0x101000, 32 * 4096⟩] := by
    refine ⟨⟨[0x101000], ⟨rfl, by decide, rfl⟩, rfl⟩, ⟨pairwise_singleton _ _, by simp⟩, ?_⟩
    intro b hb
    obtain rfl := mem_singleton.mp hb
    exact inRam_bareSpace (by decide) (by decide) (by decide)
  have hout : InRam bareSpace.heap.core.ramSegments ⟨0x100000, 1 * 4096⟩ :=
    inRam_bareSpace (by decide) (by decide) (by decide)
  have hpool : Pool {x | 0x100000 ≤ x ∧ x < 0x121000} [⟨0x101000, 32 * 4096⟩]
      [⟨0x100000, 1 * 4096⟩] := by
    refine ⟨hcore.canon, by simp, pairwise_singleton _ _, ?_, ?_⟩
    · simp [Blk.Apart, Blk.fin]
    · ext x
      simp only [cover_cons, cover_nil, Set.mem_union, Set.mem_ofPred_eq, Set.mem_empty_iff_false,
        Blk.Has, Blk.fin, or_false]
      omega
  refine ⟨⟨_, hcore, hpool, by simp [bareView, HeapView.empty], ?_⟩, fun x hx => ?_, ?_⟩
  · intro ch hch
    obtain rfl : ch = ⟨0x100000, 1⟩ := by simpa [bareView, HeapView.empty] using hch
    exact hout
  · have := hx.2
    omega
  · refine ⟨by simp [bareView, HeapView.empty], rfl, rfl, rfl, nodup_nil, ?_, ?_, ?_⟩
    · simp [bareView, HeapView.empty, HeapView.nodes, HeapView.out]
    · intro p hp
      obtain ⟨ch, hch, -⟩ := hp
      simp [bareView, HeapView.empty] at hch
    · have hnil : Pool (cover []) [] [] := ⟨canon_nil, by simp, List.Pairwise.nil, by simp, by simp⟩
      exact ⟨hnil, rfl⟩

theorem bareSpace_ok : SpaceOk {x | 0x100000 ≤ x ∧ x < 0x121000} (pageAt 0x100000) ∅ bareSpace
    bareView := by
  have htab : ∀ {i}, i < 1024 → ¬ bareSpace.pageTable i ≠ 0 := fun hi h => h (bareSpace_pageTable hi)
  refine ⟨bareSpace_heap, rfl, bareView_owned.symm.subset, rfl, fun a ha => ha,
    fun i hi h0 => absurd h0 (htab hi), fun i hi j _ h0 => absurd h0 (htab hi),
    fun p hp => hp.elim, fun p hp _ hm => absurd hm (bareSpace_not_mapped hp),
    fun p hp q _ _ _ hm => absurd hm (bareSpace_not_mapped hp), fun a ha => .inl ?_⟩
  rw [← bareView_owned]
  exact ha

theorem bareSpace_room (start lend : Nat) : Room bareSpace start lend :=
  ⟨List.Pairwise.nil, by simp [bareSpace], by simp [bareSpace],
    fun p hp _ hm => absurd hm (bareSpace_not_mapped hp)⟩

/-- The theorem at a region of one page that grows by two pages and a byte. -/
theorem region_pages_follow_end_bareSpace :
    ∃ t u, vmAddRegion bareSpace segmentTypeData 0x24000000 0x24000fff true true = some (0, t) ∧
      Reaches (growStep 0x24000000) (GrowOk 0x24000000) t u ∧
      regionEnd u 0x24000000 = some 0x24003000 ∧
      PagesFollow {x | 0x100000 ≤ x ∧ x < 0x121000} (pageAt 0x100000) ∅ 0x24000000 u := by
  obtain ⟨⟨_, t⟩, hadd, rfl, u, hops, hend⟩ :
      ∃ r ∈ vmAddRegion bareSpace segmentTypeData 0x24000000 0x24000fff true true, r.1 = 0 ∧
        ∃ u ∈ runOps (growStep 0x24000000) (GrowOk 0x24000000) r.2 [⟨0x2000, true⟩, ⟨1, true⟩],
          regionEnd u 0x24000000 = some 0x24003000 := by decide +kernel
  have hreach := reaches_of_runOps hops
  have hfollow := region_pages_follow_end bareSpace_ok (bareSpace_room _ _) (by decide) (by decide)
    (by decide) (by decide) (by decide) hadd
  exact ⟨t, u, hadd, hreach, hend, (hfollow.2 u hreach).1⟩

/-- **An expansion that loses a page.** A region of one page grows by one byte, so its end is the
    first byte of the second page. The next expansion replaces the entry of that page, and the page of
    the new end has none. -/
theorem expand_loses_page : ∃ C base fixed v t u w, SpaceOk C base fixed bareSpace v ∧
    Room bareSpace 0x24000000 0x24000fff ∧
    vmAddRegion bareSpace segmentTypeData 0x24000000 0x24000fff true true = some (0, t) ∧
    growStep 0x24000000 t ⟨1, true⟩ = some u ∧ growStep 0x24000000 u ⟨0x1000, true⟩ = some w ∧
    u.Mapped 0x24001 ∧ w.pte 0x24001 ≠ u.pte 0x24001 ∧
    regionEnd w 0x24000000 = some 0x24002000 ∧ ¬ w.Mapped (0x24002000 / 4096) := by
  obtain ⟨⟨_, t⟩, hadd, rfl, u, hu, w, hw, hobs⟩ :
      ∃ r ∈ vmAddRegion bareSpace segmentTypeData 0x24000000 0x24000fff true true, r.1 = 0 ∧
        ∃ u ∈ growStep 0x24000000 r.2 ⟨1, true⟩, ∃ w ∈ growStep 0x24000000 u ⟨0x1000, true⟩,
          u.Mapped 0x24001 ∧ w.pte 0x24001 ≠ u.pte 0x24001 ∧
            regionEnd w 0x24000000 = some 0x24002000 ∧ ¬ w.Mapped (0x24002000 / 4096) := by
    decide +kernel
  exact ⟨_, _, _, _, t, u, w, bareSpace_ok, bareSpace_room _ _, hadd, hu, hw, hobs⟩

end AtomOs
