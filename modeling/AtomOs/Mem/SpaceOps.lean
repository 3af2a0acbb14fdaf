import AtomOs.Mem.Space
import AtomOs.Mem.Layout

/-!
# What the loops over page tables do

One specification for each loop of `vm_creatememsegment` and `vm_expandregion` that comes to an end
without an error: `expandTables_spec` for the page tables of a range of slots, `coreAllocN_spec` for
the frames, and `mapFrames_spec` for putting them under a range of pages. All three keep `SpaceOk`,
and leave every entry that was there as it was.

Between taking a frame and mapping it no entry leads to it. Such frames are `SpareRuns`; in `SpaceOk` they
are added to the set `base` of what is owned and not under a page, and mapping takes them out of it again.
A range of pages to be filled is `Vacant`, and `MappedRange` is what one round leaves, so that the rounds
are chained with `MappedRange.append`.
-/

namespace AtomOs

open Lib List CoreHeader

variable {C base fixed : Set Nat} {ch : CoreHeader} {chs : List CoreHeader} {n : Nat}
  {s t : VmState} {v : HeapView}

variable {u : VmState} {heap : HeapState} {core : CoreState} {pages phys cur first m : Nat}

/-! ## Taking pages -/

section take

variable {C base fixed : Set Nat} {s : VmState} {v : HeapView} (h : SpaceOk C base fixed s v)
include h

/-- The facts the allocator has about a header it has just handed out. -/
structure FreshRun (v : HeapView) (ch : CoreHeader) : Prop where
  aligned : ch.physAddr % 4096 = 0
  notNull : ch.physAddr ≠ 0
  below : ch.physAddr + ch.noBlocks * 4096 ≤ 4294967296
  apart : ∀ a, ch.blk.Has a → a ∉ v.owned

omit h in
theorem HeapOk.freshRun
    (hok : HeapOk C heap { v with others := ch :: v.others }) : FreshRun v ch := by
  obtain ⟨F, hsys⟩ := hok.sys
  have hmem : ch ∈ v.pages ++ (v.given ++ ch :: v.others) := by simp
  have hram := hsys.outRam ch hmem
  refine ⟨hram.aligned, hsys.outAddr ch hmem, hram.below, fun a ha ho => ?_⟩
  obtain ⟨b, hb, hab⟩ := ho
  have hap := hsys.pool.outApart
  rw [CoreSys.out, map_append, map_append, map_cons] at hap
  have hcons := (pairwise_append.mp (pairwise_append.mp hap).2.1).2.1
  exact not_has_of_apart ((pairwise_cons.mp hcons).1 b hb) ha hab

theorem SpaceOk.take (hn : n < 2147483648) :
    ∃ ch core, coreAlloc s.heap.core n = some (ch, core) ∧ ch.noBlocks ≤ n ∧
      (ch.noBlocks ≠ 0 →
        SpaceOk C (base ∪ {a | ch.blk.Has a}) fixed (s.setCore core)
          { v with others := ch :: v.others } ∧
        Extends fixed s (s.setCore core) ∅ ∧
        (∀ i < 1024, (s.setCore core).pageTable i = s.pageTable i) ∧ FreshRun v ch) := by
  obtain ⟨ch, core, hrun, hle, -, hsome, hkeep⟩ := h.heap.alloc hn
  refine ⟨ch, core, hrun, hle, fun h0 => ?_⟩
  have hok := hsome h0
  have hfresh := hok.freshRun
  have hown : HeapView.owned { v with others := ch :: v.others } = v.owned ∪ {a | ch.blk.Has a} := by
    unfold HeapView.owned
    rw [map_cons, cover_cons, Set.union_comm]
  have hkeep' : ∀ a ∈ v.owned, (s.setCore core).mem a = s.mem a := fun a ha => by
    refine hkeep a (v.clients_sub_held ?_)
    rw [map_append, cover_append]
    exact .inr ha
  obtain ⟨hspace, hext, htab⟩ := h.extend (t := s.setCore core) _ hok h.loose hown
    (fun a ha => hfresh.apart a ha) rfl hkeep'
  exact ⟨hspace, hext, htab, hfresh⟩

theorem SpaceOk.kmalloc {size : Nat} (hsize : 0 < size) :
    ∃ ptr heap v', AtomOs.kmalloc s.heap size = some (ptr, heap) ∧
      SpaceOk C base fixed { s with heap := heap } v' ∧ v'.owned = v.owned ∧
      Extends fixed s { s with heap := heap } ∅ ∧
      ∀ i < 1024, VmState.pageTable { s with heap := heap } i = s.pageTable i := by
  obtain ⟨ptr, heap, v', hrun, hk⟩ := kmalloc_spec h.heap h.loose hsize
  have hown : v'.owned = v.owned := by
    unfold HeapView.owned
    rw [hk.others]
  have hkeep : ∀ a ∈ v.owned, VmState.mem { s with heap := heap } a = s.mem a := fun a ha => by
    refine hk.data a ?_
    rw [map_append, cover_append]
    exact .inr ha
  obtain ⟨hspace, hext, htab⟩ := h.extend (t := { s with heap := heap }) ∅ hk.ok hk.loose
    (by rw [hown, Set.union_empty]) (fun a ha => ha.elim) rfl hkeep
  rw [Set.union_empty] at hspace
  exact ⟨ptr, heap, v', hrun, hspace, hown, hext, htab⟩

theorem SpaceOk.reheap (hheap : t.heap = s.heap) (hpgdir : t.pgdir = s.pgdir) :
    SpaceOk C base fixed t v ∧ Extends fixed s t ∅ ∧
      ∀ i < 1024, t.pageTable i = s.pageTable i := by
  obtain ⟨hspace, hext, htab⟩ := h.extend (t := t) ∅ (by rw [hheap]; exact h.heap) h.loose
    (by rw [Set.union_empty]) (fun a ha => ha.elim) hpgdir
    (fun a _ => by unfold VmState.mem; rw [hheap])
  rw [Set.union_empty] at hspace
  exact ⟨hspace, hext, htab⟩

end take

/-! ## Page tables -/

theorem linkTable_heap (s : VmState) (mseg rw pdind table ptl ptl1 ptl2 : Nat) :
    (linkTable s mseg rw pdind table ptl ptl1 ptl2).heap = (zeroPage s.heap table).put
      (s.pgdir + 4 * pdind) (makeEntry (table / 4096) 0 rw 1 0) ∧
    (linkTable s mseg rw pdind table ptl ptl1 ptl2).pgdir = s.pgdir := by
  unfold linkTable
  split <;> exact ⟨rfl, rfl⟩

theorem SpaceOk.addTable (h : SpaceOk C base fixed s v) (hpg : s.pgdir ∈ base) {i : Nat}
    (hi : i < 1024) (hnone : s.pageTable i = 0) (halloc : coreAlloc s.heap.core 1 = some (ch, core))
    (hone : ¬ ch.noBlocks < 1) {ptl : Nat}
    (hmalloc : AtomOs.kmalloc { s.heap with core := core } 8 = some (ptl, heap))
    (mseg rw ptl1 ptl2 : Nat) :
    let t := linkTable { s with heap := heap } mseg rw i ch.physAddr ptl ptl1 ptl2
    ∃ v', SpaceOk C base fixed t v' ∧ Extends fixed s t ∅ ∧ SameRegions s t ∧
      t.pageTable i ≠ 0 := by
  intro t
  obtain ⟨ch', core', halloc', hle, hsome⟩ := h.take (n := 1) (by omega)
  have halloc1 : coreAlloc s.heap.core ((1 : Nat) : Int) = some (ch, core) := halloc
  rw [halloc1] at halloc'
  cases halloc'
  obtain ⟨hspace, hext, htab, hfresh⟩ := hsome (by omega)
  obtain ⟨ptl', heap', v', hmalloc', hspace', hown, hext', htab'⟩ := hspace.kmalloc
    (by decide : 0 < 8)
  have hmalloc1 : AtomOs.kmalloc (s.setCore core).heap 8 = some (ptl, heap) := hmalloc
  rw [hmalloc1] at hmalloc'
  cases hmalloc'
  have hone' : ch.noBlocks = 1 := by omega
  have hblk : {a | ch.blk.Has a} = pageAt ch.physAddr := by
    ext a
    simp only [Set.mem_ofPred_eq, Blk.Has, Blk.fin, blk, hone', pageAt, Nat.one_mul]
  rw [hblk] at hspace'
  have hin : ∀ a, a ∈ pageAt ch.physAddr → a ∉ v.owned := fun a ha =>
    hfresh.apart a (by rw [← hblk] at ha; exact ha)
  have hspare : Spare base { s.setCore core with heap := heap } ch.physAddr := by
    refine ⟨hfresh.aligned, hfresh.notNull, ?_, fun a ha hb => hin a ha (h.baseOwned hb),
      fun j hj he => ?_⟩
    · have := hfresh.below
      omega
    · rw [htab' j hj, htab j hj] at he
      refine hin _ (self_mem_pageAt _) ((h.table j hj ?_).2.1 ?_)
      · rw [he]
        exact hfresh.notNull
      · rw [he]
        exact self_mem_pageAt _
  obtain ⟨hheap, hpgdir⟩ :=
    linkTable_heap { s with heap := heap } mseg rw i ch.physAddr ptl ptl1 ptl2
  obtain ⟨hok, hext2, htabi, -⟩ := hspace'.link (t := t) hspare hpg hi
    ((htab' i hi).trans ((htab i hi).trans hnone)) hpgdir hheap
  refine ⟨v', hok, (hext.trans hext').trans hext2, linkTable_same _ _ _ _ _ _ _ _ _, ?_⟩
  rw [htabi]
  exact hfresh.notNull

/-- **`vm_expandpagetables` without an error**: every slot of the range has a page table. It does not
    come back from a range that reaches the last slot. -/
theorem expandTables_spec {mseg rw lend : Nat} :
    ∀ {fuel ptl1 ptl2 start : Nat} {s t : VmState} {v : HeapView} {ret : Int},
    SpaceOk C base fixed s v → s.pgdir ∈ base → start < 4294967296 → start % 4194304 = 0 →
    expandTables mseg rw lend fuel ptl1 ptl2 start s = some (ret, t) → 0 ≤ ret →
    lend < 0xFFC00000 ∧ ∃ v', SpaceOk C base fixed t v' ∧ Extends fixed s t ∅ ∧ SameRegions s t ∧
      ∀ i < 1024, start / 4194304 ≤ i → i * 4194304 ≤ lend → t.pageTable i ≠ 0
  | 0, _, _, _, _, _, _, _, _, _, _, _, hrun, _ => by cases hrun
  | fuel + 1, ptl1, ptl2, start, s, t, v, ret, h, hpg, hstart, halign, hrun, hret => by
    unfold expandTables at hrun
    have hpd : pdIndex start = start / 4194304 := Nat.mod_eq_of_lt (by omega)
    have hslot : start / 4194304 < 1024 := by omega
    split at hrun
    · rename_i hend
      cases hrun
      exact ⟨by omega, v, h, Extends.refl _ _ _, SameRegions.refl s,
        fun i _ hi hle => absurd hle (by omega)⟩
    have hnext : u32 (start + 0x00400000) < 4294967296 := u32_lt _
    have hnext' : u32 (start + 0x00400000) % 4194304 = 0 := by
      unfold u32
      omega
    have hle : u32 (start + 0x00400000) / 4194304 ≤ start / 4194304 + 1 := by
      unfold u32
      omega
    -- The slot at hand, and then the others.
    obtain ⟨s1, v1, p1, p2, h1, hext, hsame, htab, hrest⟩ : ∃ s1 v1 p1 p2,
        SpaceOk C base fixed s1 v1 ∧ Extends fixed s s1 ∅ ∧ SameRegions s s1 ∧
          s1.pageTable (start / 4194304) ≠ 0 ∧
          expandTables mseg rw lend fuel p1 p2 (u32 (start + 0x00400000)) s1 = some (ret, t) := by
      split at hrun
      · rename_i hnone
        split at hrun
        · cases hrun
        rename_i ch core halloc
        split at hrun
        · cases hrun
          exact absurd hret (by decide)
        rename_i hone
        split at hrun
        · cases hrun
        rename_i ptl heap hmalloc
        split at hrun
        · obtain ⟨_, -, heq⟩ := Option.map_eq_some_iff.mp hrun
          cases heq
          exact absurd hret (by decide)
        · rw [hpd] at hnone hrun
          obtain ⟨v1, hok, hext, hsame, htab⟩ := h.addTable hpg hslot hnone halloc hone hmalloc mseg
            rw ptl1 ptl2
          exact ⟨_, v1, _, _, hok, hext, hsame, htab, hrun⟩
      · rename_i hsome
        rw [hpd] at hsome
        exact ⟨s, v, _, _, h, Extends.refl _ _ _, SameRegions.refl s, hsome, hrun⟩
    obtain ⟨hlow, v', hok, hext', hsame', htabs⟩ := expandTables_spec h1
      (by rw [hext.pgdir]; exact hpg) hnext hnext' hrest hret
    refine ⟨hlow, v', hok, hext.trans hext', hsame.trans hsame', fun i hi hge hend => ?_⟩
    by_cases hieq : i = start / 4194304
    · rw [hieq, hext'.tables _ hslot htab]
      exact htab
    · exact htabs i hi (by omega) hend

/-! ## Frames -/

/-- Runs of pages that were taken and are not in use yet. -/
structure SpareRuns (base : Set Nat) (s : VmState) (chs : List CoreHeader) : Prop where
  aligned : ∀ ch ∈ chs, ch.physAddr % 4096 = 0
  notNull : ∀ ch ∈ chs, ch.physAddr ≠ 0
  below : ∀ ch ∈ chs, ch.physAddr + ch.noBlocks * 4096 ≤ 4294967296
  fresh : ∀ a ∈ cover (chs.map CoreHeader.blk), a ∉ base
  noTable : ∀ j < 1024, s.pageTable j ≠ 0 → s.pageTable j ∉ cover (chs.map CoreHeader.blk)
  apart : chs.Pairwise fun c d => ∀ a, c.blk.Has a → ¬ d.blk.Has a

theorem SpareRuns.nil (base : Set Nat) (s : VmState) : SpareRuns base s [] :=
  ⟨by simp, by simp, by simp, by simp, by simp, List.Pairwise.nil⟩

theorem SpareRuns.reverse (h : SpareRuns base s chs) : SpareRuns base s chs.reverse := by
  have hcov := cover_perm (chs.reverse_perm.map blk)
  refine ⟨fun ch hc => h.aligned ch (mem_reverse.mp hc),
    fun ch hc => h.notNull ch (mem_reverse.mp hc),
    fun ch hc => h.below ch (mem_reverse.mp hc), ?_, ?_, ?_⟩
  · rw [hcov]
    exact h.fresh
  · rw [hcov]
    exact h.noTable
  · rw [pairwise_reverse]
    exact h.apart.imp fun hcd a ha hb => hcd a hb ha

def runPages (chs : List CoreHeader) : Nat := (chs.map CoreHeader.noBlocks).sum

theorem SpareRuns.cons {acc : List CoreHeader} (hspare : SpareRuns base s acc)
    (h : SpaceOk C (base ∪ cover (acc.map blk)) fixed s v) (hfresh : FreshRun v ch)
    (htab : ∀ i < 1024, t.pageTable i = s.pageTable i) : SpareRuns base t (ch :: acc) := by
  have hcov : ∀ a, a ∈ cover ((ch :: acc).map blk) ↔
      ch.blk.Has a ∨ a ∈ cover (acc.map blk) := fun a => by
    rw [map_cons, cover_cons]
    rfl
  refine ⟨?_, ?_, ?_, fun a ha => ?_, fun j hj h0 hc => ?_, pairwise_cons.mpr ⟨?_, hspare.apart⟩⟩
  · exact forall_mem_cons.mpr ⟨hfresh.aligned, hspare.aligned⟩
  · exact forall_mem_cons.mpr ⟨hfresh.notNull, hspare.notNull⟩
  · exact forall_mem_cons.mpr ⟨hfresh.below, hspare.below⟩
  · rcases (hcov a).mp ha with ha | ha
    · exact fun hb => hfresh.apart a ha (h.baseOwned (.inl hb))
    · exact hspare.fresh a ha
  · rw [htab j hj] at h0 hc
    rcases (hcov _).mp hc with hc | hc
    · exact hfresh.apart _ hc ((h.table j hj h0).2.1 (self_mem_pageAt _))
    · exact hspare.noTable j hj h0 hc
  · exact fun d hd a ha hda =>
      hfresh.apart a ha (h.baseOwned (.inr ⟨d.blk, mem_map_of_mem hd, hda⟩))

/-- The loop of `core_alloc_n`, if it comes to an end without an error. -/
theorem coreAllocFrom_spec : ∀ {n pages : Nat} {acc chs : List CoreHeader}
    {s : VmState} {v : HeapView} {core : CoreState}, pages < 2147483648 →
    SpaceOk C (base ∪ cover (acc.map blk)) fixed s v → SpareRuns base s acc →
    coreAllocFrom n pages acc s.heap.core = some (some chs, core) →
    ∃ v', SpaceOk C (base ∪ cover (chs.map blk)) fixed (s.setCore core) v' ∧
      Extends fixed s (s.setCore core) ∅ ∧ SpareRuns base (s.setCore core) chs ∧
      runPages chs = runPages acc + pages ∧
      (∀ i < 1024, (s.setCore core).pageTable i = s.pageTable i) ∧
      v'.pages = v.pages ∧ v'.given = v.given := by
  intro n pages
  induction n generalizing pages with
  | zero =>
    intro acc chs s v core hlt h hspare hrun
    obtain rfl : pages = 0 := by
      by_contra hne
      unfold coreAllocFrom at hrun
      rw [if_neg (by omega)] at hrun
      obtain ⟨_, -, heq⟩ := Option.map_eq_some_iff.mp hrun
      cases heq
    cases hrun
    refine ⟨v, ?_, Extends.refl _ _ _, hspare.reverse, ?_, fun _ _ => rfl, rfl, rfl⟩
    · rw [cover_perm (acc.reverse_perm.map blk)]
      exact h
    · rw [runPages, map_reverse, sum_reverse]
      rfl
  | succ n ih =>
    intro acc chs s v core hlt h hspare hrun
    rcases Nat.eq_zero_or_pos pages with rfl | hpos
    · cases hrun
      refine ⟨v, ?_, Extends.refl _ _ _, hspare.reverse, ?_, fun _ _ => rfl, rfl, rfl⟩
      · rw [cover_perm (acc.reverse_perm.map blk)]
        exact h
      · rw [runPages, map_reverse, sum_reverse]
        rfl
    · obtain ⟨ch, core1, halloc, hle, hsome⟩ := h.take hlt
      unfold coreAllocFrom at hrun
      rw [if_neg (by omega)] at hrun
      rw [halloc] at hrun
      dsimp only at hrun
      split at hrun
      · obtain ⟨_, -, heq⟩ := Option.map_eq_some_iff.mp hrun
        cases heq
      rename_i h0
      obtain ⟨hspace, hext, htab, hfresh⟩ := hsome h0
      have hbase : base ∪ cover (acc.map blk) ∪ {a | ch.blk.Has a} =
          base ∪ cover ((ch :: acc).map blk) := by
        rw [map_cons, cover_cons, Set.union_assoc, Set.union_comm (cover _)]
      rw [hbase] at hspace
      have hpages : i32 ((pages : Int) - ch.noBlocks) = ((pages - ch.noBlocks : Nat) : Int) := by
        rw [i32_of_range (by omega) (by omega)]
        omega
      rw [hpages] at hrun
      obtain ⟨v', hok, hext', hspare', hsum, htab', hsame⟩ := ih (s := s.setCore core1) (by omega)
        hspace (hspare.cons h hfresh htab) hrun
      refine ⟨v', hok, hext.trans hext', hspare', ?_, fun i hi => (htab' i hi).trans (htab i hi), hsame⟩
      rw [hsum, runPages, map_cons, sum_cons, runPages]
      omega

/-- **`core_alloc_n` without an error** takes as many pages as it was asked for. -/
theorem coreAllocN_spec (h : SpaceOk C base fixed s v)
    (hlt : pages < 2147483648) (hrun : coreAllocN s.heap.core pages = some (some chs, core)) :
    ∃ v', SpaceOk C (base ∪ cover (chs.map blk)) fixed (s.setCore core) v' ∧
      Extends fixed s (s.setCore core) ∅ ∧ SpareRuns base (s.setCore core) chs ∧
      runPages chs = pages ∧ (∀ i < 1024, (s.setCore core).pageTable i = s.pageTable i) ∧
      v'.pages = v.pages ∧ v'.given = v.given := by
  have h0 : SpaceOk C (base ∪ cover (([] : List CoreHeader).map blk)) fixed s v := by
    rw [map_nil, cover_nil, Set.union_empty]
    exact h
  obtain ⟨v', hok, hext, hspare, hsum, htab⟩ :=
    coreAllocFrom_spec hlt h0 (SpareRuns.nil base s) hrun
  exact ⟨v', hok, hext, hspare, by simpa [runPages] using hsum, htab⟩

/-! ## Mapping -/

/-- The addresses of `n` pages from `phys` on. -/
def runAt (phys n : Nat) : Set Nat := {a | phys ≤ a ∧ a < phys + n * 4096}

theorem runAt_zero (phys : Nat) : runAt phys 0 = ∅ := by
  ext a
  simp only [runAt, Set.mem_ofPred_eq, Set.mem_empty_iff_false, iff_false]
  omega

theorem runAt_succ (phys n : Nat) : runAt phys (n + 1) = runAt (phys + 4096) n ∪ pageAt phys := by
  ext a
  simp only [runAt, pageAt, Set.mem_ofPred_eq, Set.mem_union]
  omega

theorem runAt_next (h : phys + (n + 1) * 4096 ≤ 4294967296) :
    runAt (u32 (phys + 4096)) n = runAt (phys + 4096) n := by
  rcases Nat.eq_zero_or_pos n with rfl | hn
  · rw [runAt_zero, runAt_zero]
  · have hnext : u32 (phys + 4096) = phys + 4096 := by
      unfold u32
      omega
    rw [hnext]

/-- What mapping a range of pages leaves. -/
structure MappedRange (C base fixed : Set Nat) (s t : VmState) (v : HeapView) (first n : Nat) :
    Prop where
  ok : SpaceOk C base fixed t v
  ext : Extends fixed s t {p | first ≤ p ∧ p < first + n}
  mapped : ∀ p, first ≤ p → p < first + n → t.Mapped p
  tables : ∀ i < 1024, t.pageTable i = s.pageTable i
  regions : SameRegions s t

theorem SpaceOk.mapPage (h : SpaceOk C (base ∪ pageAt phys) fixed s v) (hspare : Spare base s phys)
    (hpg : s.pgdir ∈ base) (hcur : cur + 4095 < 4294967296)
    (hslot : s.pageTable ((cur + 4095) / 4096 / 1024) ≠ 0)
    (hnone : ¬ s.Mapped ((cur + 4095) / 4096)) (rw : Nat) :
    MappedRange C base fixed s (AtomOs.mapPage s rw cur phys) v ((cur + 4095) / 4096) 1 := by
  have hpage : u32 (cur + 4095) = cur + 4095 := u32_of_lt hcur
  have hpd : pdIndex (cur + 4095) = (cur + 4095) / 4096 / 1024 := by
    unfold pdIndex
    omega
  have hput : AtomOs.mapPage s rw cur phys = s.put (s.pageTable ((cur + 4095) / 4096 / 1024) +
      4 * ((cur + 4095) / 4096 % 1024)) (makeEntry (phys / 4096) 0 rw 1 0) := by
    unfold AtomOs.mapPage
    dsimp only
    rw [hpage, hpd]
    rfl
  obtain ⟨hok, hext, hmapped, -, htab⟩ := h.map (t := AtomOs.mapPage s rw cur phys) hspare
    hpg rw (by unfold pageCount; omega) hslot hnone (by rw [hput]; rfl) (by rw [hput]; rfl)
  refine ⟨hok, hext.mono ?_, fun p h1 h2 => ?_, htab, by rw [hput]; rfl, by rw [hput]; exact fun _ => rfl⟩
  · rintro p rfl
    exact ⟨Nat.le_refl _, by omega⟩
  · obtain rfl : p = (cur + 4095) / 4096 := by omega
    exact hmapped

/-- The pages `[first, first + n)` can be mapped: they have page tables and are not mapped. -/
def Vacant (s : VmState) (first n : Nat) : Prop :=
  ∀ p, first ≤ p → p < first + n → s.pageTable (p / 1024) ≠ 0 ∧ ¬ s.Mapped p

theorem Vacant.of_mappedRange
    (h : Vacant s first (n + m)) (hr : MappedRange C base fixed s t v first n)
    (hlt : first + (n + m) ≤ pageCount) : Vacant t (first + n) m := by
  unfold pageCount at hlt
  intro p h1 h2
  obtain ⟨ht, hm⟩ := h p (by omega) (by omega)
  rw [hr.tables _ (by omega)]
  refine ⟨ht, fun hc => ?_⟩
  rcases hr.ext.only p (by unfold pageCount; omega) hc with hc | hc
  · exact hm hc
  · have := hc.2
    omega

theorem MappedRange.append {base' : Set Nat} (h₁ : MappedRange C base fixed s t v first n)
    (h₂ : MappedRange C base' fixed t u v (first + n) m) (hlt : first + (n + m) ≤ pageCount) :
    MappedRange C base' fixed s u v first (n + m) := by
  unfold pageCount at hlt
  refine ⟨h₂.ok, (h₁.ext.mono fun p hp => ?_).trans (h₂.ext.mono fun p hp => ?_), fun p h1 h2 => ?_,
    fun i hi => (h₂.tables i hi).trans (h₁.tables i hi), h₁.regions.trans h₂.regions⟩
  · exact ⟨hp.1, Nat.lt_of_lt_of_le hp.2 (by omega)⟩
  · exact ⟨Nat.le_of_add_right_le hp.1, Nat.lt_of_lt_of_le hp.2 (by omega)⟩
  · by_cases hp : p < first + n
    · exact (h₂.ext.entries p (by unfold pageCount; omega) (h₁.mapped p h1 hp)).1
    · exact h₂.mapped p (by omega) (by omega)

theorem mapRun_spec (rw : Nat) : ∀ {n phys cur : Nat} {s : VmState}
    {v : HeapView}, SpaceOk C (base ∪ runAt phys n) fixed s v → s.pgdir ∈ base →
    phys % 4096 = 0 → (0 < n → phys ≠ 0) → phys + n * 4096 ≤ 4294967296 →
    (∀ a ∈ runAt phys n, a ∉ base) →
    (∀ j < 1024, s.pageTable j ≠ 0 → s.pageTable j ∉ runAt phys n) →
    cur + n * 4096 + 4095 < 4294967296 → Vacant s ((cur + 4095) / 4096) n →
    (mapRun rw n phys cur s).1 = cur + n * 4096 ∧
      MappedRange C base fixed s (mapRun rw n phys cur s).2 v ((cur + 4095) / 4096) n := by
  intro n
  induction n with
  | zero =>
    intro phys cur s v h _ _ _ _ _ _ _ _
    rw [runAt_zero, Set.union_empty] at h
    refine ⟨by simp [mapRun], h, Extends.refl _ _ _, fun p h1 h2 => absurd h2 (by omega),
      fun _ _ => rfl, SameRegions.refl s⟩
  | succ n ih =>
    intro phys cur s v h hpg halign hnull hbelow hfresh hnotab hcur hvac
    rw [runAt_succ] at h hfresh hnotab
    rw [← Set.union_assoc] at h
    have hnext := runAt_next hbelow
    have hpos := hnull (by omega)
    have hspare : Spare (base ∪ runAt (phys + 4096) n) s phys := by
      refine ⟨halign, hpos, by omega, fun a ha hb => ?_, fun j hj he => ?_⟩
      · rcases hb with hb | hb
        · exact hfresh a (.inr ha) hb
        · have := ha.2
          have := hb.1
          omega
      · refine hnotab j hj (by rw [he]; exact hpos) (.inr ?_)
        rw [he]
        exact self_mem_pageAt _
    have hfirst := hvac ((cur + 4095) / 4096) (by omega) (by omega)
    have hpage := h.mapPage hspare (.inl hpg) (by omega) hfirst.1 hfirst.2 rw
    have hcur' : u32 (cur + 4096) = cur + 4096 := by
      unfold u32
      omega
    have hstart : (cur + 4096 + 4095) / 4096 = (cur + 4095) / 4096 + 1 := by omega
    have hok := hpage.ok
    rw [← hnext] at hok
    have hlt : (cur + 4095) / 4096 + (1 + n) ≤ pageCount := by
      unfold pageCount
      omega
    rw [Nat.add_comm n 1] at hvac ⊢
    have hvac' : Vacant (mapPage s rw cur phys) ((cur + 4096 + 4095) / 4096) n := by
      rw [hstart]
      exact hvac.of_mappedRange hpage hlt
    have hnotab' : ∀ j < 1024, (mapPage s rw cur phys).pageTable j ≠ 0 →
        (mapPage s rw cur phys).pageTable j ∉ runAt (u32 (phys + 4096)) n := by
      intro j hj h0 hc
      rw [hpage.tables j hj] at h0 hc
      exact hnotab j hj h0 (.inl (hnext ▸ hc))
    obtain ⟨hend, hrest⟩ := ih hok (by rw [hpage.ext.pgdir]; exact hpg)
      (by unfold u32; omega) (fun hn => by unfold u32; omega) (by unfold u32; omega)
      (fun a ha => hfresh a (.inl (hnext ▸ ha)))
      hnotab' (by omega) hvac'
    rw [hstart] at hrest
    have heq : mapRun rw (1 + n) phys cur s =
        mapRun rw n (u32 (phys + 4096)) (cur + 4096) (mapPage s rw cur phys) := by
      rw [Nat.add_comm, mapRun, hcur']
    rw [heq]
    exact ⟨by omega, hpage.append hrest hlt⟩

theorem SpareRuns.tail (h : SpareRuns base s (ch :: chs)) : SpareRuns base s chs := by
  have hsub : ∀ a ∈ cover (chs.map blk), a ∈ cover ((ch :: chs).map blk) :=
    fun a ha => by
      rw [map_cons, cover_cons]
      exact .inr ha
  exact ⟨(forall_mem_cons.mp h.aligned).2,
    (forall_mem_cons.mp h.notNull).2,
    (forall_mem_cons.mp h.below).2, fun a ha => h.fresh a (hsub a ha),
    fun j hj h0 hc => h.noTable j hj h0 (hsub _ hc), (pairwise_cons.mp h.apart).2⟩

theorem SpareRuns.congr
    (h : SpareRuns base s chs) (htab : ∀ i < 1024, t.pageTable i = s.pageTable i) :
    SpareRuns base t chs :=
  ⟨h.aligned, h.notNull, h.below, h.fresh, fun j hj h0 hc =>
    h.noTable j hj (by rw [← htab j hj]; exact h0) (by rw [← htab j hj]; exact hc), h.apart⟩

/-- **The frames of all runs go under the pages from `cur` on**, rounded upwards. -/
theorem mapFrames_spec (rw : Nat) : ∀ {chs : List CoreHeader} {cur : Nat}
    {s : VmState} {v : HeapView}, SpaceOk C (base ∪ cover (chs.map blk)) fixed s v →
    s.pgdir ∈ base → SpareRuns base s chs → cur + runPages chs * 4096 + 4095 < 4294967296 →
    Vacant s ((cur + 4095) / 4096) (runPages chs) →
    MappedRange C base fixed s (mapFrames rw chs cur s) v ((cur + 4095) / 4096) (runPages chs) := by
  intro chs
  induction chs with
  | nil =>
    intro cur s v h _ _ _ _
    rw [map_nil, cover_nil, Set.union_empty] at h
    exact ⟨h, Extends.refl _ _ _, fun p h1 h2 => absurd h2 (by simp [runPages]; omega),
      fun _ _ => rfl, SameRegions.refl s⟩
  | cons ch chs ih =>
    intro cur s v h hpg hspare hcur hvac
    have hsum : runPages (ch :: chs) = ch.noBlocks + runPages chs := by simp [runPages]
    have hblk : {a | ch.blk.Has a} = runAt ch.physAddr ch.noBlocks := rfl
    have hmemch : ch ∈ ch :: chs := mem_cons_self
    rw [map_cons, cover_cons, hblk, Set.union_comm (runAt _ _), ← Set.union_assoc] at h
    have hfresh : ∀ a ∈ runAt ch.physAddr ch.noBlocks, a ∉ base ∪ cover (chs.map blk) := by
      intro a ha hb
      rcases hb with hb | hb
      · refine hspare.fresh a ?_ hb
        rw [map_cons, cover_cons]
        exact .inl ha
      · obtain ⟨c, hc, hda⟩ := mem_cover_map.mp hb
        exact (pairwise_cons.mp hspare.apart).1 c hc a ha hda
    have hnotab : ∀ j < 1024, s.pageTable j ≠ 0 →
        s.pageTable j ∉ runAt ch.physAddr ch.noBlocks := by
      intro j hj h0 hc
      refine hspare.noTable j hj h0 ?_
      rw [map_cons, cover_cons]
      exact .inl hc
    have hvac1 : Vacant s ((cur + 4095) / 4096) ch.noBlocks := fun p h1 h2 =>
      hvac p h1 (by omega)
    have hcur1 : cur + ch.noBlocks * 4096 + 4095 < 4294967296 := by linarith
    have hcur2 : cur + ch.noBlocks * 4096 + runPages chs * 4096 + 4095 < 4294967296 := by linarith
    obtain ⟨hend, hrun⟩ := mapRun_spec rw h (.inl hpg) (hspare.aligned ch hmemch)
      (fun _ => hspare.notNull ch hmemch) (hspare.below ch hmemch) hfresh hnotab hcur1 hvac1
    have hlt : (cur + 4095) / 4096 + (ch.noBlocks + runPages chs) ≤ pageCount := by
      unfold pageCount
      omega
    have hstart : (cur + ch.noBlocks * 4096 + 4095) / 4096 = (cur + 4095) / 4096 + ch.noBlocks := by
      omega
    have hvac' : Vacant (mapRun rw ch.noBlocks ch.physAddr cur s).2
        ((cur + ch.noBlocks * 4096 + 4095) / 4096) (runPages chs) := by
      rw [hstart]
      exact hvac.of_mappedRange hrun hlt
    have hrest := ih hrun.ok (by rw [hrun.ext.pgdir]; exact hpg) (hspare.tail.congr hrun.tables)
      hcur2 hvac'
    rw [hstart] at hrest
    have heq : mapFrames rw (ch :: chs) cur s =
        mapFrames rw chs (cur + ch.noBlocks * 4096) (mapRun rw ch.noBlocks ch.physAddr cur s).2 := by
      rw [mapFrames, hend]
    rw [heq]
    exact hrun.append hrest hlt

/-- **Frames for vacant pages**: what `core_alloc_n` gives goes under the pages from `cur` on. -/
theorem mapAllocated_spec (rw : Nat) (h : SpaceOk C base fixed s v)
    (halloc : coreAllocN s.heap.core pages = some (some chs, core))
    (hcur : cur + pages * 4096 + 4095 < 4294967296) (hvac : Vacant s ((cur + 4095) / 4096) pages) :
    ∃ v', MappedRange C base fixed s (mapFrames rw chs cur (s.setCore core)) v' ((cur + 4095) / 4096)
      pages ∧ v'.pages = v.pages ∧ v'.given = v.given := by
  obtain ⟨v', hok, hext, hspare, hpages, htab, hviews⟩ := coreAllocN_spec h (by omega) halloc
  have hvac' : Vacant (s.setCore core) ((cur + 4095) / 4096) (runPages chs) := by
    intro p h1 h2
    rw [hpages] at h2
    obtain ⟨ht, hm⟩ := hvac p h1 h2
    rw [htab _ (by omega)]
    exact ⟨ht, fun hc => hm ((hext.only p (by unfold pageCount; omega) hc).resolve_right id)⟩
  have hmap := mapFrames_spec rw hok (h.pgdir (self_mem_pageAt _)) hspare (by rw [hpages]; exact hcur) hvac'
  rw [hpages] at hmap
  exact ⟨v', ⟨hmap.ok, (hext.none _).trans hmap.ext, hmap.mapped,
    fun i hi => (hmap.tables i hi).trans (htab i hi),
    ⟨hmap.regions.regions, hmap.regions.shareCount⟩⟩, hviews⟩

end AtomOs
