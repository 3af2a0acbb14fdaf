import AtomOs.Mem.KmallocSpec

/-!
# Runs of pages, page by page

What is taken from the page allocator as one run may be given back in other pieces: page tables
and frames go back one or two at a time. Here a run is the list of its pages, numbered by the
upper 20 bits of their addresses, and what is out may be cut into runs in another way as long as
the pages are the same (`HeapOk.regroup`).
-/

namespace AtomOs

open Lib List CoreHeader

def CoreHeader.pages (ch : CoreHeader) : List Nat :=
  (List.range ch.noBlocks).map (ch.physAddr / 4096 + ·)

def pageHeader (f : Nat) : CoreHeader := ⟨f * 4096, 1⟩

variable {ch : CoreHeader} {a : Nat} {chs : List CoreHeader}

theorem mem_pages {f : Nat} :
    f ∈ ch.pages ↔ ch.physAddr / 4096 ≤ f ∧ f < ch.physAddr / 4096 + ch.noBlocks := by
  simp only [pages, mem_map, mem_range]
  constructor
  · rintro ⟨k, hk, rfl⟩
    omega
  · rintro ⟨h1, h2⟩
    exact ⟨f - ch.physAddr / 4096, by omega, by omega⟩

theorem nodup_pages (ch : CoreHeader) : ch.pages.Nodup :=
  nodup_range.map fun _ _ hab => Nat.add_left_cancel hab

@[simp] theorem pages_pageHeader (f : Nat) : (pageHeader f).pages = [f] := by
  simp [pages, pageHeader]

theorem flatMap_pages_pageHeader (fs : List Nat) : (fs.map pageHeader).flatMap pages = fs := by
  induction fs with
  | nil => rfl
  | cons f fs ih => simp [ih]

theorem has_iff_mem_pages (hal : ch.physAddr % 4096 = 0) : ch.blk.Has a ↔ a / 4096 ∈ ch.pages := by
  rw [mem_pages]
  show ch.physAddr ≤ a ∧ a < ch.physAddr + ch.noBlocks * 4096 ↔ _
  omega

theorem mem_cover_iff (hal : ∀ ch ∈ chs, ch.physAddr % 4096 = 0) :
    a ∈ cover (chs.map blk) ↔ a / 4096 ∈ chs.flatMap pages := by
  rw [mem_flatMap, mem_cover_map]
  exact exists_congr fun ch => and_congr_right fun hch => has_iff_mem_pages (hal ch hch)

theorem cover_eq_of_pages {A B : List CoreHeader} (hA : ∀ ch ∈ A, ch.physAddr % 4096 = 0)
    (hB : ∀ ch ∈ B, ch.physAddr % 4096 = 0)
    (h : (B.flatMap pages).Perm (A.flatMap pages)) :
    cover (B.map blk) = cover (A.map blk) := by
  ext a
  rw [mem_cover_iff hA, mem_cover_iff hB, h.mem_iff]

theorem apart_iff_nodup (hal : ∀ ch ∈ chs, ch.physAddr % 4096 = 0)
    (hpos : ∀ ch ∈ chs, ch.noBlocks ≠ 0) :
    (chs.map blk).Pairwise Blk.Apart ↔ (chs.flatMap pages).Nodup := by
  rw [nodup_flatMap, pairwise_map]
  have hiff : ∀ {c d : CoreHeader}, c ∈ chs → d ∈ chs →
      (c.blk.Apart d.blk ↔ List.Disjoint c.pages d.pages) := by
    intro c d hc hd
    constructor
    · intro hap f hfc hfd
      have h1 := (has_iff_mem_pages (hal c hc) (a := f * 4096)).mpr (by simpa using hfc)
      have h2 := (has_iff_mem_pages (hal d hd) (a := f * 4096)).mpr (by simpa using hfd)
      exact not_has_of_apart hap h1 h2
    · intro hdis
      have h1 := hpos c hc
      have h2 := hpos d hd
      refine apart_of_disjoint (by show 0 < c.noBlocks * 4096; omega)
        (by show 0 < d.noBlocks * 4096; omega) fun x hx hxd => ?_
      exact hdis ((has_iff_mem_pages (hal c hc)).mp hx) ((has_iff_mem_pages (hal d hd)).mp hxd)
  constructor
  · intro h
    exact ⟨fun c _ => nodup_pages c, h.imp_of_mem fun hc hd hap => (hiff hc hd).mp hap⟩
  · rintro ⟨-, h⟩
    exact h.imp_of_mem fun hc hd hdis => (hiff hc hd).mpr hdis

/-! ## Cutting what is out in another way -/

section regroup

variable {C : Set Nat} {A B rest : List CoreHeader}

theorem CoreSysOk.regroup {core : CoreState} {L : List Blk} (h : CoreSysOk C ⟨core, A ++ rest⟩ L)
    (hal : ∀ ch ∈ B, ch.physAddr % 4096 = 0) (hpos : ∀ ch ∈ B, ch.noBlocks ≠ 0)
    (hperm : (B.flatMap pages).Perm (A.flatMap pages)) :
    CoreSysOk C ⟨core, B ++ rest⟩ L := by
  have hram : ∀ ch ∈ A, InRam core.ramSegments ch.blk := fun ch hch =>
    h.outRam ch (mem_append_left _ hch)
  have halA : ∀ ch ∈ A, ch.physAddr % 4096 = 0 := fun ch hch => (hram ch hch).aligned
  have hcov := cover_eq_of_pages halA hal hperm
  have hpool := h.pool
  rw [CoreSys.out, map_append] at hpool
  have hposA : ∀ ch ∈ A, ch.noBlocks ≠ 0 := by
    intro ch hch h0
    have hlen := hpool.outPos ch.blk (mem_append_left _ (mem_map_of_mem hch))
    have hlen : 0 < ch.noBlocks * 4096 := hlen
    omega
  have hapB : (B.map blk).Pairwise Blk.Apart := by
    rw [apart_iff_nodup hal hpos, hperm.nodup_iff, ← apart_iff_nodup halA hposA]
    exact (pairwise_append.mp hpool.outApart).1
  -- Every page of a new run is a page of an old one.
  have hold : ∀ ch ∈ B, ∀ x, ch.blk.Has x → ∃ a ∈ A, a.blk.Has x := fun ch hch x hx =>
    mem_cover_map.mp (hcov ▸ mem_cover_map.mpr ⟨ch, hch, hx⟩)
  have hfirst : ∀ ch ∈ B, ch.blk.Has ch.physAddr := by
    intro ch hch
    have := hpos ch hch
    exact ⟨Nat.le_refl _, by show ch.physAddr < ch.physAddr + ch.noBlocks * 4096; omega⟩
  refine ⟨h.core, ?_, ?_, ?_⟩
  · rw [CoreSys.out, map_append]
    refine hpool.regroup (forall_mem_map.mpr fun ch hch => ?_) hapB hcov
    have := hpos ch hch
    show 0 < ch.noBlocks * 4096
    omega
  · obtain ⟨haddr, hrest⟩ := forall_mem_append.mp h.outAddr
    refine forall_mem_append.mpr ⟨fun ch hch h0 => ?_, hrest⟩
    obtain ⟨a, ha, hax⟩ := hold ch hch ch.physAddr (hfirst ch hch)
    have hlo : a.physAddr ≤ ch.physAddr := hax.1
    exact haddr a ha (by omega)
  · refine forall_mem_append.mpr ⟨fun ch hch => ?_, (forall_mem_append.mp h.outRam).2⟩
    have hn := hpos ch hch
    refine ⟨hal ch hch, Nat.mul_mod_left _ _, ?_, ?_⟩
    · obtain ⟨a, ha, hax⟩ := hold ch hch (ch.physAddr + ch.noBlocks * 4096 - 1)
        ⟨by show ch.physAddr ≤ _; omega,
          by show _ < ch.physAddr + ch.noBlocks * 4096; omega⟩
      have hhi : ch.physAddr + ch.noBlocks * 4096 - 1 < a.blk.fin := hax.2
      have hbelow := (hram a ha).below
      show ch.physAddr + ch.noBlocks * 4096 ≤ 4294967296
      omega
    · intro x hx hp
      obtain ⟨a, ha, hax⟩ := hold ch hch x hx
      exact (hram a ha).usable x hax hp

theorem HeapOk.regroup {heap : HeapState} {v : HeapView}
    (h : HeapOk C heap { v with others := A ++ rest }) (hal : ∀ ch ∈ B, ch.physAddr % 4096 = 0)
    (hpos : ∀ ch ∈ B, ch.noBlocks ≠ 0)
    (hperm : (B.flatMap pages).Perm (A.flatMap pages)) :
    HeapOk C heap { v with others := B ++ rest } := by
  obtain ⟨F, hsys⟩ := h.sys
  have hmove : ∀ X : List CoreHeader, (v.pages ++ (v.given ++ (X ++ rest))).Perm
      (X ++ (v.pages ++ (v.given ++ rest))) := fun X =>
    ((perm_append_comm_assoc v.given X rest).append_left v.pages).trans
      (perm_append_comm_assoc v.pages X _)
  have hsys' := ((hsys.perm (hmove A)).regroup hal hpos hperm).perm (hmove B).symm
  exact ⟨⟨F, hsys'⟩, h.low, h.nodes.page, h.nodes.chain, h.nodes.avail, h.nodes.used, h.nodes.nodup,
    h.nodes.node, h.nodes.inUse, h.nodes.blocks⟩

end regroup

end AtomOs
