import AtomOs.Mem.KmallocRun
import AtomOs.Mem.Vm

/-!
# Who owns the pages of an address space

The page directory, the page tables and the frames under them are pages somebody has taken from
the page allocator. `SpaceOk C base fixed s v` says whose: each page that is out is in `base` (the
page directory, the kernel's own pages, pages just taken), or is the page table of one slot, or the
frame of one mapped page. `fixed` are the pages the kernel maps one to one, which own nothing.

The work on page tables is made of three moves, and each has a lemma: a page comes out of the
allocator and into `base` (`SpaceOk.extend`), a page of `base` becomes a page table
(`SpaceOk.link`), and a page of `base` becomes a frame (`SpaceOk.map`). `Extends` says what such
moves leave alone: every entry that was there, and what is in its frame.
-/

namespace AtomOs

open Lib

/-! ## Entries -/

/-- The entry of slot `i` in the page directory. -/
def VmState.pde (s : VmState) (i : Nat) : Nat := s.mem (s.pgdir + 4 * i)

/-- The entry of a page in the page table of its slot. Pages are numbered by the upper 20 bits of
    their addresses. -/
def VmState.pte (s : VmState) (p : Nat) : Nat := s.mem (s.pageTable (p / 1024) + 4 * (p % 1024))

/-- Both entries of the page are marked present. -/
def VmState.Mapped (s : VmState) (p : Nat) : Prop :=
  s.pageTable (p / 1024) ≠ 0 ∧ entryPresent (s.pde (p / 1024)) = 1 ∧ entryPresent (s.pte p) = 1

instance (s : VmState) (p : Nat) : Decidable (s.Mapped p) := inferInstanceAs (Decidable (_ ∧ _))

def VmState.frame (s : VmState) (p : Nat) : Nat := entryBase (s.pte p) * 4096

def pageCount : Nat := 1048576

variable {p i w : Nat} {v' : HeapView}

theorem slot_lt (hp : p < pageCount) : p / 1024 < 1024 := by
  unfold pageCount at hp
  omega

theorem pageTable_eq (s : VmState) (i : Nat) : s.pageTable i = entryBase (s.pde i) * 4096 := rfl

theorem makeEntry_present (addr avail rw global : Nat) :
    entryPresent (makeEntry addr avail rw 1 global) = 1 := by
  unfold entryPresent makeEntry
  split <;> omega

theorem makeEntry_base {addr : Nat} (h : addr < 1048576) (avail rw present global : Nat) :
    entryBase (makeEntry addr avail rw present global) = addr := by
  unfold entryBase makeEntry
  split <;> omega

/-! ## Pages of memory -/

def pageAt (p : Nat) : Set Nat := {a | p ≤ a ∧ a < p + 4096}

theorem self_mem_pageAt (p : Nat) : p ∈ pageAt p := ⟨Nat.le_refl p, by omega⟩

theorem word_mem_pageAt (p : Nat) {k : Nat} (hk : k < 1024) : p + 4 * k ∈ pageAt p :=
  ⟨by omega, by omega⟩

theorem pageAt_disjoint {q a : Nat} (hp : p % 4096 = 0) (hq : q % 4096 = 0) (hne : p ≠ q)
    (ha : a ∈ pageAt p) : a ∉ pageAt q := by
  intro haq
  obtain ⟨h1, h2⟩ := ha
  obtain ⟨h3, h4⟩ := haq
  omega

theorem pageTable_aligned (s : VmState) (i : Nat) : s.pageTable i % 4096 = 0 :=
  Nat.mul_mod_left _ _

theorem frame_aligned (s : VmState) (p : Nat) : s.frame p % 4096 = 0 := Nat.mul_mod_left _ _

/-- The memory of the pages that are out and not the heap's. -/
def HeapView.owned (v : HeapView) : Set Nat := cover (v.others.map CoreHeader.blk)

theorem HeapOk.of_owned {C : Set Nat} {h h' : HeapState} {v : HeapView} (hok : HeapOk C h v)
    (hfirst : h'.core.firstBlock = h.core.firstBlock)
    (hram : h'.core.ramSegments = h.core.ramSegments) (hinfo : h'.kmmallocInfo = h.kmmallocInfo)
    (hav : h'.kmavailList = h.kmavailList) (hus : h'.kmusedList = h.kmusedList)
    (hmem : ∀ a, a ∉ v.owned → h'.mem a = h.mem a) : HeapOk C h' v := by
  have hsub : ∀ a, a ∈ v.owned → a ∈ cover ((v.given ++ v.others).map CoreHeader.blk) := by
    intro a ha
    rw [List.map_append, cover_append]
    exact .inr ha
  refine ⟨hok.sys_congr (List.Perm.refl _) (fun a ha => hmem a fun ho => ha ?_) hfirst hram, hok.low,
    ?_⟩
  · exact v.clients_sub_held (hsub a ho)
  · rw [hinfo, hav, hus]
    exact hok.nodes.congr fun a ha => hmem a fun ho => hok.pages_apart (hsub a ho) ha

/-! ## The invariant -/

structure SpaceOk (C base fixed : Set Nat) (s : VmState) (v : HeapView) : Prop where
  heap : HeapOk C s.heap v
  loose : v.loose = []
  baseOwned : base ⊆ v.owned
  pgdirAligned : s.pgdir % 4096 = 0
  pgdir : pageAt s.pgdir ⊆ base
  table : ∀ i < 1024, s.pageTable i ≠ 0 → entryPresent (s.pde i) = 1 ∧
    pageAt (s.pageTable i) ⊆ v.owned ∧ s.pageTable i ≠ s.pgdir
  tableInj : ∀ i < 1024, ∀ j < 1024, s.pageTable i ≠ 0 → s.pageTable i = s.pageTable j → i = j
  fixedMapped : ∀ p ∈ fixed, p < pageCount ∧ s.Mapped p
  frame : ∀ p < pageCount, p ∉ fixed → s.Mapped p → pageAt (s.frame p) ⊆ v.owned \ base ∧
    ∀ i < 1024, s.frame p ≠ s.pageTable i
  frameInj : ∀ p < pageCount, ∀ q < pageCount, p ∉ fixed → q ∉ fixed → s.Mapped p → s.Mapped q →
    s.frame p = s.frame q → p = q
  accounted : ∀ a ∈ v.owned, a ∈ base ∨
    (∃ i < 1024, s.pageTable i ≠ 0 ∧ a ∈ pageAt (s.pageTable i)) ∨
    ∃ p < pageCount, p ∉ fixed ∧ s.Mapped p ∧ a ∈ pageAt (s.frame p)

/-- What may happen to the entries on the way from `s` to `t`: pages in `new` may get mapped, and
    nothing else changes, nor does what is in the frames. -/
structure Extends (fixed : Set Nat) (s t : VmState) (new : Set Nat) : Prop where
  pgdir : t.pgdir = s.pgdir
  tables : ∀ i < 1024, s.pageTable i ≠ 0 → t.pageTable i = s.pageTable i
  entries : ∀ p < pageCount, s.Mapped p → t.Mapped p ∧ t.pte p = s.pte p
  only : ∀ p < pageCount, t.Mapped p → s.Mapped p ∨ p ∈ new
  contents : ∀ p < pageCount, p ∉ fixed → s.Mapped p → ∀ a ∈ pageAt (s.frame p), t.mem a = s.mem a

theorem Extends.refl (fixed : Set Nat) (s : VmState) (new : Set Nat) : Extends fixed s s new :=
  ⟨rfl, fun _ _ _ => rfl, fun _ _ h => ⟨h, rfl⟩, fun _ _ h => .inl h, fun _ _ _ _ _ _ => rfl⟩

theorem Extends.trans {fixed new : Set Nat} {s t u : VmState} (h1 : Extends fixed s t new)
    (h2 : Extends fixed t u new) : Extends fixed s u new := by
  refine ⟨h2.pgdir.trans h1.pgdir, fun i hi h0 => ?_, fun p hp hm => ?_, fun p hp hm => ?_,
    fun p hp hf hm a ha => ?_⟩
  · have ht := h1.tables i hi h0
    rw [h2.tables i hi (by rw [ht]; exact h0), ht]
  · obtain ⟨hm1, he1⟩ := h1.entries p hp hm
    obtain ⟨hm2, he2⟩ := h2.entries p hp hm1
    exact ⟨hm2, he2.trans he1⟩
  · rcases h2.only p hp hm with hm | hn
    · exact h1.only p hp hm
    · exact .inr hn
  · obtain ⟨hm1, he1⟩ := h1.entries p hp hm
    have hframe : t.frame p = s.frame p := congrArg (entryBase · * 4096) he1
    rw [h2.contents p hp hf hm1 a (by rw [hframe]; exact ha)]
    exact h1.contents p hp hf hm a ha

theorem Extends.mono {fixed new new' : Set Nat} {s t : VmState} (h : Extends fixed s t new)
    (hsub : new ⊆ new') : Extends fixed s t new' :=
  ⟨h.pgdir, h.tables, h.entries, fun p hp hm => (h.only p hp hm).imp id fun hn => hsub hn,
    h.contents⟩

theorem Extends.none {fixed : Set Nat} {s t : VmState} (h : Extends fixed s t ∅) (new : Set Nat) :
    Extends fixed s t new := h.mono (Set.empty_subset new)

/-! ## The three moves -/

section moves

variable {C base fixed : Set Nat} {s t : VmState} {v : HeapView} (h : SpaceOk C base fixed s v)
include h

theorem SpaceOk.pde_owned (hi : i < 1024) : s.pgdir + 4 * i ∈ v.owned :=
  h.baseOwned (h.pgdir (word_mem_pageAt _ hi))

theorem SpaceOk.pte_owned (hp : p < pageCount) (h0 : s.pageTable (p / 1024) ≠ 0) :
    s.pageTable (p / 1024) + 4 * (p % 1024) ∈ v.owned := by
  unfold pageCount at hp
  exact (h.table _ (by omega) h0).2.1 (word_mem_pageAt _ (by omega))

theorem SpaceOk.pte_ne {q : Nat} (hp : p < pageCount) (hq : q < pageCount)
    (hp0 : s.pageTable (p / 1024) ≠ 0) (hne : p ≠ q) :
    s.pageTable (p / 1024) + 4 * (p % 1024) ≠ s.pageTable (q / 1024) + 4 * (q % 1024) := by
  unfold pageCount at hp hq
  intro heq
  have hpa := word_mem_pageAt (s.pageTable (p / 1024)) (Nat.mod_lt p (by decide : 0 < 1024))
  have hqa := word_mem_pageAt (s.pageTable (q / 1024)) (Nat.mod_lt q (by decide : 0 < 1024))
  rw [heq] at hpa
  have htab : s.pageTable (p / 1024) = s.pageTable (q / 1024) := by
    by_contra hc
    exact pageAt_disjoint (pageTable_aligned s _) (pageTable_aligned s _) hc hpa hqa
  have hslot := h.tableInj _ (by omega) _ (by omega) hp0 htab
  omega

/-- **A change that leaves each mapped page its frame.** Pages that come out of the allocator with it
    go to `base`. -/
theorem SpaceOk.of_frames (new : Set Nat) (hheap : HeapOk C t.heap v') (hloose : v'.loose = [])
    (hown : v'.owned = v.owned ∪ new) (hnew : ∀ a ∈ new, a ∉ v.owned) (hpgdir : t.pgdir = s.pgdir)
    (hpde : ∀ i < 1024, t.pde i = s.pde i) (hmap : ∀ p < pageCount, t.Mapped p ↔ s.Mapped p)
    (hframe : ∀ p < pageCount, s.Mapped p → t.frame p = s.frame p) :
    SpaceOk C (base ∪ new) fixed t v' := by
  have htab : ∀ i < 1024, t.pageTable i = s.pageTable i := fun i hi => by
    rw [pageTable_eq, pageTable_eq, hpde i hi]
  have hsub : v.owned ⊆ v'.owned := hown ▸ Set.subset_union_left
  refine ⟨hheap, hloose, ?_, ?_, ?_, fun i hi h0 => ?_, fun i hi j hj h0 he => ?_, fun p hp => ?_,
    fun p hp hf hm => ?_, fun p hp q hq hpf hqf hpm hqm he => ?_, fun a ha => ?_⟩
  · rw [hown]
    exact Set.union_subset_union_left _ h.baseOwned
  · rw [hpgdir]
    exact h.pgdirAligned
  · rw [hpgdir]
    exact h.pgdir.trans Set.subset_union_left
  · rw [htab i hi] at h0 ⊢
    rw [hpde i hi, hpgdir]
    obtain ⟨hp, hs, hn⟩ := h.table i hi h0
    exact ⟨hp, hs.trans hsub, hn⟩
  · rw [htab i hi] at h0 he
    rw [htab j hj] at he
    exact h.tableInj i hi j hj h0 he
  · obtain ⟨hlt, hm⟩ := h.fixedMapped p hp
    exact ⟨hlt, (hmap p hlt).mpr hm⟩
  · have hm' := (hmap p hp).mp hm
    obtain ⟨hs, hn⟩ := h.frame p hp hf hm'
    rw [hframe p hp hm']
    refine ⟨fun a ha => ⟨hsub (hs ha).1, fun hb => ?_⟩, fun i hi => ?_⟩
    · rcases hb with hb | hb
      · exact (hs ha).2 hb
      · exact hnew a hb (hs ha).1
    · rw [htab i hi]
      exact hn i hi
  · have hpm' := (hmap p hp).mp hpm
    have hqm' := (hmap q hq).mp hqm
    rw [hframe p hp hpm', hframe q hq hqm'] at he
    exact h.frameInj p hp q hq hpf hqf hpm' hqm' he
  · rw [hown] at ha
    rcases ha with ha | ha
    · rcases h.accounted a ha with hb | ⟨i, hi, h0, hai⟩ | ⟨p, hp, hpf, hm, hap⟩
      · exact .inl (.inl hb)
      · rw [← htab i hi] at h0 hai
        exact .inr (.inl ⟨i, hi, h0, hai⟩)
      · rw [← hframe p hp hm] at hap
        exact .inr (.inr ⟨p, hp, hpf, (hmap p hp).mpr hm, hap⟩)
    · exact .inl (.inr ha)

/-- **Pages come out of the allocator.** What is out stays as it is, and they go to `base`. -/
theorem SpaceOk.extend (new : Set Nat) (hheap : HeapOk C t.heap v')
    (hloose : v'.loose = []) (hown : v'.owned = v.owned ∪ new) (hnew : ∀ a ∈ new, a ∉ v.owned)
    (hpgdir : t.pgdir = s.pgdir) (hmem : ∀ a ∈ v.owned, t.mem a = s.mem a) :
    SpaceOk C (base ∪ new) fixed t v' ∧ Extends fixed s t ∅ ∧
      ∀ i < 1024, t.pageTable i = s.pageTable i := by
  have hpde : ∀ i < 1024, t.pde i = s.pde i := fun i hi => by
    unfold VmState.pde
    rw [hpgdir]
    exact hmem _ (h.pde_owned hi)
  have htab : ∀ i < 1024, t.pageTable i = s.pageTable i := fun i hi => by
    rw [pageTable_eq, pageTable_eq, hpde i hi]
  have hpte : ∀ p < pageCount, s.pageTable (p / 1024) ≠ 0 → t.pte p = s.pte p := fun p hp h0 => by
    unfold VmState.pte
    rw [htab _ (slot_lt hp)]
    exact hmem _ (h.pte_owned hp h0)
  have hmap : ∀ p < pageCount, t.Mapped p ↔ s.Mapped p := fun p hp => by
    unfold VmState.Mapped
    rw [htab _ (slot_lt hp), hpde _ (slot_lt hp)]
    refine and_congr_right fun h0 => ?_
    rw [hpte p hp h0]
  refine ⟨h.of_frames new hheap hloose hown hnew hpgdir hpde hmap fun p hp hm => ?_,
    ⟨hpgdir, fun i hi _ => htab i hi, fun p hp hm => ⟨(hmap p hp).mpr hm, hpte p hp hm.1⟩,
      fun p hp hm => .inl ((hmap p hp).mp hm),
      fun p hp hf hm a ha => hmem a ((h.frame p hp hf hm).1 ha).1⟩, htab⟩
  unfold VmState.frame
  rw [hpte p hp hm.1]

/-- The entry of page `p` has other bits, but the same frame. -/
structure Remarked (fixed : Set Nat) (s t : VmState) (p : Nat) : Prop where
  tables : ∀ i < 1024, t.pageTable i = s.pageTable i
  mapped : ∀ q < pageCount, t.Mapped q ↔ s.Mapped q
  others : ∀ q < pageCount, q ≠ p → t.pte q = s.pte q
  frame : ∀ q < pageCount, t.frame q = s.frame q
  contents : ∀ q < pageCount, q ∉ fixed → s.Mapped q → ∀ a ∈ pageAt (s.frame q), t.mem a = s.mem a

/-- What is left alone by a store into the entry of page `p`. -/
structure EntryPut (fixed : Set Nat) (s t : VmState) (p w : Nat) : Prop where
  pde : ∀ j < 1024, t.pde j = s.pde j
  tables : ∀ j < 1024, t.pageTable j = s.pageTable j
  self : t.pte p = w
  others : ∀ r < pageCount, r ≠ p → t.pte r = s.pte r
  contents : ∀ r < pageCount, r ∉ fixed → s.Mapped r → ∀ a ∈ pageAt (s.frame r), t.mem a = s.mem a

omit h in
theorem EntryPut.mapped {r : Nat} (hput : EntryPut fixed s t p w) (hr : r < pageCount)
    (hpres : entryPresent (t.pte r) = entryPresent (s.pte r)) : t.Mapped r ↔ s.Mapped r := by
  unfold VmState.Mapped
  rw [hput.tables _ (slot_lt hr), hput.pde _ (slot_lt hr), hpres]

/-- The entry of a page lies in a page table, which is neither the page directory nor a frame. -/
theorem SpaceOk.put_entry (hp : p < pageCount) (hslot : s.pageTable (p / 1024) ≠ 0)
    (hpgdir : t.pgdir = s.pgdir)
    (hheap : t.heap = s.heap.put (s.pageTable (p / 1024) + 4 * (p % 1024)) w) :
    HeapOk C t.heap v ∧ EntryPut fixed s t p w := by
  have hin := word_mem_pageAt (s.pageTable (p / 1024)) (Nat.mod_lt p (by decide : 0 < 1024))
  have hmem : ∀ a, t.mem a = if a = s.pageTable (p / 1024) + 4 * (p % 1024) then w else s.mem a := by
    intro a
    unfold VmState.mem
    rw [hheap]
    rfl
  have hpde : ∀ j < 1024, t.pde j = s.pde j := fun j hj => by
    unfold VmState.pde
    rw [hpgdir, hmem, if_neg fun he => ?_]
    refine pageAt_disjoint (pageTable_aligned s _) h.pgdirAligned (h.table _ (slot_lt hp) hslot).2.2
      hin ?_
    rw [← he]
    exact word_mem_pageAt _ hj
  have htab : ∀ j < 1024, t.pageTable j = s.pageTable j := fun j hj => by
    rw [pageTable_eq, pageTable_eq, hpde j hj]
  refine ⟨?_, hpde, htab, ?_, fun r hr hrp => ?_, fun r hr hf hm a ha => ?_⟩
  · refine h.heap.of_owned (by rw [hheap]; rfl) (by rw [hheap]; rfl) (by rw [hheap]; rfl)
      (by rw [hheap]; rfl) (by rw [hheap]; rfl) fun a ha => ?_
    refine (hmem a).trans (if_neg fun he => ha ?_)
    rw [he]
    exact h.pte_owned hp hslot
  · unfold VmState.pte
    rw [htab _ (slot_lt hp), hmem, if_pos rfl]
  · unfold VmState.pte
    rw [htab _ (slot_lt hr), hmem, if_neg (h.pte_ne hp hr hslot (Ne.symm hrp)).symm]
  · refine (hmem a).trans (if_neg fun he => ?_)
    refine pageAt_disjoint (frame_aligned s r) (pageTable_aligned s _)
      ((h.frame r hr hf hm).2 _ (slot_lt hp)) ha ?_
    rw [he]
    exact hin

/-- **The entry of a page is rewritten** with the same frame. -/
theorem SpaceOk.remark (hp : p < pageCount) (hslot : s.pageTable (p / 1024) ≠ 0)
    (hpres : entryPresent w = entryPresent (s.pte p)) (hbase : entryBase w = entryBase (s.pte p))
    (hpgdir : t.pgdir = s.pgdir)
    (hheap : t.heap = s.heap.put (s.pageTable (p / 1024) + 4 * (p % 1024)) w) :
    SpaceOk C base fixed t v ∧ Remarked fixed s t p := by
  obtain ⟨hok, hput⟩ := h.put_entry hp hslot hpgdir hheap
  have hmap : ∀ r < pageCount, t.Mapped r ↔ s.Mapped r := fun r hr => by
    refine hput.mapped hr ?_
    by_cases hrp : r = p
    · rw [hrp, hput.self, hpres]
    · rw [hput.others r hr hrp]
  have hframe : ∀ r < pageCount, t.frame r = s.frame r := fun r hr => by
    unfold VmState.frame
    by_cases hrp : r = p
    · rw [hrp, hput.self, hbase]
    · rw [hput.others r hr hrp]
  have hspace := h.of_frames ∅ hok h.loose (by rw [Set.union_empty]) (fun a ha => ha.elim) hpgdir
    hput.pde hmap fun r hr _ => hframe r hr
  rw [Set.union_empty] at hspace
  exact ⟨hspace, hput.tables, hmap, hput.others, hframe, hput.contents⟩

end moves

/-- A page that was taken and is not in use yet. -/
structure Spare (base : Set Nat) (s : VmState) (q : Nat) : Prop where
  aligned : q % 4096 = 0
  notNull : q ≠ 0
  low : q < 4294967296
  fresh : ∀ a ∈ pageAt q, a ∉ base
  noTable : ∀ j < 1024, s.pageTable j ≠ q

section spend

variable {C base fixed : Set Nat} {s t : VmState} {v : HeapView} {q : Nat}
  (h : SpaceOk C (base ∪ pageAt q) fixed s v) (hq : Spare base s q) (hpg : s.pgdir ∈ base)
include h hq hpg

omit h in
theorem Spare.pgdir_ne : s.pgdir ≠ q := fun he => hq.fresh q (self_mem_pageAt q) (he ▸ hpg)

theorem SpaceOk.pgdir_base : pageAt s.pgdir ⊆ base := fun _ ha =>
  (h.pgdir ha).resolve_right
    (pageAt_disjoint h.pgdirAligned hq.aligned (hq.pgdir_ne hpg) ha)

/-- What is left alone when page `q` is cleared and becomes the page table of slot `i`: memory outside
    of the page and the slot, the other slots, and the entries of all pages that are mapped. -/
structure TableLinked (s t : VmState) (i q : Nat) : Prop where
  kept : ∀ a, a ≠ s.pgdir + 4 * i → a ∉ pageAt q → t.mem a = s.mem a
  pde : ∀ j < 1024, j ≠ i → t.pde j = s.pde j
  tables : ∀ j < 1024, j ≠ i → t.pageTable j = s.pageTable j
  present : entryPresent (t.pde i) = 1
  self : t.pageTable i = q
  mapped : ∀ p < pageCount, t.Mapped p ↔ s.Mapped p
  pte : ∀ p < pageCount, s.Mapped p → t.pte p = s.pte p

theorem SpaceOk.tableLinked {rw : Nat} (hi : i < 1024) (hnone : s.pageTable i = 0)
    (hpgdir : t.pgdir = s.pgdir) (hheap : t.heap =
      (zeroPage s.heap q).put (s.pgdir + 4 * i) (makeEntry (q / 4096) 0 rw 1 0)) :
    TableLinked s t i q := by
  have hne := hq.pgdir_ne hpg
  have hmem : ∀ a, t.mem a = if a = s.pgdir + 4 * i then makeEntry (q / 4096) 0 rw 1 0
      else if q ≤ a ∧ a < q + 4096 then 0 else s.mem a := by
    intro a
    unfold VmState.mem
    rw [hheap]
    rfl
  have hkeep : ∀ a, a ≠ s.pgdir + 4 * i → a ∉ pageAt q → t.mem a = s.mem a := fun a h1 h2 => by
    rw [hmem, if_neg h1]
    exact if_neg h2
  have hpde : ∀ j < 1024, j ≠ i → t.pde j = s.pde j := fun j hj hji => by
    unfold VmState.pde
    rw [hpgdir]
    exact hkeep _ (by omega) (pageAt_disjoint h.pgdirAligned hq.aligned hne (word_mem_pageAt _ hj))
  have hpdei : t.pde i = makeEntry (q / 4096) 0 rw 1 0 := by
    unfold VmState.pde
    rw [hpgdir, hmem, if_pos rfl]
  have htab : ∀ j < 1024, j ≠ i → t.pageTable j = s.pageTable j := fun j hj hji => by
    rw [pageTable_eq, pageTable_eq, hpde j hj hji]
  have htabi : t.pageTable i = q := by
    have hlow := hq.low
    have halign := hq.aligned
    rw [pageTable_eq, hpdei, makeEntry_base (by omega)]
    omega
  -- Entries in the other tables are where they were; those in the new table are empty.
  have hpte : ∀ p < pageCount, p / 1024 ≠ i → s.pageTable (p / 1024) ≠ 0 → t.pte p = s.pte p := by
    intro p hp hpi h0
    have hslot := slot_lt hp
    unfold VmState.pte
    rw [htab _ hslot hpi]
    have hin := word_mem_pageAt (s.pageTable (p / 1024)) (Nat.mod_lt p (by decide : 0 < 1024))
    refine hkeep _ (fun he => ?_) (pageAt_disjoint (pageTable_aligned s _) hq.aligned
      (hq.noTable _ hslot) hin)
    rw [he] at hin
    exact pageAt_disjoint (pageTable_aligned s _) h.pgdirAligned (h.table _ hslot h0).2.2 hin
      (word_mem_pageAt _ hi)
  have hempty : ∀ p < pageCount, p / 1024 = i → ¬ t.Mapped p := by
    intro p hp hpi hm
    have hin := word_mem_pageAt q (Nat.mod_lt p (by decide : 0 < 1024))
    have hzero : t.pte p = 0 := by
      unfold VmState.pte
      rw [hpi, htabi, hmem, if_neg fun he => ?_]
      · exact if_pos hin
      · rw [he] at hin
        exact pageAt_disjoint hq.aligned h.pgdirAligned (Ne.symm hne) hin (word_mem_pageAt _ hi)
    have hpres := hm.2.2
    rw [hzero] at hpres
    exact absurd hpres (by decide)
  have hmap : ∀ p < pageCount, t.Mapped p ↔ s.Mapped p := by
    intro p hp
    by_cases hpi : p / 1024 = i
    · exact iff_of_false (hempty p hp hpi) fun hm => hm.1 (by rw [hpi]; exact hnone)
    have hslot := slot_lt hp
    unfold VmState.Mapped
    rw [htab _ hslot hpi, hpde _ hslot hpi]
    refine and_congr_right fun h0 => ?_
    rw [hpte p hp hpi h0]
  refine ⟨hkeep, hpde, htab, by rw [hpdei]; exact makeEntry_present _ _ _ _, htabi, hmap, fun p hp hm => ?_⟩
  exact hpte p hp (fun hpi => hm.1 (by rw [hpi]; exact hnone)) hm.1

/-- **A page becomes the page table of a slot that has none.** It is cleared first. -/
theorem SpaceOk.link {rw : Nat} (hi : i < 1024) (hnone : s.pageTable i = 0)
    (hpgdir : t.pgdir = s.pgdir) (hheap : t.heap =
      (zeroPage s.heap q).put (s.pgdir + 4 * i) (makeEntry (q / 4096) 0 rw 1 0)) :
    SpaceOk C base fixed t v ∧ Extends fixed s t ∅ ∧ t.pageTable i = q ∧
      ∀ j < 1024, j ≠ i → t.pageTable j = s.pageTable j := by
  have hne := hq.pgdir_ne hpg
  have hpgb := h.pgdir_base hq hpg
  obtain ⟨hkeep, hpde, htab, hpresent, htabi, hmap, hpte'⟩ := h.tableLinked hq hpg hi hnone hpgdir hheap
  have hframe : ∀ p < pageCount, s.Mapped p → t.frame p = s.frame p := fun p hp hm => by
    unfold VmState.frame
    rw [hpte' p hp hm]
  have hqown : pageAt q ⊆ v.owned := Set.subset_union_right.trans h.baseOwned
  have hok : HeapOk C t.heap v := by
    refine h.heap.of_owned (by rw [hheap]; rfl) (by rw [hheap]; rfl) (by rw [hheap]; rfl)
      (by rw [hheap]; rfl) (by rw [hheap]; rfl) fun a ha => hkeep a (fun he => ha ?_) fun hc => ha (hqown hc)
    rw [he]
    exact h.pde_owned hi
  refine ⟨⟨hok, h.loose, Set.subset_union_left.trans h.baseOwned, ?_, ?_, fun j hj h0 => ?_,
    fun j hj k hk h0 he => ?_, fun p hp => ?_, fun p hp hf hm => ?_,
    fun p hp r hr hpf hrf hpm hrm he => ?_, fun a ha => ?_⟩,
    ⟨hpgdir, fun j hj h0 => ?_, fun p hp hm => ⟨(hmap p hp).mpr hm, hpte' p hp hm⟩,
      fun p hp hm => .inl ((hmap p hp).mp hm), fun p hp hf hm a ha => ?_⟩, htabi, htab⟩
  · rw [hpgdir]
    exact h.pgdirAligned
  · rw [hpgdir]
    exact hpgb
  · by_cases hji : j = i
    · rw [hji, htabi, hpgdir]
      exact ⟨hpresent, hqown, Ne.symm hne⟩
    · rw [htab j hj hji] at h0 ⊢
      rw [hpde j hj hji, hpgdir]
      exact h.table j hj h0
  · by_cases hji : j = i
    · by_cases hki : k = i
      · rw [hji, hki]
      · rw [hji, htabi, htab k hk hki] at he
        exact absurd he.symm (hq.noTable k hk)
    by_cases hki : k = i
    · rw [hki, htabi, htab j hj hji] at he
      exact absurd he (hq.noTable j hj)
    · rw [htab j hj hji] at h0 he
      rw [htab k hk hki] at he
      exact h.tableInj j hj k hk h0 he
  · obtain ⟨hlt, hm⟩ := h.fixedMapped p hp
    exact ⟨hlt, (hmap p hlt).mpr hm⟩
  · have hm' := (hmap p hp).mp hm
    obtain ⟨hs, hn⟩ := h.frame p hp hf hm'
    rw [hframe p hp hm']
    refine ⟨fun a ha => ⟨(hs ha).1, fun hb => (hs ha).2 (.inl hb)⟩, fun j hj => ?_⟩
    by_cases hji : j = i
    · rw [hji, htabi]
      exact fun he => (hs (self_mem_pageAt _)).2 (.inr (he ▸ self_mem_pageAt _))
    · rw [htab j hj hji]
      exact hn j hj
  · have hpm' := (hmap p hp).mp hpm
    have hrm' := (hmap r hr).mp hrm
    rw [hframe p hp hpm', hframe r hr hrm'] at he
    exact h.frameInj p hp r hr hpf hrf hpm' hrm' he
  · rcases h.accounted a ha with (hb | hb) | ⟨j, hj, h0, haj⟩ | ⟨p, hp, hpf, hm, hap⟩
    · exact .inl hb
    · exact .inr (.inl ⟨i, hi, by rw [htabi]; exact hq.notNull, by rw [htabi]; exact hb⟩)
    · have hji : j ≠ i := fun he => h0 (by rw [he]; exact hnone)
      rw [← htab j hj hji] at h0 haj
      exact .inr (.inl ⟨j, hj, h0, haj⟩)
    · rw [← hframe p hp hm] at hap
      exact .inr (.inr ⟨p, hp, hpf, (hmap p hp).mpr hm, hap⟩)
  · have hji : j ≠ i := fun he => h0 (by rw [he]; exact hnone)
    exact htab j hj hji
  · have hs := ((h.frame p hp hf hm).1 ha).2
    exact hkeep a (fun he => hs (.inl (hpgb (by rw [he]; exact word_mem_pageAt _ hi))))
      fun hc => hs (.inr hc)

/-- **A page becomes the frame of a page that is not mapped.** -/
theorem SpaceOk.map (rw : Nat) (hp : p < pageCount) (hslot : s.pageTable (p / 1024) ≠ 0)
    (hnone : ¬ s.Mapped p) (hpgdir : t.pgdir = s.pgdir) (hheap : t.heap =
      s.heap.put (s.pageTable (p / 1024) + 4 * (p % 1024)) (makeEntry (q / 4096) 0 rw 1 0)) :
    SpaceOk C base fixed t v ∧ Extends fixed s t {p} ∧ t.Mapped p ∧ t.frame p = q ∧
      ∀ j < 1024, t.pageTable j = s.pageTable j := by
  have hpgb := h.pgdir_base hq hpg
  have hlt := slot_lt hp
  obtain ⟨hok, hput⟩ := h.put_entry hp hslot hpgdir hheap
  have htab := hput.tables
  have hmap : ∀ r < pageCount, r ≠ p → (t.Mapped r ↔ s.Mapped r) := fun r hr hrp =>
    hput.mapped hr (by rw [hput.others r hr hrp])
  have hmapp : t.Mapped p := by
    refine ⟨by rw [htab _ hlt]; exact hslot, by rw [hput.pde _ hlt]; exact (h.table _ hlt hslot).1,
      ?_⟩
    rw [hput.self]
    exact makeEntry_present _ _ _ _
  have hframe : ∀ r < pageCount, r ≠ p → t.frame r = s.frame r := fun r hr hrp => by
    unfold VmState.frame
    rw [hput.others r hr hrp]
  have hframep : t.frame p = q := by
    have hlow := hq.low
    have halign := hq.aligned
    unfold VmState.frame
    rw [hput.self, makeEntry_base (by omega)]
    omega
  have hneof : ∀ {r}, s.Mapped r → r ≠ p := fun hm he => hnone (he ▸ hm)
  have hqown : pageAt q ⊆ v.owned := Set.subset_union_right.trans h.baseOwned
  have hpf : p ∉ fixed := fun hf => hnone (h.fixedMapped p hf).2
  -- The new frame is not one that was there.
  have hqframe : ∀ r < pageCount, r ∉ fixed → s.Mapped r → s.frame r ≠ q := fun r hr hrf hm he =>
    ((h.frame r hr hrf hm).1 (self_mem_pageAt _)).2 (.inr (he ▸ self_mem_pageAt _))
  refine ⟨⟨hok, h.loose, Set.subset_union_left.trans h.baseOwned, ?_, ?_, fun j hj h0 => ?_,
    fun j hj k hk h0 he => ?_, fun r hr => ?_, fun r hr hf hm => ?_,
    fun r hr u hu hrf huf hrm hum he => ?_, fun a ha => ?_⟩,
    ⟨hpgdir, fun j hj _ => htab j hj, fun r hr hm => ?_, fun r hr hm => ?_, hput.contents⟩, hmapp,
    hframep, htab⟩
  · rw [hpgdir]
    exact h.pgdirAligned
  · rw [hpgdir]
    exact hpgb
  · rw [htab j hj] at h0 ⊢
    rw [hput.pde j hj, hpgdir]
    exact h.table j hj h0
  · rw [htab j hj] at h0 he
    rw [htab k hk] at he
    exact h.tableInj j hj k hk h0 he
  · obtain ⟨hlt', hm⟩ := h.fixedMapped r hr
    exact ⟨hlt', (hmap r hlt' (hneof hm)).mpr hm⟩
  · by_cases hrp : r = p
    · rw [hrp, hframep]
      exact ⟨fun a ha => ⟨hqown ha, hq.fresh a ha⟩, fun j hj he =>
        hq.noTable j hj (by rw [he]; exact (htab j hj).symm)⟩
    have hm' := (hmap r hr hrp).mp hm
    obtain ⟨hs, hn⟩ := h.frame r hr hf hm'
    rw [hframe r hr hrp]
    refine ⟨fun a ha => ⟨(hs ha).1, fun hb => (hs ha).2 (.inl hb)⟩, fun j hj => ?_⟩
    rw [htab j hj]
    exact hn j hj
  · by_cases hrp : r = p
    · by_cases hup : u = p
      · rw [hrp, hup]
      · rw [hrp, hframep, hframe u hu hup] at he
        exact absurd he.symm (hqframe u hu huf ((hmap u hu hup).mp hum))
    by_cases hup : u = p
    · rw [hup, hframep, hframe r hr hrp] at he
      exact absurd he (hqframe r hr hrf ((hmap r hr hrp).mp hrm))
    · rw [hframe r hr hrp, hframe u hu hup] at he
      exact h.frameInj r hr u hu hrf huf ((hmap r hr hrp).mp hrm) ((hmap u hu hup).mp hum) he
  · rcases h.accounted a ha with (hb | hb) | ⟨j, hj, h0, haj⟩ | ⟨r, hr, hrf, hm, har⟩
    · exact .inl hb
    · exact .inr (.inr ⟨p, hp, hpf, hmapp, by rw [hframep]; exact hb⟩)
    · rw [← htab j hj] at h0 haj
      exact .inr (.inl ⟨j, hj, h0, haj⟩)
    · have hrp := hneof hm
      rw [← hframe r hr hrp] at har
      exact .inr (.inr ⟨r, hr, hrf, (hmap r hr hrp).mpr hm, har⟩)
  · exact ⟨(hmap r hr (hneof hm)).mpr hm, hput.others r hr (hneof hm)⟩
  · by_cases hrp : r = p
    · exact .inr hrp
    · exact .inl ((hmap r hr hrp).mp hm)

end spend

end AtomOs
