import AtomOs.Mem.KmallocList
import AtomOs.Mem.CoreRun
import Mathlib.Data.Finset.Card

/-!
# The invariant of the kernel heap

The heap is a client of the page allocator. Some of the pages it holds carry descriptors, the
others make up the byte ranges it hands out. `HeapView` says which are which, and lists the
descriptors in use; `HeapOk` ties it to the words of memory. Its last part is `HeapBlocks`:
the available ranges are canonical, the ranges in use are apart from each other and from them,
and both together are exactly the pages given to the heap.
-/

namespace AtomOs

open Lib List CoreHeader

variable {D : List Nat} {a p : Nat} {ch : CoreHeader} {pages rest : List CoreHeader}
  {s' : HeapState}

/-- What the heap's pages are used for. `others` are pages held by anyone else; `loose` are
    descriptors in use that are on neither list, in the middle of an operation. -/
structure HeapView where
  pages : List CoreHeader
  given : List CoreHeader
  others : List CoreHeader
  avail : List Nat
  used : List Nat
  loose : List Nat

/-- The descriptors of ranges that are not available. -/
def HeapView.out (v : HeapView) : List Nat := v.used ++ v.loose

/-- The descriptors in use. -/
def HeapView.nodes (v : HeapView) : List Nat := v.avail ++ v.out

theorem HeapView.avail_sub (v : HeapView) (h : p ∈ v.avail) : p ∈ v.nodes :=
  mem_append_left _ h

theorem HeapView.out_sub (v : HeapView) (h : p ∈ v.out) : p ∈ v.nodes :=
  mem_append_right _ h

theorem HeapView.used_sub (v : HeapView) (h : p ∈ v.used) : p ∈ v.out :=
  mem_append_left _ h

/-- The memory in the ranges, and in pages that others hold, is as it was. -/
def HeapView.DataKept (v : HeapView) (m m' : Mem) : Prop :=
  ∀ a ∈ cover ((v.given ++ v.others).map CoreHeader.blk), m' a = m a

/-- `p` is a descriptor in one of the pages. -/
def IsNode (pages : List CoreHeader) (p : Nat) : Prop :=
  ∃ ch ∈ pages, ∃ i < nodesPerPage, p = ch.physAddr + 12 * i

structure NodePage (ch : CoreHeader) : Prop where
  one : ch.noBlocks = 1
  aligned : ch.physAddr % 4096 = 0
  notNull : ch.physAddr ≠ 0
  low : ch.physAddr + 4096 ≤ 4294967296

/-- Available ranges `A` and ranges in use `U` share out the pages `G`. -/
structure HeapBlocks (G A U : List Blk) : Prop where
  pool : Pool (cover G) A U
  bytes : total A + total U = total G

/-- What the words in the descriptor pages say. -/
structure NodesOk (m : Mem) (info av us : Nat) (v : HeapView) : Prop where
  page : ∀ ch ∈ v.pages, NodePage ch
  chain : Linked (pageNext m) (· = 0) info (v.pages.map CoreHeader.physAddr)
  avail : Linked (nodeNext m) (· = 0) av v.avail
  used : Linked (nodeNext m) (· = 0) us v.used
  nodup : v.nodes.Nodup
  node : ∀ p ∈ v.nodes, IsNode v.pages p
  -- A descriptor is in use exactly if its size is not 0.
  inUse : ∀ p, IsNode v.pages p → (nodeSize m p ≠ 0 ↔ p ∈ v.nodes)
  blocks : HeapBlocks (v.given.map CoreHeader.blk) (v.avail.map (nodeBlk m))
    (v.out.map (nodeBlk m))

/-- The invariant: the page allocator counts the heap's pages as out, the memory `C` it manages
    is below `0xf0000000`, and the descriptors are in order. -/
structure HeapOk (C : Set Nat) (s : HeapState) (v : HeapView) : Prop where
  sys : ∃ F, CoreSysOk C ⟨s.core, v.pages ++ (v.given ++ v.others)⟩ F
  low : ∀ x ∈ C, x < 0xf0000000
  nodes : NodesOk s.mem s.kmmallocInfo s.kmavailList s.kmusedList v

/-! ## Descriptors and pages -/

section

variable (hpage : ∀ ch ∈ pages, NodePage ch) (h : IsNode pages p)
include hpage h

theorem IsNode.nodeAt : NodeAt p := by
  obtain ⟨ch, hch, i, hi, rfl⟩ := h
  have hal := (hpage ch hch).aligned
  unfold nodesPerPage at hi
  have hmod : (ch.physAddr + 12 * i) % 4096 = 12 * i := by omega
  unfold NodeAt
  omega

theorem IsNode.ne_zero : p ≠ 0 := by
  obtain ⟨ch, hch, i, hi, rfl⟩ := h
  have := (hpage ch hch).notNull
  omega

theorem IsNode.lt : p < nodeFuel := by
  obtain ⟨ch, hch, i, hi, rfl⟩ := h
  have := (hpage ch hch).low
  unfold nodesPerPage at hi
  unfold nodeFuel
  omega

theorem IsNode.mem_cover (ha : InNode p a) : a ∈ cover (pages.map blk) := by
  obtain ⟨ch, hch, i, hi, rfl⟩ := h
  have hone := (hpage ch hch).one
  unfold nodesPerPage at hi
  unfold InNode at ha
  refine ⟨ch.blk, mem_map_of_mem hch, ?_, ?_⟩
  · show ch.physAddr ≤ a
    omega
  · show a < ch.physAddr + ch.noBlocks * 4096
    omega

end

theorem link_mem_cover (hpage : ∀ ch ∈ pages, NodePage ch) (hch : ch ∈ pages) :
    ch.physAddr + 4092 ∈ cover (pages.map blk) := by
  have hone := (hpage ch hch).one
  refine ⟨ch.blk, mem_map_of_mem hch, Nat.le_add_right _ _, ?_⟩
  show ch.physAddr + 4092 < ch.physAddr + ch.noBlocks * 4096
  omega

theorem link_not_inNode (hch : NodePage ch) (hp : NodeAt p) : ¬ InNode p (ch.physAddr + 4092) := by
  have hal := hch.aligned
  unfold NodeAt at hp
  unfold InNode
  omega

variable {n av' us' : Nat} {m' : Mem} {v' : HeapView}

theorem length_le_of_nodup {l : List Nat} (hnd : l.Nodup) (hlt : ∀ x ∈ l, x < n) :
    l.length ≤ n := by
  rw [← toFinset_card_of_nodup hnd, ← Finset.card_range n]
  refine Finset.card_le_card fun x hx => ?_
  exact Finset.mem_range.mpr (hlt x (mem_toFinset.mp hx))

section nodesOk

variable {m : Mem} {info av us : Nat} {v : HeapView} (h : NodesOk m info av us v)
include h

theorem NodesOk.nodeAt (hp : p ∈ v.nodes) : NodeAt p :=
  (h.node p hp).nodeAt h.page

theorem NodesOk.nodes_length : v.nodes.length ≤ nodeFuel :=
  length_le_of_nodup h.nodup fun p hp => (h.node p hp).lt h.page

theorem NodesOk.avail_length : v.avail.length ≤ nodeFuel := by
  have hle := h.nodes_length
  rw [HeapView.nodes, length_append] at hle
  omega

theorem NodesOk.used_length : v.used.length ≤ nodeFuel := by
  have hle := h.nodes_length
  rw [HeapView.nodes, HeapView.out, length_append, length_append] at hle
  omega

theorem NodesOk.pages_length : (v.pages.map physAddr).length ≤ listFuel := by
  have hal : ∀ x ∈ v.pages.map physAddr, x % 4096 = 0 ∧ x < 4294967296 := by
    refine forall_mem_map.mpr fun ch hch => ?_
    have hlow := (h.page ch hch).low
    exact ⟨(h.page ch hch).aligned, by omega⟩
  have hnd : ((v.pages.map physAddr).map (· / 4096)).Nodup := by
    refine h.chain.nodup.map_on fun x hx y hy hxy => ?_
    have h1 := hal x hx
    have h2 := hal y hy
    omega
  have hle := length_le_of_nodup hnd (n := listFuel) fun x hx => by
    obtain ⟨y, hy, rfl⟩ := mem_map.mp hx
    have h1 := hal y hy
    unfold listFuel
    omega
  rwa [length_map] at hle

theorem NodesOk.congr (hm : ∀ a ∈ cover (v.pages.map blk), m' a = m a) :
    NodesOk m' info av us v := by
  have hkept : CellsKept m m' v.nodes := fun z hz a ha =>
    hm a ((h.node z hz).mem_cover h.page ha)
  have hka : CellsKept m m' v.avail := hkept.mono fun z hz => v.avail_sub hz
  have hku : CellsKept m m' v.out := hkept.mono fun z hz => v.out_sub hz
  refine ⟨h.page, h.chain.congr ?_, hka.linked h.avail,
    (hku.mono fun z hz => v.used_sub hz).linked h.used, h.nodup, h.node, ?_, ?_⟩
  · exact forall_mem_map.mpr fun ch hch => hm _ (link_mem_cover h.page hch)
  · intro p hp
    rw [← h.inUse p hp, nodeSize, nodeSize,
      hm (p + 4) (hp.mem_cover h.page (.inr (.inl rfl)))]
  · rw [hka.map, hku.map]
    exact h.blocks

/-- **Changing descriptors.** Only the descriptors `D` are written. If afterwards the lists are
    linked, those of `D` that are in use are the ones of nonzero size, and the ranges share out
    the pages, then the descriptors are in order again. -/
theorem NodesOk.change
    (hD : ∀ z ∈ D, IsNode v.pages z) (hm : ∀ a, (∀ z ∈ D, ¬ InNode z a) → m' a = m a)
    (hpages : v'.pages = v.pages) (havail : Linked (nodeNext m') (· = 0) av' v'.avail)
    (hused : Linked (nodeNext m') (· = 0) us' v'.used) (hnodup : v'.nodes.Nodup)
    (hin : ∀ z ∈ D, nodeSize m' z ≠ 0 ↔ z ∈ v'.nodes)
    (hoff : ∀ z, z ∉ D → (z ∈ v'.nodes ↔ z ∈ v.nodes))
    (hblocks : HeapBlocks (v'.given.map blk) (v'.avail.map (nodeBlk m'))
      (v'.out.map (nodeBlk m'))) : NodesOk m' info av' us' v' := by
  have hDat : ∀ z ∈ D, NodeAt z := fun z hz => (hD z hz).nodeAt h.page
  refine ⟨hpages ▸ h.page, ?_, havail, hused, hnodup, ?_, ?_, hblocks⟩
  · rw [hpages]
    refine h.chain.congr (forall_mem_map.mpr fun ch hch => ?_)
    exact hm _ fun z hz => link_not_inNode (h.page ch hch) (hDat z hz)
  · intro z hz
    rw [hpages]
    by_cases hzD : z ∈ D
    · exact hD z hzD
    · exact h.node z ((hoff z hzD).mp hz)
  · intro z hz
    rw [hpages] at hz
    by_cases hzD : z ∈ D
    · exact hin z hzD
    · rw [hoff z hzD, ← h.inUse z hz, nodeSize, nodeSize, hm]
      intro w hw hwz
      have hne : z ≠ w := fun he => hzD (he ▸ hw)
      exact InNode.ne (hz.nodeAt h.page) (hDat w hw) hne (.inr (.inl rfl)) hwz rfl

/-- **Moving descriptors between the lists.** The same ones are in use, with the same ranges. -/
theorem NodesOk.rearrange (hD : ∀ z ∈ D, z ∈ v.nodes)
    (hm : ∀ a, (∀ z ∈ D, ¬ InNode z a) → m' a = m a)
    (hblks : ∀ z ∈ v.nodes, nodeBlk m' z = nodeBlk m z) (hpages : v'.pages = v.pages)
    (hperm : v.nodes.Perm v'.nodes) (havail : Linked (nodeNext m') (· = 0) av' v'.avail)
    (hused : Linked (nodeNext m') (· = 0) us' v'.used)
    (hblocks : HeapBlocks (v'.given.map blk) (v'.avail.map (nodeBlk m))
      (v'.out.map (nodeBlk m))) : NodesOk m' info av' us' v' := by
  have hmap : ∀ l : List Nat, (∀ z ∈ l, z ∈ v'.nodes) → l.map (nodeBlk m') = l.map (nodeBlk m) :=
    fun l hl => map_congr_left fun z hz => hblks z (hperm.mem_iff.mpr (hl z hz))
  refine h.change (fun z hz => h.node z (hD z hz)) hm hpages havail hused
    (hperm.nodup_iff.mp h.nodup) (fun z hz => ?_) (fun z _ => hperm.mem_iff.symm) ?_
  · have hsz : nodeSize m' z = nodeSize m z := congrArg Blk.len (hblks z (hD z hz))
    rw [hsz, h.inUse z (h.node z (hD z hz))]
    exact hperm.mem_iff
  · rw [hmap v'.avail fun z => v'.avail_sub, hmap v'.out fun z => v'.out_sub]
    exact hblocks

end nodesOk

/-! ## Pages coming and going -/

section pages

variable {C : Set Nat} {s : HeapState} {v : HeapView} (h : HeapOk C s v)
include h

/-- Everything the heap knows about is out of the page allocator. -/
def HeapView.held (v : HeapView) : List CoreHeader := v.pages ++ (v.given ++ v.others)

omit h in
theorem HeapView.pages_sub_held (v : HeapView)
    (ha : a ∈ cover (v.pages.map blk)) : a ∈ cover (v.held.map blk) := by
  rw [HeapView.held, map_append, cover_append]
  exact .inl ha

omit h in
theorem HeapView.given_sub_clients (v : HeapView) (ha : a ∈ cover (v.given.map blk)) :
    a ∈ cover ((v.given ++ v.others).map blk) := by
  rw [map_append, cover_append]
  exact .inl ha

omit h in
theorem HeapView.clients_sub_held (v : HeapView) (ha : a ∈ cover ((v.given ++ v.others).map blk)) :
    a ∈ cover (v.held.map blk) := by
  rw [HeapView.held, map_append, cover_append]
  exact .inr ha

theorem HeapOk.alloc (hn : n < 2147483648) :
    ∃ ch core, coreAlloc s.core n = some (ch, core) ∧ ch.noBlocks ≤ n ∧
      (ch.noBlocks = 0 → HeapOk C { s with core := core } v) ∧
      (ch.noBlocks ≠ 0 →
        HeapOk C { s with core := core } { v with others := ch :: v.others }) ∧
      ∀ a ∈ cover (v.held.map blk), core.mem a = s.mem a := by
  obtain ⟨F, hsys⟩ := h.sys
  obtain ⟨ch, core, F', hrun, hok, hle, hkeep⟩ := hsys.alloc hn
  have hnodes : NodesOk core.mem s.kmmallocInfo s.kmavailList s.kmusedList v :=
    h.nodes.congr fun a ha => hkeep a (v.pages_sub_held ha)
  refine ⟨ch, core, hrun, hle, fun h0 => ⟨⟨F', ?_⟩, h.low, hnodes⟩,
    fun h0 => ⟨⟨F', ?_⟩, h.low, ?_⟩, hkeep⟩
  · rw [if_pos h0] at hok
    exact hok
  · rw [if_neg h0] at hok
    refine hok.perm ?_
    have hperm : (ch :: (v.pages ++ v.given ++ v.others)).Perm
        (v.pages ++ v.given ++ ch :: v.others) := perm_middle.symm
    simpa only [append_assoc] using hperm
  · exact ⟨hnodes.page, hnodes.chain, hnodes.avail, hnodes.used, hnodes.nodup, hnodes.node,
      hnodes.inUse, hnodes.blocks⟩

theorem HeapOk.giveBack (hoth : v.others = ch :: rest) : ∃ core, coreFree s.core ch = some core ∧
      HeapOk C { s with core := core } { v with others := rest } ∧
      ∀ a ∈ cover ((v.pages ++ (v.given ++ rest)).map blk), core.mem a = s.mem a := by
  obtain ⟨F, hsys⟩ := h.sys
  obtain ⟨core, F', hrun, hok, hkeep⟩ := hsys.free (show ch ∈ _ by simp [hoth])
  have hperm : ((v.pages ++ (v.given ++ v.others)).erase ch).Perm
      (v.pages ++ (v.given ++ rest)) := by
    have hmid : (v.pages ++ (v.given ++ v.others)).Perm
        (ch :: (v.pages ++ (v.given ++ rest))) := by
      have hmove : (v.pages ++ v.given ++ ch :: rest).Perm (ch :: (v.pages ++ v.given ++ rest)) :=
        perm_middle
      simpa only [hoth, append_assoc] using hmove
    simpa using hmid.erase ch
  have hcov := cover_perm (hperm.map blk)
  have hkeep' : ∀ a ∈ cover ((v.pages ++ (v.given ++ rest)).map blk),
      core.mem a = s.mem a := fun a ha => hkeep a (hcov ▸ ha)
  have hnodes : NodesOk core.mem s.kmmallocInfo s.kmavailList s.kmusedList v := by
    refine h.nodes.congr fun a ha => hkeep' a ?_
    rw [map_append, cover_append]
    exact .inl ha
  exact ⟨core, hrun, ⟨⟨F', hok.perm hperm⟩, h.low, hnodes.page, hnodes.chain, hnodes.avail,
    hnodes.used, hnodes.nodup, hnodes.node, hnodes.inUse, hnodes.blocks⟩, hkeep'⟩

theorem HeapOk.sys_congr {l : List CoreHeader} (hl : v.held.Perm l)
    (hm : ∀ a, a ∉ cover (v.held.map blk) → s'.mem a = s.mem a)
    (hfirst : s'.core.firstBlock = s.core.firstBlock)
    (hram : s'.core.ramSegments = s.core.ramSegments) :
    ∃ F, CoreSysOk C ⟨s'.core, l⟩ F := by
  obtain ⟨F, hsys⟩ := h.sys
  have hcore : s'.core = { s.core with mem := s'.core.mem } := by
    obtain ⟨⟨m', f', r'⟩, _⟩ := s'
    simp only at hfirst hram
    rw [hfirst, hram]
  rw [hcore]
  exact ⟨F, (hsys.congr hm).perm hl⟩

theorem HeapOk.of_nodeFrame
    (hf : NodeFrame s s' D) (hD : ∀ z ∈ D, IsNode v.pages z) (hheld : v.held.Perm v'.held)
    (hnodes : NodesOk s'.mem s'.kmmallocInfo s'.kmavailList s'.kmusedList v') :
    HeapOk C s' v' := by
  refine ⟨h.sys_congr hheld (fun a ha => hf.mem a fun z hz hza => ha ?_) hf.firstBlock
    hf.ramSegments, h.low, hnodes⟩
  exact v.pages_sub_held ((hD z hz).mem_cover h.nodes.page hza)

theorem HeapOk.nodePage (hch : ch ∈ v.held) (hone : ch.noBlocks = 1) : NodePage ch := by
  obtain ⟨F, hsys⟩ := h.sys
  have hram := hsys.outRam ch hch
  have hlow : ch.physAddr + ch.noBlocks * 4096 ≤ 4294967296 := hram.below
  exact ⟨hone, hram.aligned, hsys.outAddr ch hch, by omega⟩

theorem HeapOk.page_ne (hoth : v.others = ch :: rest) :
    ∀ c ∈ v.pages, c.physAddr ≠ ch.physAddr := by
  intro c hc he
  obtain ⟨F, hsys⟩ := h.sys
  have hap := hsys.pool.outApart
  rw [CoreSys.out, map_append] at hap
  have hch : ch ∈ v.given ++ v.others := by simp [hoth]
  have hcc := (pairwise_append.mp hap).2.2 _ (mem_map_of_mem hc) _
    (mem_map_of_mem hch)
  have hpos : 0 < ch.noBlocks * 4096 := hsys.pool.outPos _ (mem_map_of_mem (by
    simp [hoth]))
  have hone := (h.nodes.page c hc).one
  unfold Blk.Apart Blk.fin blk at hcc
  simp only at hcc
  omega

/-- **A new page of descriptors.** It is all zeroes, so all its descriptors are free; of the
    pages there are only links change, and they lead to the new one. -/
theorem HeapOk.addPage (hoth : v.others = ch :: rest) (hone : ch.noBlocks = 1)
    (hzero : ∀ a, ch.blk.Has a → s'.mem a = 0)
    (hkeep : ∀ a, ¬ ch.blk.Has a → (∀ c ∈ v.pages, a ≠ c.physAddr + 4092) → s'.mem a = s.mem a)
    (hchain : Linked (pageNext s'.mem) (· = 0) s'.kmmallocInfo
      ((v.pages ++ [ch]).map physAddr))
    (hfirst : s'.core.firstBlock = s.core.firstBlock)
    (hram : s'.core.ramSegments = s.core.ramSegments)
    (hav : s'.kmavailList = s.kmavailList) (hus : s'.kmusedList = s.kmusedList) :
    HeapOk C s' { v with pages := v.pages ++ [ch], others := rest } ∧
      CellsKept s.mem s'.mem v.nodes ∧
      ∀ a ∈ cover ((v.given ++ rest).map blk), s'.mem a = s.mem a := by
  have hchm : ch ∈ v.held := by simp [HeapView.held, hoth]
  have hpage := h.nodePage hchm hone
  have hperm : v.held.Perm (v.pages ++ [ch] ++ (v.given ++ rest)) := by
    have hmove : (v.pages ++ v.given ++ ch :: rest).Perm (ch :: (v.pages ++ v.given ++ rest)) :=
      perm_middle
    have hmove' : (v.pages ++ ch :: (v.given ++ rest)).Perm
        (ch :: (v.pages ++ (v.given ++ rest))) := perm_middle
    rw [HeapView.held, hoth, append_assoc, singleton_append, ← append_assoc]
    refine hmove.trans ?_
    rw [append_assoc]
    exact hmove'.symm
  -- The pages there are, the new one and all the rest are apart.
  obtain ⟨hap, hdata⟩ : (∀ c ∈ v.pages, c.blk.Apart ch.blk) ∧
      ∀ c ∈ v.pages ++ [ch], ∀ d ∈ v.given ++ rest, c.blk.Apart d.blk := by
    obtain ⟨F, hsys⟩ := h.sys
    have hout := (hsys.perm hperm).pool.outApart
    rw [CoreSys.out, map_append] at hout
    obtain ⟨hpg, -, hcross⟩ := pairwise_append.mp hout
    rw [map_append] at hpg
    refine ⟨fun c hc => (pairwise_append.mp hpg).2.2 _ (mem_map_of_mem hc) _ (by simp),
      fun c hc d hd => hcross _ (mem_map_of_mem hc) _ (mem_map_of_mem hd)⟩
  have hold : ∀ p a, IsNode v.pages p → InNode p a → s'.mem a = s.mem a := by
    intro p a hp ha
    refine hkeep a (fun hin => ?_) fun c hc he => ?_
    · obtain ⟨c, hc, hba⟩ := mem_cover_map.mp (hp.mem_cover h.nodes.page ha)
      exact not_has_of_apart (hap c hc) hba hin
    · exact link_not_inNode (h.nodes.page c hc) (hp.nodeAt h.nodes.page) (he ▸ ha)
  have hkept : CellsKept s.mem s'.mem v.nodes := fun z hz a ha =>
    hold z a (h.nodes.node z hz) ha
  have hka : CellsKept s.mem s'.mem v.avail := hkept.mono fun z hz => v.avail_sub hz
  have hku : CellsKept s.mem s'.mem v.out := hkept.mono fun z hz => v.out_sub hz
  have hpages : ∀ c ∈ v.pages ++ [ch], NodePage c :=
    forall_mem_append.mpr ⟨h.nodes.page, forall_mem_singleton.mpr hpage⟩
  have hsub : ∀ {p}, IsNode v.pages p → IsNode (v.pages ++ [ch]) p := by
    intro p hp
    obtain ⟨c, hc, hp⟩ := hp
    exact ⟨c, mem_append_left _ hc, hp⟩
  have hnodes : NodesOk s'.mem s'.kmmallocInfo s'.kmavailList s'.kmusedList
      { v with pages := v.pages ++ [ch], others := rest } := by
    refine ⟨hpages, hchain, hav ▸ hka.linked h.nodes.avail,
      hus ▸ (hku.mono fun z hz => v.used_sub hz).linked h.nodes.used, h.nodes.nodup,
      fun p hp => hsub (h.nodes.node p hp), ?_, ?_⟩
    · intro p hp
      obtain ⟨c, hc, hpc⟩ := hp
      rcases mem_append.mp hc with hc | hc
      · have hp : IsNode v.pages p := ⟨c, hc, hpc⟩
        show nodeSize s'.mem p ≠ 0 ↔ p ∈ v.nodes
        rw [← h.nodes.inUse p hp, nodeSize, nodeSize, hold p _ hp (.inr (.inl rfl))]
      obtain rfl := mem_singleton.mp hc
      have hin : ∀ a, InNode p a → c.blk.Has a := by
        intro a ha
        have hnode : IsNode [c] p := ⟨c, by simp, hpc⟩
        obtain ⟨b, hb, hba⟩ := hnode.mem_cover (by simp [hpage]) ha
        obtain rfl : b = c.blk := by simpa using hb
        exact hba
      have hsize : nodeSize s'.mem p = 0 := hzero _ (hin _ (.inr (.inl rfl)))
      refine ⟨fun hne => absurd hsize hne, fun hmem => ?_⟩
      obtain ⟨d, hd, hba⟩ :=
        mem_cover_map.mp ((h.nodes.node p hmem).mem_cover h.nodes.page (.inl rfl))
      exact absurd (hin p (.inl rfl)) (not_has_of_apart (hap d hd) hba)
    · show HeapBlocks _ (v.avail.map (nodeBlk s'.mem)) (v.out.map (nodeBlk s'.mem))
      rw [hka.map, hku.map]
      exact h.nodes.blocks
  refine ⟨⟨h.sys_congr hperm ?_ hfirst hram, h.low, hnodes⟩, hkept, ?_⟩
  · intro a ha
    refine hkeep a (fun hin => ha ⟨ch.blk, mem_map_of_mem hchm, hin⟩) fun c hc he => ha ?_
    rw [he]
    exact v.pages_sub_held (link_mem_cover h.nodes.page hc)
  · intro a ha
    obtain ⟨d, hd, hba⟩ := mem_cover_map.mp ha
    refine hkeep a (fun hin => ?_) fun c hc he => ?_
    · exact not_has_of_apart (hdata ch (by simp) d hd) hin hba
    · obtain ⟨b, hb, hbl⟩ := link_mem_cover (fun _ hx => mem_singleton.mp hx ▸
        h.nodes.page c hc) (mem_singleton.mpr (rfl : c = c))
      obtain rfl : b = c.blk := by simpa using hb
      exact not_has_of_apart (hdata c (by simp [hc]) d hd) (he ▸ hbl) hba

end pages

/-! ## `create_mem_list_node` -/

theorem freeNodeFrom_some {m : Mem} : ∀ {n p q : Nat}, freeNodeFrom m n p = some q →
    ∃ i < n, q = p + 12 * i ∧ nodeSize m q = 0
  | 0, p, q, h => by cases h
  | n + 1, p, q, h => by
    rw [freeNodeFrom] at h
    split at h
    · rename_i hsize
      cases h
      exact ⟨0, by omega, by omega, hsize⟩
    · obtain ⟨i, hi, hq, hsize⟩ := freeNodeFrom_some h
      exact ⟨i + 1, by omega, by omega, hsize⟩

theorem zeroPage_mem_off {s : HeapState} {page : Nat} (h : ¬ (page ≤ a ∧ a < page + 4096)) :
    (zeroPage s page).mem a = s.mem a := if_neg h

/-- What a caller of `create_mem_list_node` gets: maybe one more page of descriptors, and a
    free descriptor, or `NULL`. -/
structure Created (C : Set Nat) (s : HeapState) (v : HeapView) (p : Nat) (s' : HeapState)
    (v' : HeapView) : Prop where
  ok : HeapOk C s' v'
  pages : ∀ c ∈ v.pages, c ∈ v'.pages
  given : v'.given = v.given
  others : v'.others = v.others
  avail : v'.avail = v.avail
  used : v'.used = v.used
  loose : v'.loose = v.loose
  kept : CellsKept s.mem s'.mem v.nodes
  data : ∀ a ∈ cover ((v.given ++ v.others).map CoreHeader.blk), s'.mem a = s.mem a
  free : p ≠ 0 → IsNode v'.pages p ∧ nodeSize s'.mem p = 0

section create

variable {C : Set Nat} {s : HeapState} {v : HeapView} (h : HeapOk C s v)
include h

theorem HeapOk.alloc_one : ∃ ch core, coreAlloc s.core 1 = some (ch, core) ∧
      (ch.noBlocks < 1 → Created C s v 0 { s with core := core } v) ∧
      (¬ ch.noBlocks < 1 → ch.noBlocks = 1 ∧
        HeapOk C { s with core := core } { v with others := ch :: v.others } ∧
        CellsKept s.mem core.mem v.nodes ∧
        (∀ c ∈ v.pages, core.mem (c.physAddr + 4092) = s.mem (c.physAddr + 4092)) ∧
        v.DataKept s.mem core.mem) := by
  obtain ⟨ch, core, hrun, hle, hnone, hsome, hkeep⟩ := h.alloc (n := 1) (by omega)
  have hcells : CellsKept s.mem core.mem v.nodes := fun z hz a ha =>
    hkeep a (v.pages_sub_held ((h.nodes.node z hz).mem_cover h.nodes.page ha))
  have hdata : v.DataKept s.mem core.mem := fun a ha => hkeep a (v.clients_sub_held ha)
  refine ⟨ch, core, hrun, fun h0 => ?_, fun h0 => ⟨by omega, hsome (by omega), hcells, ?_, hdata⟩⟩
  · exact ⟨hnone (by omega), fun _ hc => hc, rfl, rfl, rfl, rfl, rfl, hcells, hdata, fun hne => absurd rfl hne⟩
  · exact fun c hc => hkeep _ (v.pages_sub_held (link_mem_cover h.nodes.page hc))

theorem HeapOk.zeroPage (s' : HeapState) (hoth : v.others = ch :: rest) (hone : ch.noBlocks = 1)
    (hkeep : ∀ a, (∀ c ∈ v.pages, a ≠ c.physAddr + 4092) → s'.mem a = s.mem a)
    (hchain : Linked (pageNext (zeroPage s' ch.physAddr).mem) (· = 0) s'.kmmallocInfo
      ((v.pages ++ [ch]).map physAddr))
    (hfirst : s'.core.firstBlock = s.core.firstBlock)
    (hram : s'.core.ramSegments = s.core.ramSegments)
    (hav : s'.kmavailList = s.kmavailList) (hus : s'.kmusedList = s.kmusedList) :
    Created C s { v with others := rest } ch.physAddr (zeroPage s' ch.physAddr)
      { v with pages := v.pages ++ [ch], others := rest } := by
  have hblk : ∀ a, ch.blk.Has a ↔ ch.physAddr ≤ a ∧ a < ch.physAddr + 4096 := by
    intro a
    simp only [Blk.Has, Blk.fin, blk, hone, Nat.one_mul]
  have hzero : ∀ a, ch.blk.Has a → (AtomOs.zeroPage s' ch.physAddr).mem a = 0 := fun a ha =>
    if_pos ((hblk a).mp ha)
  obtain ⟨hadd, hkept, hdata⟩ := h.addPage hoth hone hzero
    (fun a ha hlink => (if_neg (fun hc => ha ((hblk a).mpr hc))).trans (hkeep a hlink))
    hchain hfirst hram hav hus
  refine ⟨hadd, fun _ hc => mem_append_left _ hc, rfl, rfl, rfl, rfl, rfl, hkept, hdata,
    fun _ => ⟨⟨ch, by simp, 0, by decide, rfl⟩, ?_⟩⟩
  refine hzero _ ((hblk _).mpr ⟨by omega, by omega⟩)

theorem ensurePage_spec : ∃ b s' v', ensurePage s = some (b, s') ∧ Created C s v 0 s' v' ∧
      (b = true → s'.kmmallocInfo ≠ 0) := by
  unfold ensurePage
  by_cases hinfo : s.kmmallocInfo = 0
  · rw [if_pos hinfo]
    obtain ⟨ch, core, hrun, hnone, hsome⟩ := h.alloc_one
    rw [hrun]
    dsimp only
    by_cases h0 : ch.noBlocks < 1
    · rw [if_pos h0]
      exact ⟨false, _, v, rfl, hnone h0, fun hb => absurd hb (by simp)⟩
    rw [if_neg h0]
    obtain ⟨hone, hok, hcells, -, hdata⟩ := hsome h0
    have hpages : v.pages = [] := by
      have hchain := h.nodes.chain
      cases hp : v.pages with
      | nil => rfl
      | cons c cs =>
        rw [hp] at hchain
        exact absurd (hchain.1.symm.trans hinfo) hchain.2.1
    have hpage : NodePage ch := hok.nodePage (by simp [HeapView.held]) hone
    have hnew := hok.zeroPage { s with core := core, kmmallocInfo := ch.physAddr } rfl hone
      (fun _ _ => rfl) (by
        show Linked _ _ ch.physAddr _
        rw [hpages]
        exact ⟨rfl, hpage.notNull, if_pos ⟨by omega, by omega⟩⟩)
      rfl rfl rfl rfl
    refine ⟨true, _, _, rfl, ⟨hnew.ok, hnew.pages, rfl, rfl, rfl, rfl, rfl, hcells.trans hnew.kept, ?_,
      fun hne => absurd rfl hne⟩, fun _ => hpage.notNull⟩
    exact fun a ha => (hnew.data a ha).trans (hdata a ha)
  · rw [if_neg hinfo]
    exact ⟨true, s, v, rfl, ⟨h, fun _ hc => hc, rfl, rfl, rfl, rfl, rfl, CellsKept.refl _ _, fun _ _ => rfl,
      fun hne => absurd rfl hne⟩, fun _ => hinfo⟩

theorem searchPages_spec (hinfo : s.kmmallocInfo ≠ 0) :
    ∃ p s' v', searchPages s = some (p, s') ∧ Created C s v p s' v' := by
  have hlen := h.nodes.pages_length
  obtain ⟨l1, l2, hsplit, -, h2, hseek⟩ := seek_of_linked
    (fun page => (freeNodeFrom s.mem nodesPerPage page).isSome) 0 h.nodes.chain hlen
  unfold searchPages
  rw [hseek]
  dsimp only
  cases l2 with
  | cons page l2 =>
    -- A page with a free descriptor.
    have hmem : page ∈ v.pages.map physAddr := hsplit ▸ (by simp)
    have hne : page ≠ 0 := h.nodes.chain.not_stop page hmem
    obtain ⟨p, hp⟩ := Option.isSome_iff_exists.mp (h2 page rfl)
    obtain ⟨i, hi, hpi, hsize⟩ := freeNodeFrom_some hp
    obtain ⟨ch, hch, rfl⟩ := mem_map.mp hmem
    rw [headD_cons, if_pos hne, hp]
    exact ⟨p, s, v, rfl, h, fun _ hc => hc, rfl, rfl, rfl, rfl, rfl, CellsKept.refl _ _, fun _ _ => rfl,
      fun _ => ⟨⟨ch, hch, i, hi, hpi⟩, hsize⟩⟩
  | nil =>
    rw [append_nil] at hsplit
    obtain ⟨ch, core, hrun, hnone, hsome⟩ := h.alloc_one
    rw [hrun]
    dsimp only
    by_cases h0 : ch.noBlocks < 1
    · rw [if_pos h0]
      exact ⟨0, _, v, rfl, hnone h0⟩
    rw [if_neg h0]
    obtain ⟨hone, hok, hcells, hlinks, hdata⟩ := hsome h0
    have hpage : NodePage ch := hok.nodePage (by simp [HeapView.held]) hone
    -- The new page is linked behind the last one.
    rcases eq_nil_or_concat' v.pages with hnil | ⟨pgs, last, hpgs⟩
    · have hchain := h.nodes.chain
      rw [hnil] at hchain
      exact absurd hchain hinfo
    have hlast : l1.getLastD 0 = last.physAddr := by
      rw [← hsplit, hpgs]
      simp
    rw [hlast]
    have hnew := hok.zeroPage
      (({ s with core := core } : HeapState).put (last.physAddr + 4092) ch.physAddr) rfl hone
      (fun a ha => Mem.set_ne (ha last (by simp [hpgs]))) ?_ rfl rfl rfl rfl
    · exact ⟨_, _, _, rfl, hnew.ok, hnew.pages, rfl, rfl, rfl, rfl, rfl, hcells.trans hnew.kept,
        fun a ha => (hnew.data a ha).trans (hdata a ha), hnew.free⟩
    · have hchain := h.nodes.chain
      have hnd := hchain.nodup
      rw [hpgs, map_append, map_singleton] at hchain hnd
      have hap : ∀ c ∈ v.pages, ¬ (ch.physAddr ≤ c.physAddr + 4092 ∧
          c.physAddr + 4092 < ch.physAddr + 4096) := by
        intro c hc hin
        have hcp := h.nodes.page c hc
        have hne := hok.page_ne rfl c hc
        have h1 := hpage.aligned
        have h2 := hcp.aligned
        omega
      show Linked _ _ s.kmmallocInfo ((v.pages ++ [ch]).map physAddr)
      rw [hpgs, map_append, map_append, map_singleton, map_singleton,
        append_assoc, singleton_append]
      refine hchain.splice (fun z hz => ?_) ⟨?_, hpage.notNull, ?_⟩
      · obtain ⟨c, hc, rfl⟩ := mem_map.mp hz
        have hcm : c ∈ v.pages := by simp [hpgs, hc]
        have hne : c.physAddr ≠ last.physAddr := fun he =>
          (nodup_append.mp hnd).2.2 _ hz _ (by simp) he
        rw [pageNext, zeroPage_mem_off (hap c hcm), put_mem, Mem.set_ne (by omega)]
        exact hlinks c hcm
      · rw [pageNext, zeroPage_mem_off (hap last (by simp [hpgs])), put_mem, Mem.set_same]
      · exact if_pos ⟨by omega, by omega⟩

/-- **`create_mem_list_node` returns a free descriptor or `NULL`.** -/
theorem createMemListNode_spec :
    ∃ p s' v', createMemListNode s = some (p, s') ∧ Created C s v p s' v' := by
  obtain ⟨b, s1, v1, hrun, hc, hinfo⟩ := ensurePage_spec h
  unfold createMemListNode
  rw [hrun]
  cases b with
  | false => exact ⟨0, s1, v1, rfl, hc⟩
  | true =>
    obtain ⟨p, s2, v2, hrun2, hc2⟩ := searchPages_spec hc.ok (hinfo rfl)
    refine ⟨p, s2, v2, hrun2, hc2.ok, fun c hcm => hc2.pages c (hc.pages c hcm),
      hc2.given.trans hc.given, hc2.others.trans hc.others,
      hc2.avail.trans hc.avail, hc2.used.trans hc.used, hc2.loose.trans hc.loose, ?_, ?_, hc2.free⟩
    · have hkept := hc2.kept
      rw [HeapView.nodes, HeapView.out, hc.avail, hc.used, hc.loose] at hkept
      exact hc.kept.trans hkept
    · have hdata := hc2.data
      rw [hc.given, hc.others] at hdata
      exact fun a ha => (hdata a ha).trans (hc.data a ha)

end create

/-! ## Where the ranges are -/

section ranges

variable {C : Set Nat} {s : HeapState} {v : HeapView} (h : HeapOk C s v)
include h

theorem HeapOk.held_sub (ha : a ∈ cover (v.held.map blk)) : a ∈ C := by
  obtain ⟨F, hsys⟩ := h.sys
  exact hsys.pool.units ▸ .inr ha

theorem HeapOk.given_sub (ha : a ∈ cover (v.given.map blk)) : a ∈ C := by
  exact h.held_sub (v.clients_sub_held (v.given_sub_clients ha))

/-- A range in use is not empty, lies in the pages given to the heap, and so is neither at
    address 0 nor near the end of the address space. -/
theorem HeapOk.range (hp : p ∈ v.nodes) : 0 < (nodeBlk s.mem p).len ∧ (nodeBlk s.mem p).addr ≠ 0 ∧
      (nodeBlk s.mem p).fin ≤ 0xf0000000 ∧
      ∀ x, (nodeBlk s.mem p).Has x → x ∈ cover (v.given.map blk) := by
  have hpool := h.nodes.blocks.pool
  have hpos : 0 < (nodeBlk s.mem p).len :=
    Nat.pos_of_ne_zero ((h.nodes.inUse p (h.nodes.node p hp)).mpr hp)
  have hsub : ∀ x, (nodeBlk s.mem p).Has x → x ∈ cover (v.given.map blk) := by
    intro x hx
    rw [← hpool.units]
    rcases mem_append.mp hp with hp | hp
    · exact .inl ⟨_, mem_map_of_mem hp, hx⟩
    · exact .inr ⟨_, mem_map_of_mem hp, hx⟩
  refine ⟨hpos, ?_, ?_, hsub⟩
  · intro h0
    obtain ⟨ch, hch, hb0⟩ := mem_cover_map.mp (hsub (nodeBlk s.mem p).addr
      ⟨Nat.le_refl _, by unfold Blk.fin; omega⟩)
    obtain ⟨F, hsys⟩ := h.sys
    have hne := hsys.outAddr ch (by simp [hch])
    have hle : ch.physAddr ≤ (nodeBlk s.mem p).addr := hb0.1
    omega
  · have hlast := h.low _ (h.given_sub (hsub ((nodeBlk s.mem p).fin - 1)
      ⟨by unfold Blk.fin; omega, by unfold Blk.fin; omega⟩))
    omega

theorem HeapOk.pages_apart (ha : a ∈ cover ((v.given ++ v.others).map blk)) :
    a ∉ cover (v.pages.map blk) := by
  intro hpg
  obtain ⟨b, hb, hba⟩ := ha
  obtain ⟨c, hc, hca⟩ := hpg
  obtain ⟨F, hsys⟩ := h.sys
  have hap := hsys.pool.outApart
  rw [CoreSys.out, map_append] at hap
  exact not_has_of_apart ((pairwise_append.mp hap).2.2 c hc b hb) hca hba

theorem HeapOk.data_of_frame (hf : NodeFrame s s' D) (hD : ∀ z ∈ D, IsNode v.pages z) :
    v.DataKept s.mem s'.mem := by
  intro a ha
  exact hf.mem a fun z hz hza => h.pages_apart ha ((hD z hz).mem_cover h.nodes.page hza)

end ranges

end AtomOs
