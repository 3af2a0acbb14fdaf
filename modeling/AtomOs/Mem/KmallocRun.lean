import AtomOs.Mem.KmallocSpec

/-!
# The kernel heap over whole runs

The system is the heap with the ranges its callers hold. They allocate, free what they hold and
store into it. `HeapSysOk` is the invariant of a run: what the callers hold is what the used
list describes, and `HeapOk` holds.

Two results about single calls go with it. The bytes of the heap (available and held) change
only when `kmalloc` finds nothing large enough, and then by whole pages. And a `kfree` right
after a `kmalloc` makes exactly the ranges available that were so before, apart from pages
taken in between.
-/

namespace AtomOs

open Lib List CoreHeader

/-- The heap and the ranges that are held. -/
structure HeapSys where
  heap : HeapState
  live : List Blk

inductive HeapOp where
  | kmalloc (size : Nat)
  | kfree (ptr : Nat)
  /-- A holder stores a word in its range. -/
  | store (a v : Nat)

def heapStep (s : HeapSys) : HeapOp → Option HeapSys
  | .kmalloc size =>
    match kmalloc s.heap size with
    | none => none
    | some (ptr, heap) => some ⟨heap, if ptr = 0 then s.live else ⟨ptr, size⟩ :: s.live⟩
  | .kfree ptr =>
    match kfree s.heap ptr with
    | none => none
    | some heap => some ⟨heap, s.live.eraseP fun b => b.addr == ptr⟩
  | .store a v => some { s with heap := s.heap.put a v }

/-- What the callers do: ask for something, free what they hold, store into it. -/
def HeapOpOk (s : HeapSys) : HeapOp → Prop
  | .kmalloc size => 0 < size
  | .kfree ptr => ∃ b ∈ s.live, b.addr = ptr
  | .store a _ => ∃ b ∈ s.live, b.Has a

instance (s : HeapSys) (op : HeapOp) : Decidable (HeapOpOk s op) :=
  match op with
  | .kmalloc size => inferInstanceAs (Decidable (0 < size))
  | .kfree ptr => inferInstanceAs (Decidable (∃ b ∈ s.live, b.addr = ptr))
  | .store a _ => inferInstanceAs (Decidable (∃ b ∈ s.live, b.Has a))

def heapInit (core : CoreState) : HeapState := ⟨core, 0, 0, 0, 0⟩

/-- The available list describes the ranges `A`. -/
def AvailRanges (s : HeapState) (A : List Blk) : Prop :=
  ∃ ds, Linked (nodeNext s.mem) (· = 0) s.kmavailList ds ∧ ds.map (nodeBlk s.mem) = A

theorem AvailRanges.unique {s : HeapState} {A A' : List Blk} (h : AvailRanges s A)
    (h' : AvailRanges s A') : A = A' := by
  obtain ⟨ds, hds, rfl⟩ := h
  obtain ⟨ds', hds', rfl⟩ := h'
  rw [hds.unique hds']

structure HeapSysOk (C : Set Nat) (s : HeapSys) (v : HeapView) : Prop where
  heap : HeapOk C s.heap v
  loose : v.loose = []
  others : v.others = []
  live : v.used.map (nodeBlk s.heap.mem) = s.live

section step

variable {C : Set Nat} {s : HeapSys} {v : HeapView} (h : HeapSysOk C s v)
include h

theorem HeapSysOk.out_eq : v.out = v.used := by rw [HeapView.out, h.loose, append_nil]

theorem HeapSysOk.blocks : HeapBlocks (v.given.map blk)
    (v.avail.map (nodeBlk s.heap.mem)) s.live := by
  have hb := h.heap.nodes.blocks
  rwa [h.out_eq, h.live] at hb

theorem HeapSysOk.kmalloc {size : Nat} (hsize : 0 < size) :
    ∃ ptr heap v', AtomOs.kmalloc s.heap size = some (ptr, heap) ∧
      HeapSysOk C ⟨heap, if ptr = 0 then s.live else ⟨ptr, size⟩ :: s.live⟩ v' ∧
      Kmalloced C s.heap v size ptr heap v' := by
  obtain ⟨ptr, heap, v', hrun, hk⟩ := kmalloc_spec h.heap h.loose hsize
  refine ⟨ptr, heap, v', hrun, ⟨hk.ok, hk.loose, hk.others.trans h.others, ?_⟩, hk⟩
  rcases hk.used with ⟨h0, hused⟩ | ⟨h0, hused⟩
  · rw [if_pos h0]
    exact hused.trans h.live
  · rw [if_neg h0]
    exact hused.trans (congrArg _ h.live)

theorem HeapSysOk.kfree {b : Blk} (hb : b ∈ s.live) :
    ∃ heap v', AtomOs.kfree s.heap b.addr = some heap ∧
      HeapSysOk C ⟨heap, s.live.eraseP fun c => c.addr == b.addr⟩ v' ∧
      v'.given = v.given ∧ s.live.Perm (b :: v'.used.map (nodeBlk heap.mem)) := by
  obtain ⟨heap, v', pre, post, hrun, hok, hl, hoth, hgiven, hsplit, hused, -⟩ :=
    kfree_spec h.heap h.loose (h.live.symm ▸ hb)
  rw [h.live] at hsplit
  have hpre : ∀ c ∈ pre, ¬ (c.addr == b.addr) = true := by
    intro c hc he
    have hap := h.blocks.pool.outApart
    have hcpos := h.blocks.pool.outPos c (hsplit ▸ mem_append_left _ hc)
    have hbpos := h.blocks.pool.outPos b hb
    rw [hsplit] at hap
    have hcb := (pairwise_append.mp hap).2.2 c hc b mem_cons_self
    have he' : c.addr = b.addr := by simpa using he
    unfold Blk.Apart Blk.fin at hcb
    omega
  have herase : s.live.eraseP (fun c => c.addr == b.addr) = pre ++ post := by
    rw [hsplit, eraseP_append_right _ hpre, eraseP_cons_of_pos (by simp)]
  refine ⟨heap, v', hrun, ⟨hok, hl, hoth.trans h.others, ?_⟩, hgiven, ?_⟩
  · rw [hused]
    exact herase.symm
  · rw [hused, hsplit]
    exact perm_middle

theorem HeapSysOk.store {a x : Nat} (ha : ∃ b ∈ s.live, b.Has a) :
    HeapSysOk C { s with heap := s.heap.put a x } v := by
  obtain ⟨b, hb, hab⟩ := ha
  have hgiven : a ∈ cover (v.given.map blk) := by
    rw [← h.blocks.pool.units]
    exact .inr ⟨b, hb, hab⟩
  have hpages := h.heap.pages_apart (v.given_sub_clients hgiven)
  have hmem : ∀ y ∈ cover (v.pages.map blk), (s.heap.put a x).mem y = s.heap.mem y :=
    fun y hy => Mem.set_ne fun he => hpages (he ▸ hy)
  have hnodes := h.heap.nodes.congr hmem
  refine ⟨⟨h.heap.sys_congr (List.Perm.refl _) ?_ rfl rfl, h.heap.low, hnodes⟩, h.loose, h.others,
    ?_⟩
  · intro y hy
    refine Mem.set_ne fun he => hy ?_
    rw [he]
    exact v.clients_sub_held (v.given_sub_clients hgiven)
  · have hkept : CellsKept s.heap.mem (s.heap.put a x).mem v.used := fun z hz y hy =>
      hmem y ((h.heap.nodes.node z (v.out_sub (v.used_sub hz))).mem_cover h.heap.nodes.page hy)
    exact hkept.map.trans h.live

/-- **Every operation returns and keeps the invariant.** -/
theorem HeapSysOk.step {op : HeapOp} (hop : HeapOpOk s op) :
    ∃ s' v', heapStep s op = some s' ∧ HeapSysOk C s' v' := by
  cases op with
  | kmalloc size =>
    obtain ⟨ptr, heap, v', hrun, hok, -⟩ := h.kmalloc hop
    exact ⟨_, v', by simp only [heapStep, hrun], hok⟩
  | kfree ptr =>
    obtain ⟨b, hb, rfl⟩ := hop
    obtain ⟨heap, v', hrun, hok, -⟩ := h.kfree hb
    exact ⟨_, v', by simp only [heapStep, hrun], hok⟩
  | store a x => exact ⟨_, v, rfl, h.store hop⟩

end step

/-- The empty view of a heap that has not been used. -/
def HeapView.empty : HeapView := ⟨[], [], [], [], [], []⟩

theorem heapInit_ok {core : CoreState} {F : List Blk} (hcore : CoreOk core F)
    (hlow : ∀ x ∈ cover F, x < 0xf0000000) :
    HeapSysOk (cover F) ⟨heapInit core, []⟩ HeapView.empty := by
  have hnil : Pool (cover []) [] [] := ⟨canon_nil, by simp, List.Pairwise.nil, by simp, by simp⟩
  refine ⟨⟨⟨F, hcore, ?_, by simp [HeapView.empty], by simp [HeapView.empty]⟩, hlow, ?_⟩, rfl, rfl,
    rfl⟩
  · exact ⟨hcore.canon, by simp [CoreSys.out, HeapView.empty],
      by simp [CoreSys.out, HeapView.empty], by simp [CoreSys.out, HeapView.empty],
      by simp [CoreSys.out, HeapView.empty]⟩
  · refine ⟨by simp [HeapView.empty], rfl, rfl, rfl, nodup_nil, ?_, ?_, hnil, rfl⟩
    · simp [HeapView.empty, HeapView.nodes, HeapView.out]
    · intro p hp
      obtain ⟨ch, hch, -⟩ := hp
      simp [HeapView.empty] at hch

/-- **The invariant holds in every state of a run.** -/
theorem HeapSysOk.run {C : Set Nat} {s t : HeapSys} {v : HeapView} (h : HeapSysOk C s v)
    (hrun : Reaches heapStep HeapOpOk s t) : ∃ v', HeapSysOk C t v' := by
  refine hrun.invariant (fun u => ∃ v', HeapSysOk C u v') ⟨v, h⟩ ?_
  intro u w op hu hop hstep
  obtain ⟨v', hu⟩ := hu
  obtain ⟨w', v'', hw, hok⟩ := hu.step hop
  rw [hstep] at hw
  cases hw
  exact ⟨v'', hok⟩

/-! ## What the calls do to the ranges -/

def wholePages (size : Nat) : Nat := (size + 4095) / 4096 * 4096

/-- The available and the held bytes stay as many as they are, except that a `kmalloc` for which
    nothing is large enough may add the pages it needs. -/
def BytesKept (t : HeapSys) (A : List Blk) : Prop :=
  ∀ op t' A', HeapOpOk t op → heapStep t op = some t' → AvailRanges t'.heap A' →
    total A' + total t'.live = total A + total t.live ∨
      ∃ size, op = .kmalloc size ∧ (∀ b ∈ A, b.len < size) ∧
        total A' + total t'.live = total A + total t.live + wholePages size

/-- A `kfree` of what `kmalloc` just returned makes available again exactly what was available
    before, plus pages that `kmalloc` took from the free list `F` of the page allocator because
    nothing was large enough. -/
def FreeUndoes (t : HeapSys) (A F : List Blk) : Prop :=
  ∀ size ptr h₁, 0 < size → kmalloc t.heap size = some (ptr, h₁) → ptr ≠ 0 →
    ∃ h₂ A₂, kfree h₁ ptr = some h₂ ∧ AvailRanges h₂ A₂ ∧
      (A₂ = A ∨ (∀ b ∈ A, b.len < size) ∧ ∃ r : Blk, r.len = wholePages size ∧
        (∀ x, r.Has x → x ∈ cover F) ∧ cover A₂ = cover A ∪ {x | r.Has x})

section calls

variable {C : Set Nat} {s : HeapSys} {v : HeapView} (h : HeapSysOk C s v)
include h

theorem HeapSysOk.avail : AvailRanges s.heap (v.avail.map (nodeBlk s.heap.mem)) :=
  ⟨v.avail, h.heap.nodes.avail, rfl⟩

theorem HeapSysOk.bytesKept : BytesKept s (v.avail.map (nodeBlk s.heap.mem)) := by
  intro op t A' hop hstep hA'
  have hb := h.blocks.bytes
  cases op with
  | kmalloc size =>
    obtain ⟨ptr, heap, v', hrun, hok, hk⟩ := h.kmalloc hop
    have ht : t = ⟨heap, if ptr = 0 then s.live else ⟨ptr, size⟩ :: s.live⟩ := by
      simpa only [heapStep, hrun, Option.some.injEq] using hstep.symm
    subst ht
    obtain rfl := hA'.unique hok.avail
    have hb' := hok.blocks.bytes
    rcases hk.given with hg | ⟨hnone, ch, hch, hg⟩
    · rw [hg] at hb'
      exact .inl (hb'.trans hb.symm)
    · refine .inr ⟨size, rfl, hnone, ?_⟩
      rw [hg, map_cons, total_cons] at hb'
      have hlen : ch.blk.len = wholePages size := by rw [blk, hch, wholePages]
      omega
  | kfree ptr =>
    obtain ⟨b, hb', rfl⟩ := hop
    obtain ⟨heap, v', hrun, hok, hg, -⟩ := h.kfree hb'
    have ht : t = ⟨heap, s.live.eraseP fun c => c.addr == b.addr⟩ := by
      simpa only [heapStep, hrun, Option.some.injEq] using hstep.symm
    subst ht
    obtain rfl := hA'.unique hok.avail
    have hb'' := hok.blocks.bytes
    rw [hg] at hb''
    exact .inl (hb''.trans hb.symm)
  | store a x =>
    have hok := h.store (x := x) hop
    cases hstep
    obtain rfl := hA'.unique hok.avail
    exact .inl (hok.blocks.bytes.trans hb.symm)

theorem HeapSysOk.freeUndoes {F : List Blk} (hF : FreeList s.heap.core F) :
    FreeUndoes s (v.avail.map (nodeBlk s.heap.mem)) F := by
  intro size ptr h₁ hsize hrun h0
  obtain ⟨ptr', heap, v1, hrun', hok1, hk⟩ := h.kmalloc hsize
  rw [hrun] at hrun'
  obtain ⟨rfl, rfl⟩ : ptr = ptr' ∧ h₁ = heap := by simpa using hrun'
  rw [if_neg h0] at hok1
  obtain ⟨h₂, v2, hfree, hok2, hg2, hperm⟩ := hok1.kfree (b := ⟨ptr, size⟩) (by simp)
  refine ⟨h₂, _, hfree, hok2.avail, ?_⟩
  -- After both calls the same ranges are held as before.
  have hheld : (v2.used.map (nodeBlk h₂.mem)).Perm s.live :=
    (perm_cons _).mp hperm.symm
  have hpool2 : Pool (cover (v1.given.map blk)) (v2.avail.map (nodeBlk h₂.mem))
      s.live := by
    have hp := hok2.blocks.pool
    rw [hg2, ← hok2.live] at hp
    exact hp.perm hheld
  have hpool := h.blocks.pool
  rcases hk.given with hg | ⟨hnone, ch, hch, hg⟩
  · rw [hg] at hpool2
    exact .inl (hpool2.free_unique hpool)
  -- The pages that came in were in no hands before.
  have hnew : ∀ x, ch.blk.Has x → x ∉ cover (v.pages.map blk) ∧
      x ∉ cover (v.given.map blk) := by
    intro x hx
    have hxg : x ∈ cover (v1.given.map blk) := by
      rw [hg, map_cons, cover_cons]
      exact .inl hx
    refine ⟨fun hpg => hok1.heap.pages_apart (v1.given_sub_clients hxg) ?_, fun hgv => ?_⟩
    · obtain ⟨c, hc, hbx⟩ := mem_cover_map.mp hpg
      exact ⟨c.blk, mem_map_of_mem (hk.pages c hc), hbx⟩
    · obtain ⟨F1, hsys⟩ := hok1.heap.sys
      have hap := hsys.pool.outApart
      rw [CoreSys.out, map_append, map_append, hg, map_cons] at hap
      have hap' := (pairwise_append.mp (pairwise_append.mp hap).2.1).1
      obtain ⟨b, hb, hbx⟩ := hgv
      exact not_has_of_apart ((pairwise_cons.mp hap').1 b hb) hx hbx
  refine .inr ⟨hnone, ch.blk, by rw [blk, hch, wholePages], fun x hx => ?_, ?_⟩
  · obtain ⟨F', hsys⟩ := h.heap.sys
    obtain rfl : F = F' := hF.unique hsys.core.list
    have hxC : x ∈ C := hok1.heap.given_sub (by
      rw [hg, map_cons, cover_cons]
      exact .inl hx)
    rw [hsys.pool.cover_free]
    refine ⟨hxC, fun hout => ?_⟩
    rw [CoreSys.out, h.others, append_nil, map_append, cover_append] at hout
    rcases hout with hout | hout
    · exact (hnew x hx).1 hout
    · exact (hnew x hx).2 hout
  · rw [hpool2.cover_free, hpool.cover_free, hg, map_cons, cover_cons]
    ext x
    simp only [Set.mem_sdiff, Set.mem_union, Set.mem_ofPred_eq]
    have hlive : ch.blk.Has x → x ∉ cover s.live := fun hx hm =>
      (hnew x hx).2 (hpool.units ▸ .inr hm)
    tauto

/-- `create_mem_list_node` never returns a descriptor that is in use. -/
theorem HeapSysOk.created_fresh {p : Nat} {h' : HeapState}
    (hrun : createMemListNode s.heap = some (p, h')) : p ∉ v.avail ++ v.used := by
  obtain ⟨p', s', v', hrun', hc⟩ := createMemListNode_spec h.heap
  rw [hrun] at hrun'
  obtain ⟨rfl, rfl⟩ : p = p' ∧ h' = s' := by simpa using hrun'
  have hnodes : v.avail ++ v.used = v.nodes := by rw [HeapView.nodes, h.out_eq]
  rw [hnodes]
  intro hp
  by_cases h0 : p = 0
  · exact (h.heap.nodes.node p hp).ne_zero h.heap.nodes.page h0
  obtain ⟨hnode, hsize⟩ := hc.free h0
  have hp' : p ∈ v'.nodes := by
    rw [HeapView.nodes, HeapView.out, hc.avail, hc.used, hc.loose]
    exact hp
  exact (hc.ok.nodes.inUse p hnode).mpr hp' hsize

end calls

/-- **The kernel heap.** From a page allocator in order, with its memory below `0xf0000000`, let
    the callers allocate, free what they hold and store into it, in any order. Every call
    returns. In every state the available list is sorted, disjoint and fully coalesced; the held
    ranges are apart from each other and from it; both together are the pages `G` the heap has
    from the page allocator, and their bytes add up to those of `G`. The descriptors in use are
    distinct, and none of them is handed out as a free one. -/
theorem kernel_heap_sound {core : CoreState} {F₀ : List Blk} (hcore : CoreOk core F₀)
    (hlow : ∀ x ∈ cover F₀, x < 0xf0000000) {t : HeapSys}
    (hrun : Reaches heapStep HeapOpOk ⟨heapInit core, []⟩ t) :
    (∀ op, HeapOpOk t op → ∃ t', heapStep t op = some t') ∧
    ∃ ds us A G F,
      Linked (nodeNext t.heap.mem) (· = 0) t.heap.kmavailList ds ∧
      ds.map (nodeBlk t.heap.mem) = A ∧
      Linked (nodeNext t.heap.mem) (· = 0) t.heap.kmusedList us ∧
      us.map (nodeBlk t.heap.mem) = t.live ∧
      Canon A ∧ t.live.Pairwise Blk.Apart ∧ (∀ b ∈ t.live, ∀ c ∈ A, b.Apart c) ∧
      cover A ∪ cover t.live = cover G ∧ total A + total t.live = total G ∧
      FreeList t.heap.core F ∧ (∀ x ∈ cover G, x ∈ cover F₀ ∧ x ∉ cover F) ∧
      (ds ++ us).Nodup ∧
      (∀ p h', createMemListNode t.heap = some (p, h') → p ∉ ds ++ us) ∧
      BytesKept t A ∧ FreeUndoes t A F := by
  obtain ⟨v, h⟩ := (heapInit_ok hcore hlow).run hrun
  obtain ⟨F, hsys⟩ := h.heap.sys
  have hb := h.blocks
  refine ⟨fun op hop => ?_, v.avail, v.used, _, v.given.map blk, F, h.heap.nodes.avail,
    rfl, h.heap.nodes.used, h.live, hb.pool.canon, hb.pool.outApart, hb.pool.freeApart,
    hb.pool.units, hb.bytes, hsys.core.list, fun x hx => ⟨h.heap.given_sub hx, ?_⟩, ?_,
    fun p h' hc => h.created_fresh hc, h.bytesKept, h.freeUndoes hsys.core.list⟩
  · obtain ⟨t', -, hstep, -⟩ := h.step hop
    exact ⟨t', hstep⟩
  · rw [hsys.pool.cover_free]
    refine fun hx' => hx'.2 ?_
    rw [CoreSys.out, map_append, map_append, cover_append, cover_append]
    exact .inr (.inl hx)
  · have hnd := h.heap.nodes.nodup
    rwa [HeapView.nodes, h.out_eq] at hnd

/-- Four free pages from `0x1000` on. -/
def fourPages : CoreState :=
  ⟨fun a => if a = 0x1000 then 4 else 0, 0x1000, [⟨0x1000, 0x4000, 1⟩]⟩

theorem fourPages_ok : CoreOk fourPages [⟨0x1000, 0x4000⟩] := by
  refine ⟨⟨[0x1000], ⟨rfl, by decide, rfl⟩, rfl⟩, ⟨pairwise_singleton _ _, by simp⟩, ?_⟩
  intro b hb
  obtain rfl := mem_singleton.mp hb
  refine ⟨rfl, rfl, by decide, fun x hx _ => ?_⟩
  have h1 : 0x1000 ≤ x := hx.1
  have h2 : x < 0x1000 + 0x4000 := hx.2
  have hu : u32 20480 = 20480 := by decide
  simp [fourPages, isValidBlock, hu]
  omega

/-- One `kmalloc` from the four pages. -/
theorem kernel_heap_sound_fourPages :
    ∃ t, heapStep ⟨heapInit fourPages, []⟩ (.kmalloc 100) = some t ∧
      t.live = [⟨0x1000, 100⟩] ∧
      ∃ A, AvailRanges t.heap A ∧ Canon A ∧ (∀ b ∈ t.live, ∀ c ∈ A, b.Apart c) ∧ BytesKept t A := by
  obtain ⟨t, hstep, hlive⟩ : ∃ t ∈ heapStep ⟨heapInit fourPages, []⟩ (.kmalloc 100),
      t.live = [⟨0x1000, 100⟩] := by decide +kernel
  have hop : HeapOpOk ⟨heapInit fourPages, []⟩ (.kmalloc 100) := by decide
  have hlow : ∀ x ∈ cover [(⟨0x1000, 0x4000⟩ : Blk)], x < 0xf0000000 := by
    intro x hx
    obtain ⟨b, hb, hbx⟩ := hx
    obtain rfl := mem_singleton.mp hb
    have h2 : x < 0x1000 + 0x4000 := hbx.2
    omega
  obtain ⟨-, ds, us, A, G, F, hds, hA, -, -, hcan, -, hap, -, -, -, -, -, -, hbytes, -⟩ :=
    kernel_heap_sound fourPages_ok hlow ((Reaches.refl _).snoc hop hstep)
  exact ⟨t, hstep, hlive, A, ⟨ds, hds, hA⟩, hcan, hap, hbytes⟩

/-- **The heap grows.** The first `kmalloc` takes a page, so the available and the held bytes are
    4096 where they were 0, and a `kfree` right after it leaves that page available. -/
theorem kernel_heap_grows : ∃ t₁ t₂, heapStep ⟨heapInit fourPages, []⟩ (.kmalloc 100) = some t₁ ∧
      heapStep t₁ (.kfree 0x1000) = some t₂ ∧ HeapOpOk t₁ (.kfree 0x1000) ∧
      AvailRanges (heapInit fourPages) [] ∧
      AvailRanges t₁.heap [⟨0x1064, 3996⟩] ∧ t₁.live = [⟨0x1000, 100⟩] ∧
      AvailRanges t₂.heap [⟨0x1000, 4096⟩] ∧ t₂.live = [] := by
  have hone : ∀ {s : HeapState} {b : Blk}, s.kmavailList = 0x2000 ∧ nodeBlk s.mem 0x2000 = b ∧
      nodeNext s.mem 0x2000 = 0 → AvailRanges s [b] := by
    rintro s b ⟨hs, hb, hn⟩
    exact ⟨[0x2000], ⟨hs, by decide, hn⟩, by rw [map_singleton, hb]⟩
  obtain ⟨t₁, h1, hl, ha, t₂, h2, hl', ha'⟩ :
      ∃ t₁ ∈ heapStep ⟨heapInit fourPages, []⟩ (.kmalloc 100), t₁.live = [⟨0x1000, 100⟩] ∧
        (t₁.heap.kmavailList = 0x2000 ∧ nodeBlk t₁.heap.mem 0x2000 = ⟨0x1064, 3996⟩ ∧
          nodeNext t₁.heap.mem 0x2000 = 0) ∧
        ∃ t₂ ∈ heapStep t₁ (.kfree 0x1000), t₂.live = [] ∧ t₂.heap.kmavailList = 0x2000 ∧
          nodeBlk t₂.heap.mem 0x2000 = ⟨0x1000, 4096⟩ ∧ nodeNext t₂.heap.mem 0x2000 = 0 := by
    decide +kernel
  exact ⟨t₁, t₂, h1, h2, ⟨_, hl ▸ mem_singleton.mpr rfl, rfl⟩, ⟨[], rfl, rfl⟩,
    hone ha, hl, hone ha', hl'⟩

end AtomOs
