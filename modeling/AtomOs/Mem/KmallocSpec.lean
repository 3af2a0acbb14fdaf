import AtomOs.Mem.KmallocInv

/-!
# What `kmalloc` and `kfree` do

Both are made of a few moves of one descriptor: out of the used list, into the available list,
from the available list to the used one, from free to in use. Each move has a lemma here that
says it keeps `HeapOk`, and what it does to the view; the specifications `kmalloc_spec` and
`kfree_spec` follow by chaining them.

The search through the available list has an invariant of its own (`BestOk`): a descriptor is remembered
as soon as one that is large enough was seen, and it is large enough. If there is none the heap grows by
whole pages (`HeapOk.grow`) and the search is made a second time, which finds one. What a caller learns from
a call is `Kmalloced`.
-/

namespace AtomOs

open Lib List CoreHeader Mem

variable {C : Set Nat} {l₁ l₂ : List Nat} {p size : Nat} {s : HeapState} {v : HeapView}

variable {s₁ s' : HeapState} {ch : CoreHeader} {rest : List CoreHeader} {b : Blk} {q : Nat}
  {m : Mem}

section moves

variable {C : Set Nat} {s : HeapState} {v : HeapView} (h : HeapOk C s v)
include h

/-- **A loose descriptor joins the available list.** -/
theorem HeapOk.insert (hl : v.loose = [p]) : ∃ s' ats, insertAvailNode s p = some s' ∧
      HeapOk C s' { v with avail := ats, loose := [] } ∧
      (∃ z ∈ ats, nodeSize s.mem p ≤ nodeSize s'.mem z) ∧
      v.used.map (nodeBlk s'.mem) = v.used.map (nodeBlk s.mem) ∧ v.DataKept s.mem s'.mem := by
  have hn := h.nodes
  have hout : v.out = v.used ++ [p] := by rw [HeapView.out, hl]
  have hpn : p ∈ v.nodes := v.out_sub (by simp [hout])
  have hnd := hn.nodup
  rw [HeapView.nodes, hout] at hnd
  obtain ⟨-, hnd', hdisj⟩ := nodup_append.mp hnd
  have hpa : p ∉ v.avail := fun hp => hdisj p hp p (by simp) rfl
  have hpu : p ∉ v.used := fun hp => (nodup_append.mp hnd').2.2 p hp p (by simp) rfl
  have hua : ∀ z ∈ v.used, z ∉ p :: v.avail := by
    intro z hz hmem
    rcases mem_cons.mp hmem with rfl | hmem
    · exact hpu hz
    · exact hdisj z hmem z (by simp [hz]) rfl
  have hD : ∀ z ∈ p :: v.avail, z ∈ v.nodes :=
    forall_mem_cons.mpr ⟨hpn, fun z hz => v.avail_sub hz⟩
  have hins : Insertable s p v.avail := by
    refine ⟨hn.avail, hn.blocks.pool.canon, fun z hz => hn.nodeAt (hD z hz), hpa,
      (hn.node p hpn).ne_zero hn.page, (h.range hpn).1, fun z hz => ?_, fun z hz => ?_⟩
    · exact hn.blocks.pool.freeApart _ (mem_map_of_mem (by simp [hout])) _
        (mem_map_of_mem hz)
    · have := (h.range (hD z hz)).2.2.1
      omega
  obtain ⟨s', ats, pre, post, hrun, hi⟩ := insertAvailNode_spec hins hn.avail_length
  have hkept : CellsKept s.mem s'.mem v.used :=
    hi.frame.kept (fun z hz => hn.nodeAt (hD z hz))
      (fun z hz => hn.nodeAt (v.out_sub (v.used_sub hz))) hua
  have hcan : Canon (ats.map (nodeBlk s'.mem)) := by
    rw [hi.blks]
    exact coalesce_canon (hi.split ▸ hn.blocks.pool.canon) (h.range hpn).1 hi.before hi.after
  have hperm : (v.out.map (nodeBlk s.mem)).Perm
      (nodeBlk s.mem p :: v.used.map (nodeBlk s.mem)) := by
    rw [hout, map_append]
    exact perm_append_singleton _ _
  have hblocks : HeapBlocks (v.given.map blk) (ats.map (nodeBlk s'.mem))
      (v.used.map (nodeBlk s'.mem)) := by
    rw [hkept.map]
    refine ⟨(hn.blocks.pool.perm hperm).put hcan ?_, ?_⟩
    · rw [hi.blks, cover_coalesce, ← hi.split]
    · have hb := hn.blocks.bytes
      rw [total_perm hperm, total_cons, hi.split] at hb
      rw [hi.blks, total_coalesce]
      omega
  have hnodes : NodesOk s'.mem s'.kmmallocInfo s'.kmavailList s'.kmusedList
      { v with avail := ats, loose := [] } := by
    rw [hi.frame.info, hi.used]
    refine hn.change (fun z hz => hn.node z (hD z hz)) hi.frame.mem rfl hi.link
      (hkept.linked hn.used) ?_ ?_ ?_ ?_
    · show (ats ++ (v.used ++ [])).Nodup
      rw [append_nil]
      refine nodup_append.mpr ⟨hi.link.nodup, (nodup_append.mp hnd').1, ?_⟩
      rintro z hz w hw rfl
      exact hua z hw (hi.sub z hz)
    · intro z hz
      show _ ↔ z ∈ ats ++ (v.used ++ [])
      rw [append_nil, mem_append]
      refine ⟨fun hne => .inl ?_, fun hmem => ?_⟩
      · by_contra hno
        exact hne (hi.freed z hz hno)
      · rcases hmem with hmem | hmem
        · exact Nat.ne_of_gt (hcan.pos _ (mem_map_of_mem hmem))
        · exact absurd hz (hua z hmem)
    · intro z hz
      show z ∈ ats ++ (v.used ++ []) ↔ z ∈ v.avail ++ v.out
      rw [hout]
      have hza : z ∉ ats := fun hm => hz (hi.sub z hm)
      simp only [mem_cons, not_or] at hz
      simp [hza, hz.1, hz.2]
    · show HeapBlocks _ _ ((v.used ++ []).map _)
      rw [append_nil]
      exact hblocks
  refine ⟨s', ats, hrun, h.of_nodeFrame hi.frame (fun z hz => hn.node z (hD z hz)) ?_ hnodes, ?_,
    hkept.map, h.data_of_frame hi.frame fun z hz => hn.node z (hD z hz)⟩
  · exact List.Perm.refl _
  · obtain ⟨c, hc, hle⟩ := exists_le_coalesce pre (nodeBlk s.mem p) post
    rw [← hi.blks] at hc
    obtain ⟨z, hz, rfl⟩ := mem_map.mp hc
    exact ⟨z, hz, hle⟩

/-- **A loose descriptor joins the used list**: the end of `kmalloc`. -/
theorem HeapOk.giveOut (hl : v.loose = [p]) : (giveOut s p).1 = (nodeBlk s.mem p).addr ∧
      HeapOk C (giveOut s p).2 { v with used := p :: v.used, loose := [] } ∧
      (∀ z ∈ v.nodes, nodeBlk (giveOut s p).2.mem z = nodeBlk s.mem z) ∧
      v.DataKept s.mem (giveOut s p).2.mem := by
  have hn := h.nodes
  have hout : v.out = v.used ++ [p] := by rw [HeapView.out, hl]
  have hpn : p ∈ v.nodes := v.out_sub (by simp [hout])
  have hperm : v.nodes.Perm (v.avail ++ (p :: v.used ++ [])) := by
    rw [HeapView.nodes, hout, append_nil]
    exact (perm_append_singleton _ _).append_left _
  have hnd := hperm.nodup_iff.mp hn.nodup
  rw [append_nil] at hnd
  obtain ⟨-, hnd', hdisj⟩ := nodup_append.mp hnd
  have hpo : ∀ {l : List Nat}, p ∉ l → (∀ z ∈ l, z ∈ v.nodes) →
      CellsKept s.mem (s.mem.set (p + 8) s.kmusedList) l := fun hpl hl =>
    (CellsKept.refl _ _).set (fun z hz => hn.nodeAt (hl z hz)) (hn.nodeAt hpn) hpl
      (.inr (.inr rfl))
  have hka := hpo (l := v.avail) (fun hp => hdisj p hp p (by simp) rfl) fun z hz => v.avail_sub hz
  have hku := hpo (l := v.used) (nodup_cons.mp hnd').1 fun z hz => v.out_sub (v.used_sub hz)
  have hblks : ∀ z ∈ v.nodes, nodeBlk (s.mem.set (p + 8) s.kmusedList) z = nodeBlk s.mem z := fun z hz =>
    nodeBlk_set_next (hn.nodeAt hz) (hn.nodeAt hpn)
  have hframe : NodeFrame s (AtomOs.giveOut s p).2 [p] :=
    ((NodeFrame.refl _ _).put (by simp) (.inr (.inr rfl))).setUsed
  have hDn : ∀ z ∈ [p], z ∈ v.nodes := fun z hz => mem_singleton.mp hz ▸ hpn
  have hD : ∀ z ∈ [p], IsNode v.pages z := fun z hz => hn.node z (hDn z hz)
  refine ⟨congrArg Blk.addr (hblks p hpn), h.of_nodeFrame hframe hD (List.Perm.refl _) ?_, hblks,
    h.data_of_frame hframe hD⟩
  refine hn.rearrange hDn hframe.mem hblks rfl hperm (hka.linked hn.avail)
    ⟨rfl, (hn.node p hpn).ne_zero hn.page, ?_⟩ ?_
  · show Linked _ _ ((s.mem.set (p + 8) s.kmusedList) (p + 8)) v.used
    rw [set_same]
    exact hku.linked hn.used
  · have hout' : (v.out.map (nodeBlk s.mem)).Perm ((p :: v.used ++ []).map (nodeBlk s.mem)) := by
      rw [hout, append_nil]
      exact (perm_append_singleton _ _).map _
    exact ⟨hn.blocks.pool.perm hout', total_perm hout' ▸ hn.blocks.bytes⟩

/-- **A descriptor leaves the used list**: the beginning of `kfree`. -/
theorem HeapOk.unuse (hused : v.used = l₁ ++ p :: l₂) (hl : v.loose = [])
    (hs1 : s₁ = if p = s.kmusedList then { s with kmusedList := nodeNext s.mem p }
      else s.put (l₁.getLastD 0 + 8) (nodeNext s.mem p)) (hs' : s' = s₁.put (p + 8) 0) :
    HeapOk C s' { v with used := l₁ ++ l₂, loose := [p] } ∧
      (∀ z ∈ v.nodes, nodeBlk s'.mem z = nodeBlk s.mem z) ∧ v.DataKept s.mem s'.mem := by
  have hn := h.nodes
  have hout : v.out = l₁ ++ p :: l₂ := by rw [HeapView.out, hl, hused, append_nil]
  have hmem : ∀ z ∈ l₁ ++ p :: l₂, z ∈ v.nodes := fun z hz => v.out_sub (hout ▸ hz)
  have hpn : p ∈ v.nodes := hmem p (by simp)
  have hoperm : v.out.Perm (l₁ ++ l₂ ++ [p]) := by
    rw [hout]
    exact perm_middle.trans (perm_append_singleton _ _).symm
  have hperm : v.nodes.Perm (v.avail ++ (l₁ ++ l₂ ++ [p])) := hoperm.append_left _
  have hnd := hperm.nodup_iff.mp hn.nodup
  obtain ⟨-, hnd', hdisj⟩ := nodup_append.mp hnd
  have hpl : p ∉ l₁ ++ l₂ := fun hp => (nodup_append.mp hnd').2.2 p hp p (by simp) rfl
  have hlink := hn.used
  rw [hused] at hlink
  -- Only links are written, of `p` and of the one before it.
  have hword : ∀ b, (∀ z ∈ p :: l₁, b ≠ z + 8) → s'.mem b = s.mem b := by
    intro b hb
    rw [hs', put_mem, set_ne (hb p (by simp)), hs1]
    split
    · rfl
    rename_i hne
    rcases eq_nil_or_concat' l₁ with rfl | ⟨l₁, a, rfl⟩
    · exact absurd hlink.1.symm hne
    · refine set_ne ?_
      simpa using hb a (by simp)
  have hframe : NodeFrame s s' (p :: l₁) := by
    refine ⟨fun b hb => hword b fun z hz he => hb z hz (.inr (.inr he)), ?_, ?_, ?_⟩
    all_goals
      rw [hs', hs1]
      split <;> rfl
  have hDn : ∀ z ∈ p :: l₁, z ∈ v.nodes :=
    forall_mem_cons.mpr ⟨hpn, fun z hz => hmem z (by simp [hz])⟩
  have hD : ∀ z ∈ p :: l₁, IsNode v.pages z := fun z hz => hn.node z (hDn z hz)
  have hblks : ∀ z ∈ v.nodes, nodeBlk s'.mem z = nodeBlk s.mem z := by
    intro z hz
    have hzat := hn.nodeAt hz
    have hoff : ∀ a, a = z ∨ a = z + 4 → s'.mem a = s.mem a := by
      intro a ha
      refine hword a fun w hw => ?_
      have hwat := hn.nodeAt (hDn w hw)
      unfold NodeAt at hzat hwat
      omega
    simp only [nodeBlk, nodeAddr, nodeSize]
    rw [hoff z (.inl rfl), hoff (z + 4) (.inr rfl)]
  have hkept : ∀ {l : List Nat}, (∀ z ∈ l, z ∈ v.nodes ∧ z ∉ p :: l₁) →
      CellsKept s.mem s'.mem l := fun hl =>
    hframe.kept (fun z hz => hn.nodeAt (hDn z hz)) (fun z hz => hn.nodeAt (hl z hz).1)
      fun z hz => (hl z hz).2
  have hka : CellsKept s.mem s'.mem v.avail := by
    refine hkept fun z hz => ⟨v.avail_sub hz, fun hmem => ?_⟩
    refine hdisj z hz z ?_ rfl
    simp only [mem_cons] at hmem
    simp only [mem_append, mem_singleton]
    tauto
  have hav : s'.kmavailList = s.kmavailList := by
    rw [hs', hs1]
    split <;> rfl
  refine ⟨h.of_nodeFrame hframe hD (List.Perm.refl _) ?_, hblks, h.data_of_frame hframe hD⟩
  rw [hframe.info, hav]
  refine hn.rearrange hDn hframe.mem hblks rfl hperm (hka.linked hn.avail) ?_ ?_
  · -- The used list without `p`.
    have hk2 : CellsKept s.mem s'.mem l₂ := by
      refine hkept fun z hz => ⟨hmem z (by simp [hz]), fun hzm => ?_⟩
      rcases mem_cons.mp hzm with rfl | hzm
      · exact hpl (by simp [hz])
      · exact (nodup_append.mp (nodup_append.mp hnd').1).2.2 z hzm z hz rfl
    rcases eq_nil_or_concat' l₁ with rfl | ⟨l₁, a, rfl⟩
    · have hus : s'.kmusedList = nodeNext s.mem p := by rw [hs', hs1, if_pos hlink.1.symm]; rfl
      exact hus ▸ hk2.linked hlink.2.2
    have hne : p ≠ s.kmusedList := by
      intro he
      refine hpl (mem_append_left _ ?_)
      cases l₁ with
      | nil => exact he ▸ (by simp [hlink.1])
      | cons z l₁ => exact he ▸ (by simp [hlink.1])
    have hap : a ≠ p := fun he => hpl (by simp [he])
    have hmid : l₁ ++ [a] ++ p :: l₂ = l₁ ++ a :: p :: l₂ := by simp
    have hus : s'.kmusedList = s.kmusedList := by rw [hs', hs1, if_neg hne]; rfl
    have hnext : nodeNext s'.mem a = nodeNext s.mem p := by
      rw [nodeNext, hs', put_mem, set_ne (by omega), hs1, if_neg hne]
      simp
    have hlink' := hlink
    rw [hmid] at hlink'
    rw [hus]
    show Linked _ _ _ (l₁ ++ [a] ++ l₂)
    rw [append_assoc, singleton_append]
    refine hlink'.splice (fun z hz => ?_) (hnext ▸ hk2.linked (Linked.drop hlink).2.2)
    have hnd1 := (nodup_append.mp (nodup_append.mp hnd').1).1
    have hza : z ≠ a := fun he => (nodup_append.mp hnd1).2.2 z hz a (by simp) he
    have hzp : z ≠ p := fun he => hpl (by simp [← he, hz])
    rw [nodeNext, hs', put_mem, set_ne (by omega), hs1, if_neg hne, put_mem, set_ne]
    · rfl
    · simp [hza]
  · exact ⟨hn.blocks.pool.perm (hoperm.map _), total_perm (hoperm.map _) ▸ hn.blocks.bytes⟩

omit h in
theorem HeapView.nodes_snoc (hl : v.loose = []) (q : Nat) :
    (q :: v.nodes).Perm (v.avail ++ (v.used ++ [q])) := by
  rw [HeapView.nodes, HeapView.out, hl, append_nil, ← append_assoc]
  exact (perm_append_singleton q _).symm

/-- **New pages come to the heap**, under a free descriptor that is loose at first. -/
theorem HeapOk.grow (hoth : v.others = ch :: rest) (hl : v.loose = []) (hp : IsNode v.pages p)
    (hfree : nodeSize s.mem p = 0)
    (hs' : s' = ((s.put p ch.physAddr).put (p + 4) (ch.noBlocks * 4096)).put (p + 8) 0) :
    HeapOk C s' { v with given := ch :: v.given, others := rest, loose := [p] } ∧
      (∀ z ∈ v.nodes, nodeBlk s'.mem z = nodeBlk s.mem z) ∧ v.DataKept s.mem s'.mem := by
  have hn := h.nodes
  have hpn : p ∉ v.nodes := fun hm => (hn.inUse p hp).mpr hm hfree
  have hout : v.out = v.used := by rw [HeapView.out, hl, append_nil]
  have hframe : NodeFrame s s' [p] := by
    rw [hs']
    exact (((NodeFrame.refl _ _).put (by simp) (.inl rfl)).put (by simp)
      (.inr (.inl rfl))).put (by simp) (.inr (.inr rfl))
  have hD : ∀ z ∈ [p], IsNode v.pages z := fun z hz => mem_singleton.mp hz ▸ hp
  have hkept : CellsKept s.mem s'.mem v.nodes :=
    hframe.kept (fun z hz => (hD z hz).nodeAt hn.page) (fun z hz => hn.nodeAt hz)
      fun z hz hm => hpn (mem_singleton.mp hm ▸ hz)
  have hka : CellsKept s.mem s'.mem v.avail := hkept.mono fun z hz => v.avail_sub hz
  have hku : CellsKept s.mem s'.mem v.used := hkept.mono fun z hz => v.out_sub (v.used_sub hz)
  have hblkp : nodeBlk s'.mem p = ch.blk := by
    rw [hs']
    simp only [nodeBlk, nodeAddr, nodeSize, put_mem, blk]
    simp (disch := omega) only [set_ne, set_same]
  obtain ⟨F, hsys⟩ := h.sys
  have hchm : ch ∈ v.pages ++ (v.given ++ v.others) := by simp [hoth]
  have hchpos : 0 < ch.blk.len := hsys.pool.outPos _ (mem_map_of_mem hchm)
  have hchap : ∀ x, ch.blk.Has x → x ∉ cover (v.given.map blk) := by
    have hap := hsys.pool.outApart
    rw [CoreSys.out, map_append, map_append] at hap
    obtain ⟨-, -, hcross⟩ := pairwise_append.mp (pairwise_append.mp hap).2.1
    intro x hx hg
    obtain ⟨b, hb, hbx⟩ := hg
    exact not_has_of_apart (hcross b hb ch.blk (mem_map_of_mem (by simp [hoth]))) hbx hx
  have hheld : v.held.Perm (v.pages ++ (ch :: v.given ++ rest)) := by
    rw [HeapView.held, hoth]
    exact (perm_middle.trans (List.Perm.refl _)).append_left _
  refine ⟨h.of_nodeFrame hframe hD hheld ?_, fun z hz => hkept.blk hz, h.data_of_frame hframe hD⟩
  have hav : s'.kmavailList = s.kmavailList := by rw [hs']; rfl
  have hus : s'.kmusedList = s.kmusedList := by rw [hs']; rfl
  rw [hframe.info, hav, hus]
  refine hn.change hD hframe.mem rfl (hka.linked hn.avail) (hku.linked hn.used) ?_ ?_ ?_ ?_
  · exact (v.nodes_snoc hl p).nodup_iff.mp (nodup_cons.mpr ⟨hpn, hn.nodup⟩)
  · intro z hz
    obtain rfl := mem_singleton.mp hz
    have hsz : nodeSize s'.mem z = ch.blk.len := congrArg Blk.len hblkp
    rw [hsz]
    exact ⟨fun _ => by simp [HeapView.nodes, HeapView.out], fun _ => Nat.ne_of_gt hchpos⟩
  · intro z hz
    exact (v.nodes_snoc hl p).mem_iff.symm.trans (by simp [mem_singleton.not.mp hz])
  · show HeapBlocks ((ch :: v.given).map blk) (v.avail.map (nodeBlk s'.mem))
      ((v.used ++ [p]).map (nodeBlk s'.mem))
    have hb := hn.blocks
    rw [hout] at hb
    rw [hka.map, map_append, hku.map, map_singleton, hblkp, map_cons]
    refine ⟨(hb.pool.extend hchpos cover_cons hchap).perm
      (perm_append_singleton _ _).symm, ?_⟩
    have hbytes := hb.bytes
    simp only [total_append, total_cons, total_nil]
    omega

omit h in
theorem HeapBlocks.carve {G U pre post : List Blk}
    (hb : HeapBlocks G (pre ++ b :: post) U) (hsize : 0 < size) (hle : size ≤ b.len) :
    HeapBlocks G (carve pre b size post) (U ++ [⟨b.addr, size⟩]) := by
  have hcan := hb.pool.canon
  refine ⟨(hb.pool.take hsize (carve_canon hcan) (cover_carve hle) (carve_apart hcan hle)).perm
    (perm_append_singleton _ _).symm, ?_⟩
  have hbytes := hb.bytes
  have htotal : total (pre ++ b :: post) = size + total (AtomOs.Lib.carve pre b size post) :=
    total_carve hle
  simp only [total_append, total_cons, total_nil] at hbytes htotal ⊢
  omega

/-- What the stores of a split leave: descriptor `q` has the first `size` bytes of the range of `p`,
    and `p` the others and its place in the list. -/
structure SplitAt (s s' : HeapState) (p q size : Nat) : Prop where
  front : nodeBlk s'.mem q = ⟨nodeAddr s.mem p, size⟩
  rest : nodeBlk s'.mem p = ⟨(nodeBlk s.mem p).addr + size, (nodeBlk s.mem p).len - size⟩
  next : nodeNext s'.mem p = nodeNext s.mem p
  frame : NodeFrame s s' [p, q]
  availList : s'.kmavailList = s.kmavailList
  usedList : s'.kmusedList = s.kmusedList

omit h in
theorem splitAt_of_stores (hpat : NodeAt p) (hqat : NodeAt q) (hqp : q ≠ p)
    (hlt : size < nodeSize s.mem p) (hpfin : nodeAddr s.mem p + nodeSize s.mem p ≤ 0xf0000000)
    (hs1 : s₁ = ((s.put q (nodeAddr s.mem p)).put (q + 4) size).put (q + 8) 0)
    (hs' : s' = (s₁.put (p + 4) (u32 ((nodeSize s₁.mem p : Int) - size))).put p
      (u32 ((nodeAddr (s₁.put (p + 4) (u32 ((nodeSize s₁.mem p : Int) - size))).mem p : Int)
        + size))) :
    SplitAt s s' p q size := by
  have hp1 : nodeAddr s₁.mem p = nodeAddr s.mem p ∧ nodeSize s₁.mem p = nodeSize s.mem p := by
    unfold NodeAt at hpat hqat
    rw [hs1]
    simp only [nodeAddr, nodeSize, put_mem]
    simp (disch := omega) only [set_ne, and_self]
  have hu1 : u32 ((nodeSize s.mem p : Int) - size) = nodeSize s.mem p - size :=
    u32_sub (by omega) (by omega)
  have hu2 : u32 ((nodeAddr s.mem p : Int) + size) = nodeAddr s.mem p + size :=
    u32_of_lt (x := nodeAddr s.mem p + size) (by omega)
  have hp2 : nodeAddr (s₁.put (p + 4) (u32 ((nodeSize s₁.mem p : Int) - size))).mem p =
      nodeAddr s.mem p := by
    rw [← hp1.1]
    exact set_ne (by omega)
  rw [hp2, hp1.2, hu1, hu2] at hs'
  have hblkp : nodeBlk s'.mem p =
      ⟨(nodeBlk s.mem p).addr + size, (nodeBlk s.mem p).len - size⟩ := by
    rw [hs']
    simp only [nodeBlk, nodeAddr, nodeSize, put_mem]
    simp (disch := omega) only [set_ne, set_same]
  have hnextp : nodeNext s'.mem p = nodeNext s.mem p := by
    unfold NodeAt at hpat hqat
    rw [hs', hs1]
    simp only [nodeNext, put_mem]
    simp (disch := omega) only [set_ne]
  have hblkq : nodeBlk s'.mem q = ⟨nodeAddr s.mem p, size⟩ := by
    unfold NodeAt at hpat hqat
    rw [hs', hs1]
    simp only [nodeBlk, nodeAddr, nodeSize, put_mem]
    simp (disch := omega) only [set_ne, set_same]
  refine ⟨hblkq, hblkp, hnextp, ?_, by rw [hs', hs1]; rfl, by rw [hs', hs1]; rfl⟩
  rw [hs', hs1]
  exact (((((NodeFrame.refl _ _).put (z := q) (by simp) (.inl rfl)).put (z := q) (by simp)
    (.inr (.inl rfl))).put (z := q) (by simp) (.inr (.inr rfl))).put (z := p) (by simp)
    (.inr (.inl rfl))).put (z := p) (by simp) (.inl rfl)

/-- **The front of an available range**, under a free descriptor. -/
theorem HeapOk.split (hl : v.loose = [])
    (hav : v.avail = l₁ ++ p :: l₂) (hsize : 0 < size) (hlt : size < nodeSize s.mem p)
    (hq : IsNode v.pages q) (hfree : nodeSize s.mem q = 0)
    (hs1 : s₁ = ((s.put q (nodeAddr s.mem p)).put (q + 4) size).put (q + 8) 0)
    (hs' : s' = (s₁.put (p + 4) (u32 ((nodeSize s₁.mem p : Int) - size))).put p
      (u32 ((nodeAddr (s₁.put (p + 4) (u32 ((nodeSize s₁.mem p : Int) - size))).mem p : Int)
        + size))) :
    HeapOk C s' { v with loose := [q] } ∧ nodeBlk s'.mem q = ⟨nodeAddr s.mem p, size⟩ ∧
      v.avail.map (nodeBlk s'.mem) = carve (l₁.map (nodeBlk s.mem)) (nodeBlk s.mem p) size
        (l₂.map (nodeBlk s.mem)) ∧
      v.used.map (nodeBlk s'.mem) = v.used.map (nodeBlk s.mem) ∧ v.DataKept s.mem s'.mem := by
  have hn := h.nodes
  have hqn : q ∉ v.nodes := fun hm => (hn.inUse q hq).mpr hm hfree
  have hpn : p ∈ v.nodes := v.avail_sub (by simp [hav])
  have hqp : q ≠ p := fun he => hqn (he ▸ hpn)
  have hout : v.out = v.used := by rw [HeapView.out, hl, append_nil]
  obtain ⟨hppos, -, hpfin, -⟩ := h.range hpn
  have hpat := hn.nodeAt hpn
  have hqat := hq.nodeAt hn.page
  obtain ⟨hblkq, hblkp, hnextp, hframe, hsav, hsus⟩ :=
    splitAt_of_stores hpat hqat hqp hlt hpfin hs1 hs'
  have hD : ∀ z ∈ [p, q], IsNode v.pages z := by
    intro z hz
    rcases mem_pair.mp hz with rfl | rfl
    · exact hn.node z hpn
    · exact hq
  have hkept : ∀ {l : List Nat}, (∀ z ∈ l, z ∈ v.nodes) → p ∉ l →
      CellsKept s.mem s'.mem l := by
    intro l hl hpl
    refine hframe.kept (fun z hz => (hD z hz).nodeAt hn.page) (fun z hz => hn.nodeAt (hl z hz))
      fun z hz hm => ?_
    rcases mem_pair.mp hm with rfl | rfl
    · exact hpl hz
    · exact hqn (hl z hz)
  have hnd := hn.nodup
  rw [HeapView.nodes, hout] at hnd
  obtain ⟨hnda, -, hdisj⟩ := nodup_append.mp hnd
  rw [hav] at hnda
  have hpa := (nodup_middle.mp hnda).notMem
  have hk12 : CellsKept s.mem s'.mem (l₁ ++ l₂) := by
    refine hkept (fun z hz => v.avail_sub ?_) hpa
    rw [hav]
    simp only [mem_append, mem_cons] at hz ⊢
    tauto
  have hku : CellsKept s.mem s'.mem v.used :=
    hkept (fun z hz => v.out_sub (v.used_sub hz)) fun hm => hdisj p (by simp [hav]) p hm rfl
  have hk1 : CellsKept s.mem s'.mem l₁ := hk12.mono fun z hz => mem_append_left _ hz
  have hk2 : CellsKept s.mem s'.mem l₂ := hk12.mono fun z hz => mem_append_right _ hz
  have hcarve : v.avail.map (nodeBlk s'.mem) = AtomOs.Lib.carve (l₁.map (nodeBlk s.mem))
      (nodeBlk s.mem p) size (l₂.map (nodeBlk s.mem)) := by
    rw [AtomOs.Lib.carve, if_pos (by exact hlt), hav, map_append, map_cons, hk1.map,
      hk2.map, hblkp]
  refine ⟨h.of_nodeFrame hframe hD (List.Perm.refl _) ?_, hblkq, hcarve, hku.map,
    h.data_of_frame hframe hD⟩
  rw [hframe.info, hsav, hsus]
  refine hn.change hD hframe.mem rfl ?_ (hku.linked hn.used) ?_ ?_ ?_ ?_
  · have hlink := hn.avail
    rw [hav] at hlink
    show Linked _ _ _ v.avail
    rw [hav]
    refine hlink.splice (fun z hz => hk1.next hz) ?_
    rw [hnextp]
    exact hk2.linked (Linked.drop hlink).2.2
  · exact (v.nodes_snoc hl q).nodup_iff.mp (nodup_cons.mpr ⟨hqn, hn.nodup⟩)
  · intro z hz
    rcases mem_pair.mp hz with rfl | rfl
    · have hsz : nodeSize s'.mem z = (nodeBlk s.mem z).len - size := congrArg Blk.len hblkp
      have hlt' : size < (nodeBlk s.mem z).len := hlt
      exact ⟨fun _ => by simp [HeapView.nodes, hav], fun _ => by omega⟩
    · have hsz : nodeSize s'.mem z = size := congrArg Blk.len hblkq
      exact ⟨fun _ => by simp [HeapView.nodes, HeapView.out], fun _ => by omega⟩
  · intro z hz
    have hzq : z ≠ q := fun he => hz (by simp [he])
    exact (v.nodes_snoc hl q).mem_iff.symm.trans (by simp [hzq])
  · show HeapBlocks _ (v.avail.map (nodeBlk s'.mem)) ((v.used ++ [q]).map (nodeBlk s'.mem))
    have hb := hn.blocks
    rw [hout, hav, map_append, map_cons] at hb
    rw [hcarve, map_append, hku.map, map_singleton, hblkq]
    exact hb.carve hsize (Nat.le_of_lt hlt)

/-- **An available range as a whole**, with its descriptor. -/
theorem HeapOk.takeAll (hl : v.loose = []) (hav : v.avail = l₁ ++ p :: l₂) :
    ∃ s₁, deleteAvailNode s p = some s₁ ∧
      HeapOk C (s₁.put (p + 4) (nodeSize s.mem p))
        { v with avail := l₁ ++ l₂, loose := [p] } ∧
      (∀ z ∈ v.nodes, nodeBlk (s₁.put (p + 4) (nodeSize s.mem p)).mem z = nodeBlk s.mem z) ∧
      v.DataKept s.mem (s₁.put (p + 4) (nodeSize s.mem p)).mem := by
  have hn := h.nodes
  have hpn : p ∈ v.nodes := v.avail_sub (by simp [hav])
  have hout : v.out = v.used := by rw [HeapView.out, hl, append_nil]
  have hlink := hn.avail
  have hlen := hn.avail_length
  rw [hav] at hlink hlen
  have hain : ∀ z ∈ l₁ ++ p :: l₂, z ∈ v.nodes := fun z hz => v.avail_sub (hav ▸ hz)
  obtain ⟨s₁, hrun, hlink1, hblks1, haddr1, hframe1, hus1⟩ :=
    deleteAvailNode_spec hlink (fun z hz => hn.nodeAt (hain z hz)) hlen
  refine ⟨s₁, hrun, ?_⟩
  obtain ⟨s', hs'⟩ : ∃ s', s₁.put (p + 4) (nodeSize s.mem p) = s' := ⟨_, rfl⟩
  rw [hs']
  have hframe : NodeFrame s s' (l₁ ++ p :: l₂) :=
    hs' ▸ hframe1.put (by simp) (.inr (.inl rfl))
  have hD : ∀ z ∈ l₁ ++ p :: l₂, IsNode v.pages z := fun z hz => hn.node z (hain z hz)
  have hnd := hn.nodup
  rw [HeapView.nodes, hout, hav] at hnd
  obtain ⟨hnda, hndu, hdisj⟩ := nodup_append.mp hnd
  have hpa := (nodup_middle.mp hnda).notMem
  have hsub : ∀ z ∈ l₁ ++ l₂, z ∈ l₁ ++ p :: l₂ := by
    intro z hz
    simp only [mem_append, mem_cons] at hz ⊢
    tauto
  have hput : CellsKept s₁.mem s'.mem (l₁ ++ l₂) :=
    hs' ▸ (CellsKept.refl _ _).set (fun z hz => hn.nodeAt (hain z (hsub z hz))) (hn.nodeAt hpn) hpa
      (.inr (.inl rfl))
  have hku : CellsKept s.mem s'.mem v.used := by
    refine hframe.kept (fun z hz => hn.nodeAt (hain z hz))
      (fun z hz => hn.nodeAt (v.out_sub (v.used_sub hz))) fun z hz hm => ?_
    exact hdisj z hm z hz rfl
  have hblkp : nodeBlk s'.mem p = nodeBlk s.mem p := by
    simp only [nodeBlk, nodeAddr, nodeSize, put_mem, ← hs'] at haddr1 ⊢
    rw [set_same, set_ne (by omega), haddr1]
  have hblk12 : ∀ z ∈ l₁ ++ l₂,
      nodeBlk s'.mem z = nodeBlk s.mem z := fun z hz =>
    (hput.blk hz).trans (hblks1 z hz)
  have hblks : ∀ z ∈ v.nodes, nodeBlk s'.mem z = nodeBlk s.mem z := by
    intro z hz
    rw [HeapView.nodes, hout, hav, mem_append, mem_append, mem_cons] at hz
    rcases hz with (hz | rfl | hz) | hz
    · exact hblk12 z (mem_append_left _ hz)
    · exact hblkp
    · exact hblk12 z (mem_append_right _ hz)
    · exact hku.blk hz
  refine ⟨h.of_nodeFrame hframe hD (List.Perm.refl _) ?_, hblks, h.data_of_frame hframe hD⟩
  · rw [hframe.info, show s'.kmusedList = s.kmusedList from hs' ▸ hus1,
      show s'.kmavailList = s₁.kmavailList from hs' ▸ rfl]
    have hperm : v.nodes.Perm (l₁ ++ l₂ ++ (v.used ++ [p])) := by
      rw [HeapView.nodes, hout, hav, ← append_assoc]
      refine (perm_middle.append_right _).trans ?_
      exact (perm_append_singleton p _).symm
    refine hn.rearrange hain hframe.mem hblks rfl hperm (hput.linked hlink1) (hku.linked hn.used) ?_
    have hb := hn.blocks
    rw [hout, hav, map_append, map_cons] at hb
    have hcarve := hb.carve (h.range hpn).1 (Nat.le_refl _)
    rw [AtomOs.Lib.carve, if_neg (Nat.lt_irrefl _)] at hcarve
    show HeapBlocks _ ((l₁ ++ l₂).map _) ((v.used ++ [p]).map _)
    rw [map_append, map_append]
    exact hcarve

end moves

/-! ## The search -/

/-- What the search knows after the descriptors `seen`. -/
def BestOk (m : Mem) (size : Nat) (seen : List Nat) (acc : Best) : Prop :=
  (acc.avl = true ∧ acc.p3 ∈ seen ∧ size ≤ nodeSize m acc.p3) ∨
    (acc = ⟨false, 0, 0xefffffff⟩ ∧ ∀ p ∈ seen, nodeSize m p < size)

/-- The first range that is large enough is taken whatever it leaves over, since that is less
    than `0xefffffff` bytes. -/
theorem BestOk.step {seen : List Nat} {acc : Best} (h : BestOk m size seen acc) (hsize : 0 < size)
    (hp : nodeSize m p ≤ 0xefffffff) : BestOk m size (seen ++ [p]) (bestStep m size acc p) := by
  unfold bestStep
  by_cases hle : size ≤ nodeSize m p
  · rw [if_pos hle]
    have htake : BestOk m size (seen ++ [p]) ⟨true, p, u32 ((nodeSize m p : Int) - size)⟩ :=
      .inl ⟨rfl, by simp, hle⟩
    rcases h with ⟨havl, hmem, hfit⟩ | ⟨rfl, -⟩
    · split
      · exact htake
      · exact .inl ⟨rfl, by simp [hmem], hfit⟩
    have hu : u32 ((nodeSize m p : Int) - size) < 0xefffffff := by
      rw [u32_sub hle (by omega)]
      omega
    rw [if_pos hu]
    exact htake
  · rw [if_neg hle]
    rcases h with ⟨havl, hmem, hfit⟩ | ⟨hacc, hall⟩
    · exact .inl ⟨havl, by simp [hmem], hfit⟩
    · exact .inr ⟨hacc, forall_mem_append.mpr ⟨hall, forall_mem_singleton.mpr (by omega)⟩⟩

theorem BestOk.run (hsize : 0 < size) :
    ∀ {rest seen : List Nat} {acc : Best}, (∀ p ∈ rest, nodeSize m p ≤ 0xefffffff) →
      BestOk m size seen acc → BestOk m size (seen ++ rest) (rest.foldl (bestStep m size) acc)
  | [], seen, acc, _, h => by simpa using h
  | p :: rest, seen, acc, hlow, h => by
    have hrun := BestOk.run hsize (forall_mem_cons.mp hlow).2
      (h.step hsize (hlow p mem_cons_self))
    rwa [append_assoc, singleton_append] at hrun

/-! ## `kmalloc` -/

theorem HeapOk.setCount (h : HeapOk C s v) (n : Int) :
    HeapOk C { s with kmcount := n } v := ⟨h.sys, h.low, h.nodes⟩

/-- What a call of `kmalloc(size)` leaves: the range `[ptr, ptr + size)` is one more that is in
    use, or `NULL` was returned. The heap has more pages than before only if nothing was large
    enough, and then as many as `size` needs. -/
structure Kmalloced (C : Set Nat) (s : HeapState) (v : HeapView) (size ptr : Nat)
    (s' : HeapState) (v' : HeapView) : Prop where
  ok : HeapOk C s' v'
  loose : v'.loose = []
  pages : ∀ c ∈ v.pages, c ∈ v'.pages
  others : v'.others = v.others
  given : v'.given = v.given ∨ (∀ b ∈ v.avail.map (nodeBlk s.mem), b.len < size) ∧
    ∃ ch : CoreHeader, ch.noBlocks = (size + 4095) / 4096 ∧ v'.given = ch :: v.given
  used : ptr = 0 ∧ v'.used.map (nodeBlk s'.mem) = v.used.map (nodeBlk s.mem) ∨
    ptr ≠ 0 ∧ v'.used.map (nodeBlk s'.mem) = ⟨ptr, size⟩ :: v.used.map (nodeBlk s.mem)
  data : ∀ a ∈ cover ((v.given ++ v.others).map CoreHeader.blk), s'.mem a = s.mem a

theorem CellsKept.used_map {m' : Mem} (h : CellsKept m m' v.nodes) :
    v.used.map (nodeBlk m') = v.used.map (nodeBlk m) :=
  (h.mono fun _ hz => v.out_sub (v.used_sub hz)).map

theorem HeapOk.back (h : HeapOk C s v) (hoth : v.others = ch :: rest) :
    ∃ core, coreFree s.core ch = some core ∧
      HeapOk C { s with core := core } { v with others := rest } ∧
      v.used.map (nodeBlk core.mem) = v.used.map (nodeBlk s.mem) ∧
      ∀ a ∈ cover ((v.given ++ rest).map blk), core.mem a = s.mem a := by
  obtain ⟨core, hrun, hok, hkeep⟩ := h.giveBack hoth
  rw [map_append, cover_append] at hkeep
  have hkept : CellsKept s.mem core.mem v.nodes := fun z hz a ha =>
    hkeep a (.inl ((h.nodes.node z hz).mem_cover h.nodes.page ha))
  exact ⟨core, hrun, hok, hkept.used_map, fun a ha => hkeep a (.inr ha)⟩

/-- The end of `kmalloc`, once the range is under a loose descriptor. -/
theorem giveOut_spec (h : HeapOk C s v) (hl : v.loose = [q]) :
    ∃ s', giveOut s q = ((nodeBlk s.mem q).addr, s') ∧
      HeapOk C s' { v with used := q :: v.used, loose := [] } ∧
      (q :: v.used).map (nodeBlk s'.mem) = nodeBlk s.mem q :: v.used.map (nodeBlk s.mem) ∧
      v.DataKept s.mem s'.mem := by
  obtain ⟨hptr, hok, hblks, hdata⟩ := h.giveOut hl
  refine ⟨(giveOut s q).2, Prod.ext hptr rfl, hok, ?_, hdata⟩
  refine map_congr_left fun z hz => hblks z (v.out_sub ?_)
  rw [HeapView.out, hl]
  simp only [mem_cons, mem_append, not_mem_nil, or_false] at hz ⊢
  tauto

theorem takeFrom_spec (h : HeapOk C s v) (hl : v.loose = []) (hp : p ∈ v.avail) (hsize : 0 < size)
    (hle : size ≤ nodeSize s.mem p) :
    ∃ ptr s' v', takeFrom s p size = some (ptr, s') ∧ Kmalloced C s v size ptr s' v' ∧
      v'.given = v.given := by
  have hp0 : p ≠ 0 := (h.nodes.node p (v.avail_sub hp)).ne_zero h.nodes.page
  obtain ⟨-, haddr0, -, -⟩ := h.range (v.avail_sub hp)
  unfold takeFrom
  by_cases hlt : size < nodeSize s.mem p
  · rw [if_pos ⟨hp0, hlt⟩]
    obtain ⟨q, s₁, v1, hrun, hc⟩ := createMemListNode_spec h
    rw [hrun]
    dsimp only
    have hused := hc.kept.used_map
    have hdata1 := hc.data
    by_cases hq0 : q = 0
    · rw [if_pos hq0]
      refine ⟨0, _, v1, rfl, ⟨hc.ok.setCount _, hc.loose.trans hl, hc.pages, hc.others, .inl hc.given,
        .inl ⟨rfl, ?_⟩, hdata1⟩, hc.given⟩
      rw [hc.used]
      exact hused
    · rw [if_neg hq0]
      obtain ⟨hqn, hqs⟩ := hc.free hq0
      have hpb : nodeBlk s₁.mem p = nodeBlk s.mem p := hc.kept.blk (v.avail_sub hp)
      have hpa : nodeAddr s₁.mem p = nodeAddr s.mem p := congrArg Blk.addr hpb
      obtain ⟨l₁, l₂, hsplit⟩ := append_of_mem (hc.avail ▸ hp : p ∈ v1.avail)
      have hlt1 : size < nodeSize s₁.mem p := by
        rw [show nodeSize s₁.mem p = nodeSize s.mem p from congrArg Blk.len hpb]
        exact hlt
      obtain ⟨hok, hblkq, -, hused2, hdata2⟩ := (hc.ok.setCount (s₁.kmcount + 1)).split
        (hc.loose.trans hl) hsplit hsize hlt1 hqn hqs rfl rfl
      obtain ⟨s', hgive, hok', hmap, hdata'⟩ := giveOut_spec hok rfl
      refine ⟨_, s', _, congrArg some hgive, ⟨hok', rfl, hc.pages, hc.others, .inl hc.given,
        .inr ⟨?_, ?_⟩, fun a ha => ?_⟩, hc.given⟩
      · rw [hblkq]
        show nodeAddr s₁.mem p ≠ 0
        rw [hpa]
        exact haddr0
      · show (q :: v1.used).map (nodeBlk s'.mem) = _
        rw [hmap, hused2, hc.used, hblkq]
        exact congrArg _ hused
      · have ha1 : a ∈ cover ((v1.given ++ v1.others).map blk) := by
          rw [hc.given, hc.others]
          exact ha
        exact ((hdata' a ha1).trans (hdata2 a ha1)).trans (hdata1 a ha)
  · rw [if_neg fun hc => hlt hc.2]
    obtain rfl : size = nodeSize s.mem p := by omega
    obtain ⟨l₁, l₂, hsplit⟩ := append_of_mem hp
    obtain ⟨s₁, hrun, hok, hblks, hdata⟩ := h.takeAll hl hsplit
    rw [hrun]
    obtain ⟨s', hgive, hok', hmap, hdata'⟩ := giveOut_spec hok rfl
    have hpb := hblks p (v.avail_sub hp)
    refine ⟨_, s', _, congrArg some hgive, ⟨hok', rfl, fun _ hc => hc, rfl, .inl rfl, .inr ⟨?_, ?_⟩,
      fun a ha => (hdata' a ha).trans (hdata a ha)⟩, rfl⟩
    · rw [hpb]
      exact haddr0
    · show (p :: v.used).map (nodeBlk s'.mem) = _
      rw [hmap, hpb]
      refine congrArg _ (map_congr_left fun z hz => hblks z ?_)
      exact v.out_sub (v.used_sub hz)

section kmalloc

variable {C : Set Nat} {s : HeapState} {v : HeapView} (h : HeapOk C s v) (hl : v.loose = [])
  {size : Nat} (hsize : 0 < size)
include h hl hsize

omit hl in
theorem search_spec : ∃ acc, walk (nodeNext s.mem) 0 (bestStep s.mem size) nodeFuel
      ⟨false, 0, 0xefffffff⟩ s.kmavailList = some acc ∧ BestOk s.mem size v.avail acc := by
  refine ⟨_, walk_of_linked h.nodes.avail h.nodes.avail_length, ?_⟩
  have hstart : BestOk s.mem size [] ⟨false, 0, 0xefffffff⟩ := .inr ⟨rfl, by simp⟩
  have hlow : ∀ p ∈ v.avail, nodeSize s.mem p ≤ 0xefffffff := by
    intro p hp
    obtain ⟨-, h0, hfin, -⟩ := h.range (v.avail_sub hp)
    have hfin' : nodeAddr s.mem p + nodeSize s.mem p ≤ 0xf0000000 := hfin
    have h0' : nodeAddr s.mem p ≠ 0 := h0
    omega
  have hrun := hstart.run hsize hlow
  rwa [nil_append] at hrun

theorem kmallocFrom_fit (hp : p ∈ v.avail) (hle : size ≤ nodeSize s.mem p) (fuel : Nat) :
    ∃ ptr s' v', kmallocFrom size (fuel + 1) s ⟨false, 0, 0xefffffff⟩ = some (ptr, s') ∧
      Kmalloced C s v size ptr s' v' ∧ v'.given = v.given := by
  obtain ⟨acc, hwalk, hbest⟩ := search_spec h hsize
  rw [kmallocFrom, hwalk]
  dsimp only
  rcases hbest with ⟨havl, hmem, hfit⟩ | ⟨-, hall⟩
  · rw [if_pos havl]
    exact takeFrom_spec h hl hmem hsize hfit
  · exact absurd (hall p hp) (Nat.not_lt.mpr hle)

/-- **`kmalloc` from the label on.** -/
theorem kmallocFrom_spec (hmax : size ≤ mallocMax) (fuel : Nat) :
    ∃ ptr s' v', kmallocFrom size (fuel + 1 + 1) s ⟨false, 0, 0xefffffff⟩ = some (ptr, s') ∧
      Kmalloced C s v size ptr s' v' := by
  obtain ⟨acc, hwalk, hbest⟩ := search_spec h hsize
  rcases hbest with ⟨havl, hmem, hfit⟩ | ⟨rfl, hall⟩
  · obtain ⟨ptr, s', v', hrun, hk, -⟩ := kmallocFrom_fit h hl hsize hmem hfit (fuel + 1)
    exact ⟨ptr, s', v', hrun, hk⟩
  rw [kmallocFrom, hwalk]
  dsimp only
  unfold mallocMax at hmax
  obtain ⟨ch, core, hrun, hle, hnone, hsome, hkeep⟩ :=
    h.alloc (n := (size + 4095) / 4096) (by omega)
  rw [hrun]
  dsimp only
  -- Whatever the page allocator does, what the heap holds stays as it is.
  have hkept : CellsKept s.mem core.mem v.nodes := fun z hz a ha =>
    hkeep a (v.pages_sub_held ((h.nodes.node z hz).mem_cover h.nodes.page ha))
  have hgiven : v.DataKept s.mem core.mem := fun a ha => hkeep a (v.clients_sub_held ha)
  have hused := hkept.used_map
  by_cases hshort : ch.noBlocks * 4096 < size
  · -- Too few pages: they go back.
    rw [if_pos hshort]
    by_cases h0 : 0 < ch.noBlocks
    · rw [if_pos h0]
      obtain ⟨core2, hfree, hok, hback, hkeep2⟩ := (hsome (by omega)).back rfl
      rw [hfree]
      exact ⟨0, _, v, rfl, hok, hl, fun _ hc => hc, rfl, .inl rfl,
        .inl ⟨rfl, Eq.trans hback hused⟩, fun a ha => (hkeep2 a ha).trans (hgiven a ha)⟩
    · rw [if_neg h0]
      exact ⟨0, _, v, rfl, hnone (by omega), hl, fun _ hc => hc, rfl, .inl rfl,
        .inl ⟨rfl, hused⟩, hgiven⟩
  · rw [if_neg hshort]
    have hpages : ch.noBlocks = (size + 4095) / 4096 := by omega
    obtain ⟨q, s2, v2, hcr, hc⟩ := createMemListNode_spec (hsome (by omega))
    rw [hcr]
    dsimp only
    have hused2 : v2.used.map (nodeBlk s2.mem) = v.used.map (nodeBlk s.mem) := by
      rw [hc.used, ← hused]
      exact hc.kept.used_map
    have hgiven2 : v.DataKept s.mem s2.mem := by
      intro a ha
      refine (hc.data a ?_).trans (hgiven a ha)
      rw [map_append, cover_append] at ha ⊢
      refine ha.imp id fun ha => ?_
      rw [map_cons, cover_cons]
      exact .inr ha
    have hok2 := hc.ok.setCount (s2.kmcount + 1)
    by_cases hq0 : q = 0
    · -- No descriptor: the pages go back.
      rw [if_pos hq0]
      obtain ⟨core3, hfree, hok3, hback, hkeep3⟩ := hok2.back hc.others
      rw [hc.given] at hkeep3
      rw [hfree]
      exact ⟨0, _, _, rfl, hok3, hc.loose.trans hl, hc.pages, rfl, .inl hc.given,
        .inl ⟨rfl, Eq.trans hback hused2⟩, fun a ha => (hkeep3 a ha).trans (hgiven2 a ha)⟩
    · rw [if_neg hq0]
      obtain ⟨hqn, hqs⟩ := hc.free hq0
      obtain ⟨hgrow, hblk3, hdata3⟩ := hok2.grow hc.others (hc.loose.trans hl) hqn hqs rfl
      obtain ⟨s4, ats, hins, hok4, ⟨z, hz, hfit⟩, hused4, hdata4⟩ := hgrow.insert rfl
      rw [hins]
      have hnew : ch.noBlocks * 4096 ≤ nodeSize s4.mem z := by
        refine Nat.le_trans (Nat.le_of_eq ?_) hfit
        simp only [nodeSize, put_mem]
        rw [set_ne (by omega), set_same]
      obtain ⟨ptr, s5, v5, hlast, hk, hg5⟩ := kmallocFrom_fit hok4 rfl hsize hz
        (Nat.le_trans (Nat.not_lt.mp hshort) hnew) fuel
      have hgv : v2.given = v.given := hc.given
      have hchain : v2.used.map (nodeBlk s4.mem) = v.used.map (nodeBlk s.mem) := by
        rw [← hused2]
        refine Eq.trans hused4 (map_congr_left fun z hz => hblk3 z ?_)
        exact v2.out_sub (v2.used_sub hz)
      refine ⟨ptr, s5, v5, hlast, hk.ok, hk.loose, fun c hcm => hk.pages c (hc.pages c hcm),
        hk.others, .inr ⟨?_, ch, hpages, ?_⟩, ?_, fun a ha => ?_⟩
      · exact forall_mem_map.mpr hall
      · rw [hg5]
        exact congrArg (ch :: ·) hgv
      · rw [← hchain]
        exact hk.used
      · have hperm : (v2.given ++ v2.others).Perm (ch :: v2.given ++ v.others) := by
          rw [hc.others]
          exact perm_middle
        have ha3 : a ∈ cover ((ch :: v2.given ++ v.others).map blk) := by
          rw [cons_append, map_cons, cover_cons, hgv]
          exact .inr ha
        have ha2 := ha3
        rw [← cover_perm (hperm.map blk)] at ha2
        exact (((hk.data a ha3).trans (hdata4 a ha3)).trans (hdata3 a ha2)).trans (hgiven2 a ha)

end kmalloc

/-- **`kmalloc` returns**, and hands out a range of the size asked for, or `NULL`. -/
theorem kmalloc_spec (h : HeapOk C s v) (hl : v.loose = []) (hsize : 0 < size) :
    ∃ ptr s' v', kmalloc s size = some (ptr, s') ∧ Kmalloced C s v size ptr s' v' := by
  unfold kmalloc
  rw [if_neg (by omega)]
  by_cases hmax : mallocMax < size
  · rw [if_pos hmax]
    exact ⟨0, s, v, rfl, h, hl, fun _ hc => hc, rfl, .inl rfl, .inl ⟨rfl, rfl⟩, fun _ _ => rfl⟩
  · rw [if_neg hmax]
    exact kmallocFrom_spec h hl hsize (Nat.not_lt.mp hmax) 1048574

/-! ## `kfree` -/

/-- **`kfree` of a range in use returns**, and the range is available again. -/
theorem kfree_spec (h : HeapOk C s v) (hl : v.loose = []) (hb : b ∈ v.used.map (nodeBlk s.mem)) :
    ∃ s' v' pre post, kfree s b.addr = some s' ∧ HeapOk C s' v' ∧ v'.loose = [] ∧
      v'.others = v.others ∧ v'.given = v.given ∧
      v.used.map (nodeBlk s.mem) = pre ++ b :: post ∧
      v'.used.map (nodeBlk s'.mem) = pre ++ post ∧ v.DataKept s.mem s'.mem := by
  have hn := h.nodes
  obtain ⟨p, hp, rfl⟩ := mem_map.mp hb
  have hpn := v.out_sub (v.used_sub hp)
  obtain ⟨hpos, haddr0, -, -⟩ := h.range hpn
  obtain ⟨l₁, l₂, hsplit, h1, h2, hseek⟩ := seek_of_linked
    (fun q => nodeAddr s.mem q == (nodeBlk s.mem p).addr) 0 hn.used hn.used_length
  -- Ranges in use are apart, so the first descriptor with this start is `p`.
  have hpl : p ∈ l₂ := by
    have hmem : p ∈ l₁ ++ l₂ := hsplit ▸ hp
    refine (mem_append.mp hmem).resolve_left fun hp1 => ?_
    have hno := h1 p hp1
    simp [nodeBlk] at hno
  obtain ⟨l₂, rfl⟩ : ∃ l, l₂ = p :: l := by
    cases l₂ with
    | nil => cases hpl
    | cons q l₂ =>
      rcases mem_cons.mp hpl with rfl | hpl
      · exact ⟨l₂, rfl⟩
      have hq : nodeAddr s.mem q = (nodeBlk s.mem p).addr := by simpa using h2 q rfl
      have hap := hn.blocks.pool.outApart
      rw [HeapView.out, hl, hsplit, append_nil, map_append, map_cons] at hap
      have hqp := (pairwise_cons.mp (pairwise_append.mp hap).2.1).1 _
        (mem_map_of_mem hpl)
      have hqpos := (h.range (v.out_sub (v.used_sub (p := q) (by simp [hsplit])))).1
      have hqa : (nodeBlk s.mem q).addr = (nodeBlk s.mem p).addr := hq
      unfold Blk.Apart Blk.fin at hqp
      omega
  have hp0 : p ≠ 0 := (hn.node p hpn).ne_zero hn.page
  obtain ⟨hok, hblks, hdata⟩ := h.unuse hsplit hl rfl rfl
  obtain ⟨s', ats, hins, hok', -, hused', hdata'⟩ := hok.insert rfl
  refine ⟨s', _, l₁.map (nodeBlk s.mem), l₂.map (nodeBlk s.mem), ?_, hok', rfl, rfl, rfl, ?_, ?_,
    fun a ha => (hdata' a ha).trans (hdata a ha)⟩
  · unfold kfree
    rw [if_neg haddr0, hseek]
    dsimp only
    rw [headD_cons, if_neg hp0]
    exact hins
  · rw [hsplit, map_append, map_cons]
  · refine Eq.trans hused' ?_
    rw [← map_append]
    refine map_congr_left fun z hz => hblks z (v.out_sub (v.used_sub ?_))
    rw [hsplit]
    simp only [mem_append, mem_cons] at hz ⊢
    tauto

end AtomOs
