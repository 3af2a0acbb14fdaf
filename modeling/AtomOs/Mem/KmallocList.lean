import AtomOs.Mem.Kmalloc

/-!
# The available list of the kernel heap

What `insert_avail_node` and `delete_avail_node` do to the list of available ranges. As for the
page allocator the result is `coalesce`, but here the blocks are described by cells outside
them, so there is more to keep track of: which descriptors the new list uses, and that the
others have size 0.

A descriptor that is inserted joins the range behind it, the one in front of it, both or neither, and
there is a lemma for each (`Insertable.join_next`, `Insertable.join_prev`, `Insertable.join_both`). What
they share is said once: `CellsKept` and `NodeFrame` for the words that stay, `Insertable.At` for the place
where the list is opened. **`insertAvailNode_spec`** and **`deleteAvailNode_spec`** are what the functions
above use.
-/

namespace AtomOs

open Lib List Mem

variable {D l l₁ l₂ : List Nat} {a p q v z : Nat} {m m' : Mem} {s s' : HeapState}

def nodeBlk (m : Mem) (p : Nat) : Blk := ⟨nodeAddr m p, nodeSize m p⟩

/-- Where descriptors are: every 12 bytes from the start of a page, not in its last word. -/
def NodeAt (p : Nat) : Prop := p % 4096 % 12 = 0 ∧ p % 4096 < 4092

/-- `a` is one of the three words of descriptor `p`. -/
def InNode (p a : Nat) : Prop := a = p ∨ a = p + 4 ∨ a = p + 8

theorem InNode.ne {b : Nat} (hp : NodeAt p) (hq : NodeAt q) (hne : p ≠ q)
    (ha : InNode p a) (hb : InNode q b) : a ≠ b := by
  unfold NodeAt InNode at *
  omega

theorem nodeBlk_set_next (hz : NodeAt z) (hp : NodeAt p) : nodeBlk (m.set (p + 8) v) z = nodeBlk m z := by
  unfold NodeAt at hz hp
  simp only [nodeBlk, nodeAddr, nodeSize]
  simp (disch := omega) only [set_ne]

/-- The descriptors of `l` read the same in both memories. -/
def CellsKept (m m' : Mem) (l : List Nat) : Prop := ∀ z ∈ l, ∀ a, InNode z a → m' a = m a

theorem CellsKept.refl (m : Mem) (l : List Nat) : CellsKept m m l := fun _ _ _ _ => rfl

section

variable (h : CellsKept m m' l)
include h

theorem CellsKept.mono {l' : List Nat}
    (hsub : ∀ z ∈ l', z ∈ l) : CellsKept m m' l' := fun z hz => h z (hsub z hz)

theorem CellsKept.trans {m'' : Mem} (h' : CellsKept m' m'' l) : CellsKept m m'' l :=
  fun z hz a ha => (h' z hz a ha).trans (h z hz a ha)

theorem CellsKept.set {w : Nat}
    (hat : ∀ z ∈ l, NodeAt z) (hw : NodeAt w) (hwl : w ∉ l) (ha : InNode w a) :
    CellsKept m (m'.set a v) l := by
  intro z hz b hb
  have hne : z ≠ w := fun he => hwl (he ▸ hz)
  rw [set_ne (hb.ne (hat z hz) hw hne ha)]
  exact h z hz b hb

theorem CellsKept.blk (hz : z ∈ l) : nodeBlk m' z = nodeBlk m z := by
  simp only [nodeBlk, nodeAddr, nodeSize]
  rw [h z hz z (.inl rfl), h z hz (z + 4) (.inr (.inl rfl))]

theorem CellsKept.next (hz : z ∈ l) :
    nodeNext m' z = nodeNext m z := h z hz (z + 8) (.inr (.inr rfl))

theorem CellsKept.map : l.map (nodeBlk m') = l.map (nodeBlk m) :=
  map_congr_left fun _ hz => h.blk hz

end

theorem cellsKept_append :
    CellsKept m m' (l₁ ++ l₂) ↔ CellsKept m m' l₁ ∧ CellsKept m m' l₂ := forall_mem_append

theorem CellsKept.linked (h : CellsKept m m' l)
    (hl : Linked (nodeNext m) (· = 0) p l) : Linked (nodeNext m') (· = 0) p l :=
  hl.congr fun _ hz => h.next hz

/-! ## What a state keeps -/

/-- Only words of the descriptors `D`, and the heads of the lists, may differ. -/
structure NodeFrame (s s' : HeapState) (D : List Nat) : Prop where
  mem : ∀ a, (∀ z ∈ D, ¬ InNode z a) → s'.mem a = s.mem a
  firstBlock : s'.core.firstBlock = s.core.firstBlock
  ramSegments : s'.core.ramSegments = s.core.ramSegments
  info : s'.kmmallocInfo = s.kmmallocInfo

theorem NodeFrame.refl (s : HeapState) (D : List Nat) : NodeFrame s s D :=
  ⟨fun _ _ => rfl, rfl, rfl, rfl⟩

section

variable (h : NodeFrame s s' D)
include h

theorem NodeFrame.trans {s'' : HeapState} (h' : NodeFrame s' s'' D) : NodeFrame s s'' D :=
  ⟨fun a ha => (h'.mem a ha).trans (h.mem a ha), h'.firstBlock.trans h.firstBlock,
    h'.ramSegments.trans h.ramSegments, h'.info.trans h.info⟩

theorem NodeFrame.put (hz : z ∈ D) (ha : InNode z a) : NodeFrame s (s'.put a v) D := by
  refine ⟨fun b hb => ?_, h.firstBlock, h.ramSegments, h.info⟩
  have hne : b ≠ a := fun he => hb z hz (he ▸ ha)
  exact (set_ne hne).trans (h.mem b hb)

theorem NodeFrame.drop (hz : z ∈ D) : NodeFrame s (dropNode s' z) D :=
  have hput := h.put (v := 0) hz (.inr (.inl rfl))
  ⟨hput.mem, hput.firstBlock, hput.ramSegments, hput.info⟩

theorem NodeFrame.growUp (hz : z ∈ D) : NodeFrame s (growUp s' z p) D :=
  h.put hz (.inr (.inl rfl))

theorem NodeFrame.growDown (hz : z ∈ D) : NodeFrame s (growDown s' z p) D :=
  (h.put hz (.inl rfl)).put hz (.inr (.inl rfl))

theorem NodeFrame.setAvail : NodeFrame s { s' with kmavailList := p } D :=
  ⟨h.mem, h.firstBlock, h.ramSegments, h.info⟩

theorem NodeFrame.setUsed : NodeFrame s { s' with kmusedList := p } D :=
  ⟨h.mem, h.firstBlock, h.ramSegments, h.info⟩

theorem NodeFrame.kept (hD : ∀ z ∈ D, NodeAt z) (hl : ∀ z ∈ l, NodeAt z) (hap : ∀ z ∈ l, z ∉ D) :
    CellsKept s.mem s'.mem l := by
  intro z hz a ha
  refine h.mem a fun w hw hwa => ?_
  have hne : z ≠ w := fun he => hap z hz (he ▸ hw)
  exact ha.ne (hl z hz) (hD w hw) hne hwa rfl

end

@[simp] theorem put_mem (s : HeapState) (a v : Nat) : (s.put a v).mem = s.mem.set a v := rfl

@[simp] theorem dropNode_mem (s : HeapState) (p : Nat) :
    (dropNode s p).mem = s.mem.set (p + 4) 0 := rfl

@[simp] theorem growUp_mem (s : HeapState) (q p : Nat) : (growUp s q p).mem =
      s.mem.set (q + 4) (u32 ((nodeSize s.mem q : Int) + nodeSize s.mem p)) := rfl

/-! ## `insert_avail_node` -/

/-- `s'` is `s` after the range of `p` has joined the available list `ats`, which now is
    `ats'`: a range that was merged away has left a descriptor of size 0. -/
structure Inserted (s s' : HeapState) (p : Nat) (ats ats' : List Nat) (pre post : List Blk) :
    Prop where
  link : Linked (nodeNext s'.mem) (· = 0) s'.kmavailList ats'
  split : ats.map (nodeBlk s.mem) = pre ++ post
  blks : ats'.map (nodeBlk s'.mem) = coalesce pre (nodeBlk s.mem p) post
  before : ∀ a ∈ pre, a.fin ≤ (nodeBlk s.mem p).addr
  after : ∀ c ∈ post, (nodeBlk s.mem p).fin ≤ c.addr
  sub : ∀ z ∈ ats', z ∈ p :: ats
  freed : ∀ z ∈ p :: ats, z ∉ ats' → nodeSize s'.mem z = 0
  frame : NodeFrame s s' (p :: ats)
  used : s'.kmusedList = s.kmusedList

structure Insertable (s : HeapState) (p : Nat) (ats : List Nat) : Prop where
  link : Linked (nodeNext s.mem) (· = 0) s.kmavailList ats
  canon : Canon (ats.map (nodeBlk s.mem))
  node : ∀ z ∈ p :: ats, NodeAt z
  fresh : p ∉ ats
  notNull : p ≠ 0
  pos : 0 < nodeSize s.mem p
  apart : ∀ z ∈ ats, (nodeBlk s.mem p).Apart (nodeBlk s.mem z)
  low : ∀ z ∈ p :: ats, (nodeBlk s.mem z).fin < 4294967296

theorem nodeFin_of_low (h : (nodeBlk m p).fin < 4294967296) : nodeFin m p = (nodeBlk m p).fin :=
  u32_of_lt h

theorem sizes_of_touch (htouch : (nodeBlk m p).fin = (nodeBlk m q).addr)
    (hlow : (nodeBlk m q).fin < 4294967296) :
    u32 ((nodeSize m p : Int) + nodeSize m q) = nodeSize m p + nodeSize m q := by
  have h1 : nodeAddr m p + nodeSize m p = nodeAddr m q := htouch
  have h2 : nodeAddr m q + nodeSize m q < 4294967296 := hlow
  exact u32_of_lt (x := nodeSize m p + nodeSize m q) (by omega)

theorem fin_of_touch {b c : Blk} (htouch : b.fin = c.addr) :
    (⟨b.addr, b.len + c.len⟩ : Blk).fin = c.fin := by
  unfold Blk.fin at *
  show b.addr + (b.len + c.len) = _
  omega

/-- `q` takes over the range of `p` right in front of it: the words that leaves. -/
theorem growDown_words (hq : NodeAt q) (hp : NodeAt p) (hne : p ≠ q)
    (htouch : (nodeBlk s.mem p).fin = (nodeBlk s.mem q).addr)
    (hlow : (nodeBlk s.mem q).fin < 4294967296) :
    nodeBlk (dropNode (growDown s q p) p).mem q
        = ⟨(nodeBlk s.mem p).addr, (nodeBlk s.mem p).len + (nodeBlk s.mem q).len⟩ ∧
      nodeNext (dropNode (growDown s q p) p).mem q = nodeNext s.mem q ∧
      nodeSize (dropNode (growDown s q p) p).mem p = 0 := by
  have hsum : u32 ((nodeSize s.mem q : Int) + nodeSize s.mem p) =
      nodeSize s.mem p + nodeSize s.mem q := by
    rw [Int.add_comm]
    exact sizes_of_touch htouch hlow
  unfold NodeAt at hq hp
  simp only [nodeBlk, nodeSize, nodeAddr, nodeNext, dropNode_mem, growDown, put_mem] at hsum ⊢
  simp (disch := omega) only [set_same, set_ne, hsum, and_self]

theorem growUp_words (hq : NodeAt q) (hp : NodeAt p) (hne : p ≠ q)
    (htouch : (nodeBlk s.mem q).fin = (nodeBlk s.mem p).addr)
    (hlow : (nodeBlk s.mem p).fin < 4294967296) :
    nodeBlk (dropNode (growUp s q p) p).mem q
        = ⟨(nodeBlk s.mem q).addr, (nodeBlk s.mem q).len + (nodeBlk s.mem p).len⟩ ∧
      nodeNext (dropNode (growUp s q p) p).mem q = nodeNext s.mem q ∧
      nodeSize (dropNode (growUp s q p) p).mem p = 0 := by
  have hsum := sizes_of_touch htouch hlow
  unfold NodeAt at hq hp
  simp only [nodeBlk, nodeSize, nodeAddr, nodeNext, dropNode_mem, growUp_mem] at hsum ⊢
  simp (disch := omega) only [set_same, set_ne, hsum, and_self]

section insert

variable {s : HeapState} {p : Nat} {ats : List Nat} (h : Insertable s p ats)
include h

/-- The first store, `p->next = NULL`, changes nothing the rest depends on. -/
theorem Insertable.reset : Insertable (s.put (p + 8) 0) p ats ∧
    ∀ z ∈ p :: ats, nodeBlk (s.put (p + 8) 0).mem z = nodeBlk s.mem z := by
  have hkept : CellsKept s.mem (s.put (p + 8) 0).mem ats :=
    (CellsKept.refl _ _).set (forall_mem_cons.mp h.node).2
      (h.node p mem_cons_self) h.fresh (.inr (.inr rfl))
  have hblk : ∀ z ∈ p :: ats, nodeBlk (s.put (p + 8) 0).mem z = nodeBlk s.mem z := fun z hz =>
    nodeBlk_set_next (h.node z hz) (h.node p mem_cons_self)
  have hp := hblk p mem_cons_self
  refine ⟨⟨hkept.linked h.link, ?_, h.node, h.fresh, h.notNull, ?_, ?_, ?_⟩, hblk⟩
  · rw [hkept.map]
    exact h.canon
  · have hlen : nodeSize (s.put (p + 8) 0).mem p = nodeSize s.mem p := congrArg Blk.len hp
    rw [hlen]
    exact h.pos
  · intro z hz
    rw [hp, hkept.blk hz]
    exact h.apart z hz
  · intro z hz
    rw [hblk z hz]
    exact h.low z hz

theorem Insertable.node_tail (hz : z ∈ ats) : NodeAt z :=
  h.node z (mem_cons_of_mem _ hz)

theorem Insertable.ne (hz : z ∈ ats) : p ≠ z := fun he => h.fresh (he ▸ hz)

/-- What is known of the list around the place of `p`: `l₁` ends below `p`, and the first of
    `l₂` does not. -/
structure Insertable.At (s : HeapState) (p : Nat) (l₁ l₂ : List Nat) : Prop where
  before : ∀ z ∈ l₁, (nodeBlk s.mem z).fin < (nodeBlk s.mem p).addr
  after : ∀ z ∈ l₂, (nodeBlk s.mem p).fin ≤ (nodeBlk s.mem z).addr

omit h in
theorem Insertable.At.before_map (hat : Insertable.At s p l₁ l₂) :
    ∀ a ∈ l₁.map (nodeBlk s.mem), a.fin < (nodeBlk s.mem p).addr :=
  forall_mem_map.mpr hat.before

omit h in
theorem Insertable.At.after_map (hat : Insertable.At s p l₁ l₂) :
    ∀ c ∈ l₂.map (nodeBlk s.mem), (nodeBlk s.mem p).fin ≤ c.addr :=
  forall_mem_map.mpr hat.after

theorem Insertable.own (hats : ats = l₁ ++ l₂) (hat : Insertable.At s p l₁ l₂)
    (hgap : ∀ z ∈ l₂.head?, (nodeBlk s.mem p).fin ≠ (nodeBlk s.mem z).addr)
    (hlink : Linked (nodeNext s'.mem) (· = 0) s'.kmavailList (l₁ ++ p :: l₂))
    (hblk : ∀ z ∈ p :: ats, nodeBlk s'.mem z = nodeBlk s.mem z)
    (hframe : NodeFrame s s' (p :: ats)) (hused : s'.kmusedList = s.kmusedList) :
    Inserted s s' p ats (l₁ ++ p :: l₂) (l₁.map (nodeBlk s.mem)) (l₂.map (nodeBlk s.mem)) := by
  subst hats
  have hmap : ∀ l : List Nat, (∀ z ∈ l, z ∈ p :: (l₁ ++ l₂)) →
      l.map (nodeBlk s'.mem) = l.map (nodeBlk s.mem) := fun l hl =>
    map_congr_left fun z hz => hblk z (hl z hz)
  have hjoin : joinRight (nodeBlk s.mem p) (l₂.map (nodeBlk s.mem)) =
      nodeBlk s.mem p :: l₂.map (nodeBlk s.mem) := by
    cases l₂ with
    | nil => rfl
    | cons q l₂ => rw [map_cons, joinRight, if_neg (hgap q rfl)]
  refine ⟨hlink, map_append, ?_, fun a ha => (hat.before_map a ha).le, hat.after_map, ?_, ?_,
    hframe, hused⟩
  · rw [map_append, map_cons, hmap l₁ (fun z hz => by simp [hz]),
      hmap l₂ (fun z hz => by simp [hz]), hblk p mem_cons_self,
      coalesce_of_gap fun a ha => (hat.before_map a ha).ne, hjoin]
  · intro z hz
    simp only [mem_append, mem_cons] at hz ⊢
    tauto
  · intro z hz hno
    refine absurd ?_ hno
    simp only [mem_append, mem_cons] at hz ⊢
    tauto

theorem Insertable.others (hframe : NodeFrame s s' D)
    (hD : ∀ z ∈ D, z ∈ p :: ats) (hl : ∀ z ∈ l, z ∈ ats ∧ z ∉ D) : CellsKept s.mem s'.mem l :=
  hframe.kept (fun z hz => h.node z (hD z hz)) (fun z hz => h.node_tail (hl z hz).1)
    fun z hz => (hl z hz).2

/-- A step that writes to `p` and to descriptor `q` of the list leaves those around `q` alone. -/
theorem Insertable.around (hats : ats = l₁ ++ q :: l₂)
    (hframe : NodeFrame s s' [q, p]) : CellsKept s.mem s'.mem l₁ ∧ CellsKept s.mem s'.mem l₂ := by
  subst hats
  refine cellsKept_append.mp (h.others hframe (by simp) fun z hz => ?_)
  have hzm : z ∈ l₁ ++ q :: l₂ := by simp only [mem_append, mem_cons] at hz ⊢; tauto
  have hzp := h.ne hzm
  refine ⟨hzm, fun hmem => ?_⟩
  rcases mem_pair.mp hmem with rfl | rfl
  · exact (nodup_middle.mp h.link.nodup).notMem hz
  · exact hzp rfl

/-- The range lies right in front of that of `q`, which takes it over. -/
theorem Insertable.join_next (hats : ats = l₁ ++ q :: l₂) (hat : Insertable.At s p l₁ (q :: l₂))
    (htouch : (nodeBlk s.mem p).fin = (nodeBlk s.mem q).addr) :
    Inserted s (dropNode (growDown s q p) p) p ats ats (l₁.map (nodeBlk s.mem))
      ((q :: l₂).map (nodeBlk s.mem)) := by
  have hframe : ∀ {D}, q ∈ D → p ∈ D → NodeFrame s (dropNode (growDown s q p) p) D :=
    fun hqD hpD => ((NodeFrame.refl _ _).growDown hqD).drop hpD
  obtain ⟨hk1, hk2⟩ := h.around hats (hframe (by simp) (by simp))
  subst hats
  obtain ⟨hblk, hnext, hsize⟩ := growDown_words (h.node_tail (by simp))
    (h.node p mem_cons_self) (h.ne (by simp)) htouch (h.low q (by simp))
  refine ⟨?_, map_append, ?_, fun a ha => (hat.before_map a ha).le, hat.after_map,
    fun z hz => mem_cons_of_mem _ hz, ?_, hframe (by simp) (by simp), rfl⟩
  · refine h.link.splice (fun z hz => hk1.next hz) ?_
    rw [hnext]
    exact hk2.linked (Linked.drop h.link).2.2
  · rw [coalesce_of_gap fun a ha => (hat.before_map a ha).ne, map_append, map_cons, hk1.map,
      hk2.map, hblk, map_cons, joinRight, if_pos htouch]
  · intro z hz hno
    rcases mem_cons.mp hz with rfl | hz
    · exact hsize
    · exact absurd hz hno

section prev

variable {q : Nat} {l₁ l₂ : List Nat} (hats : ats = l₁ ++ q :: l₂)
  (hat : Insertable.At s p l₁ l₂) (htouch : (nodeBlk s.mem q).fin = (nodeBlk s.mem p).addr)
include hats hat htouch

omit hat in
/-- The range lies right behind that of `q`: the state after `q` has taken it over. -/
theorem Insertable.prev_words : nodeBlk (dropNode (growUp s q p) p).mem q
        = ⟨(nodeBlk s.mem q).addr, (nodeBlk s.mem q).len + (nodeBlk s.mem p).len⟩ ∧
      nodeNext (dropNode (growUp s q p) p).mem q = nodeNext s.mem q ∧
      nodeSize (dropNode (growUp s q p) p).mem p = 0 ∧
      CellsKept s.mem (dropNode (growUp s q p) p).mem l₁ ∧
      CellsKept s.mem (dropNode (growUp s q p) p).mem l₂ := by
  have hkept := h.around hats (show NodeFrame s (dropNode (growUp s q p) p) [q, p] from
    ((NodeFrame.refl _ _).growUp (by simp)).drop (by simp))
  subst hats
  obtain ⟨hblk, hnext, hsize⟩ := growUp_words (h.node_tail (by simp))
    (h.node p mem_cons_self) (h.ne (by simp)) htouch (h.low p (by simp))
  exact ⟨hblk, hnext, hsize, hkept⟩

omit h hats in
theorem Insertable.At.before_prev :
    ∀ a ∈ (l₁ ++ [q]).map (nodeBlk s.mem), a.fin ≤ (nodeBlk s.mem p).addr := by
  refine forall_mem_map.mpr (forall_mem_append.mpr ⟨fun z hz => ?_, forall_mem_singleton.mpr ?_⟩)
  · exact Nat.le_of_lt (hat.before z hz)
  · exact Nat.le_of_eq htouch

theorem Insertable.join_prev
    (hgap : ∀ z ∈ l₂.head?, (nodeBlk s.mem p).fin ≠ (nodeBlk s.mem z).addr) :
    Inserted s (dropNode (growUp s q p) p) p ats ats ((l₁ ++ [q]).map (nodeBlk s.mem))
      (l₂.map (nodeBlk s.mem)) := by
  obtain ⟨hblk, hnext, hsize, hk1, hk2⟩ := h.prev_words hats htouch
  subst hats
  refine ⟨?_, by simp, ?_, hat.before_prev htouch, hat.after_map, fun z hz => mem_cons_of_mem _ hz, ?_,
    ((NodeFrame.refl _ _).growUp (by simp)).drop (by simp), rfl⟩
  · refine h.link.splice (fun z hz => hk1.next hz) ?_
    rw [hnext]
    exact hk2.linked (Linked.drop h.link).2.2
  · have hjoin : joinRight ⟨(nodeBlk s.mem q).addr,
        (nodeBlk s.mem q).len + (nodeBlk s.mem p).len⟩ (l₂.map (nodeBlk s.mem)) =
        ⟨(nodeBlk s.mem q).addr, (nodeBlk s.mem q).len + (nodeBlk s.mem p).len⟩ ::
          l₂.map (nodeBlk s.mem) := by
      cases l₂ with
      | nil => rfl
      | cons r l₂ =>
        rw [map_cons, joinRight, if_neg]
        rw [fin_of_touch htouch]
        exact hgap r rfl
    rw [map_append, map_cons, hk1.map, hk2.map, hblk, map_append,
      map_singleton, coalesce_concat, if_pos htouch, hjoin]
  · intro z hz hno
    rcases mem_cons.mp hz with rfl | hz
    · exact hsize
    · exact absurd hz hno

end prev

/-- The range fills the gap between `q` and `r`; `q` takes over both. -/
theorem Insertable.join_both {r : Nat} {s1 s2 : HeapState} (hats : ats = l₁ ++ q :: r :: l₂)
    (hat : Insertable.At s p l₁ (r :: l₂)) (htouch : (nodeBlk s.mem q).fin = (nodeBlk s.mem p).addr)
    (htouch' : (nodeBlk s.mem p).fin = (nodeBlk s.mem r).addr)
    (hs1 : s1 = dropNode (growUp s q p) p) (hs2 : s2 = dropNode (growUp s1 q r) r) :
    Inserted s (s2.put (q + 8) (nodeNext s2.mem r)) p ats (l₁ ++ q :: l₂)
      ((l₁ ++ [q]).map (nodeBlk s.mem)) ((r :: l₂).map (nodeBlk s.mem)) := by
  obtain ⟨hblk1, -, hsize1, -, hkept1⟩ := h.prev_words hats htouch
  rw [← hs1] at hblk1 hsize1 hkept1
  subst hats
  have hq : NodeAt q := h.node_tail (by simp)
  have hr : NodeAt r := h.node_tail (by simp)
  have hp : NodeAt p := h.node p mem_cons_self
  have hpq : p ≠ q := h.ne (by simp)
  have hpr : p ≠ r := h.ne (by simp)
  have hnd := nodup_middle.mp h.link.nodup
  have hrq : r ≠ q := fun he => hnd.notMem (by simp [he])
  have hr1 : nodeBlk s1.mem r = nodeBlk s.mem r := hkept1.blk (by simp)
  have hfin1 : (nodeBlk s1.mem q).fin = (nodeBlk s1.mem r).addr := by
    rw [hblk1, hr1, ← htouch', fin_of_touch htouch]
  obtain ⟨hblk2, -, hsize2⟩ := growUp_words hq hr hrq hfin1
    (by rw [hr1]; exact h.low r (by simp))
  rw [← hs2, hblk1, hr1] at hblk2
  rw [← hs2] at hsize2
  have hframe : ∀ {D}, q ∈ D → p ∈ D → r ∈ D →
      NodeFrame s (s2.put (q + 8) (nodeNext s2.mem r)) D := by
    intro D hqD hpD hrD
    rw [hs2, hs1]
    exact (((((NodeFrame.refl _ _).growUp hqD).drop hpD).growUp hqD).drop hrD).put hqD
      (.inr (.inr rfl))
  obtain ⟨hk1, hk2⟩ : CellsKept s.mem (s2.put (q + 8) (nodeNext s2.mem r)).mem l₁ ∧
      CellsKept s.mem (s2.put (q + 8) (nodeNext s2.mem r)).mem l₂ := by
    refine cellsKept_append.mp (h.others (hframe (D := [q, p, r]) (by simp) (by simp) (by simp))
      (by simp) fun z hz => ?_)
    have hzm : z ∈ l₁ ++ q :: r :: l₂ := by
      simp only [mem_append, mem_cons] at hz ⊢
      tauto
    have hzp := h.ne hzm
    have hzq : z ≠ q := by
      rintro rfl
      refine hnd.notMem ?_
      simp only [mem_append, mem_cons] at hz ⊢
      tauto
    have hzr : z ≠ r := by
      rintro rfl
      exact (nodup_middle.mp hnd.of_cons).notMem hz
    simp only [mem_cons, not_mem_nil, or_false, not_or]
    exact ⟨hzm, hzq, hzp.symm, hzr⟩
  -- The words of `p`, `q` and `r` at the end.
  have hnextr : nodeNext s2.mem r = nodeNext s.mem r := by
    unfold NodeAt at hp hq hr
    rw [hs2, hs1]
    simp only [nodeNext, dropNode_mem, growUp_mem]
    simp (disch := omega) only [set_ne]
  have hblk : nodeBlk (s2.put (q + 8) (nodeNext s2.mem r)).mem q = nodeBlk s2.mem q :=
    nodeBlk_set_next hq hq
  have hsizep : nodeSize (s2.put (q + 8) (nodeNext s2.mem r)).mem p = 0 := by
    unfold NodeAt at hp hq hr
    rw [← hsize1, hs2]
    simp only [nodeSize, dropNode_mem, growUp_mem, put_mem]
    simp (disch := omega) only [set_ne]
  have hsizer : nodeSize (s2.put (q + 8) (nodeNext s2.mem r)).mem r = 0 := by
    unfold NodeAt at hp hq hr
    rw [← hsize2]
    simp only [nodeSize, put_mem]
    simp (disch := omega) only [set_ne]
  refine ⟨?_, by simp, ?_, hat.before_prev htouch, hat.after_map, ?_, ?_,
    hframe (by simp) (by simp) (by simp), ?_⟩
  · have hkm : (s2.put (q + 8) (nodeNext s2.mem r)).kmavailList = s.kmavailList := by
      rw [hs2, hs1]
      rfl
    rw [hkm]
    refine h.link.splice (fun z hz => hk1.next hz) ?_
    have hlast := hk2.linked (Linked.drop h.link).2.2.2.2
    rw [← hnextr] at hlast
    rw [show nodeNext (s2.put (q + 8) (nodeNext s2.mem r)).mem q = nodeNext s2.mem r from
      set_same _ _ _]
    exact hlast
  · rw [map_append, map_cons, hk1.map, hk2.map, hblk, hblk2, map_append,
      map_singleton, coalesce_concat, if_pos htouch, map_cons, joinRight, if_pos]
    rw [← htouch', fin_of_touch htouch]
  · intro z hz
    simp only [mem_append, mem_cons] at hz ⊢
    tauto
  · intro z hz hno
    simp only [mem_append, mem_cons, not_or] at hz hno
    rcases hz with rfl | hz | rfl | rfl | hz
    · exact hsizep
    · exact absurd hz hno.1
    · exact absurd rfl hno.2.1
    · exact hsizer
    · exact absurd hz hno.2.2
  · rw [hs2, hs1]
    rfl

/-- The place of `p`: below it the ranges the search passes, above it the rest. -/
theorem Insertable.place (hats : ats = l₁ ++ l₂)
    (hlt : ∀ z ∈ l₁, (nodeBlk s.mem z).fin < (nodeBlk s.mem p).addr)
    (hhead : ∀ z ∈ l₂.head?, (nodeBlk s.mem p).fin ≤ (nodeBlk s.mem z).addr) :
    Insertable.At s p l₁ l₂ := by
  refine ⟨hlt, fun z hz => ?_⟩
  cases l₂ with
  | nil => simp at hz
  | cons q l₂ =>
    have hq := hhead q rfl
    rcases mem_cons.mp hz with rfl | hz
    · exact hq
    have hcan := h.canon
    rw [hats, map_append, map_cons] at hcan
    have hsep := (canon_cons.mp (canon_append.mp hcan).2.1).2.1 _ (mem_map_of_mem hz)
    unfold Blk.fin at *
    omega

theorem Insertable.own_after (hats : ats = l₁ ++ a :: l₂) (hat : Insertable.At s p (l₁ ++ [a]) l₂)
    (hgap : ∀ z ∈ l₂.head?, (nodeBlk s.mem p).fin ≠ (nodeBlk s.mem z).addr) :
    Inserted s ((s.put (p + 8) (nodeNext s.mem a)).put (a + 8) p) p ats (l₁ ++ [a] ++ p :: l₂)
      ((l₁ ++ [a]).map (nodeBlk s.mem)) (l₂.map (nodeBlk s.mem)) := by
  have ha : NodeAt a := h.node_tail (by simp [hats])
  have hp : NodeAt p := h.node p mem_cons_self
  have hpa : p ≠ a := h.ne (by simp [hats])
  have hframe : ∀ {D}, a ∈ D → p ∈ D →
      NodeFrame s ((s.put (p + 8) (nodeNext s.mem a)).put (a + 8) p) D := fun haD hpD =>
    ((NodeFrame.refl _ _).put hpD (.inr (.inr rfl))).put haD (.inr (.inr rfl))
  obtain ⟨hk1, hk2⟩ := h.around hats (hframe (by simp) (by simp))
  refine h.own (by simp [hats]) hat hgap ?_ ?_ (hframe (by simp [hats]) (by simp)) rfl
  · have hlink := h.link
    rw [hats] at hlink
    rw [append_assoc, singleton_append]
    refine hlink.splice (fun z hz => hk1.next hz) ⟨?_, h.notNull, ?_⟩
    · exact set_same _ _ _
    · have hpn : nodeNext ((s.put (p + 8) (nodeNext s.mem a)).put (a + 8) p).mem p =
          nodeNext s.mem a := by
        simp only [nodeNext, put_mem]
        simp (disch := omega) only [set_ne, set_same]
      rw [hpn]
      exact hk2.linked (Linked.drop hlink).2.2
  · intro z hz
    rw [put_mem, put_mem, nodeBlk_set_next (h.node z hz) ha, nodeBlk_set_next (h.node z hz) hp]

omit h in
theorem put_self (hv : s.mem p = v) : s.put p v = s := by
  subst hv
  show { s with core := { s.core with mem := s.core.mem.set p (s.core.mem p) } } = s
  rw [set_self]

theorem insertInMiddle_spec (hfuel : ats.length ≤ nodeFuel) {rest : List Nat}
    (hats : ats = q :: rest) (hge : (nodeBlk s.mem q).addr ≤ (nodeBlk s.mem p).addr)
    (hnext : nodeNext s.mem p = 0) :
    ∃ s' ats' pre post, insertInMiddle s p = some s' ∧ Inserted s s' p ats ats' pre post := by
  obtain ⟨l₁, l₂, hsplit, h1, h2, hseek⟩ := seek_of_linked
    (fun q => !decide (nodeFin s.mem q < nodeAddr s.mem p)) 0 h.link hfuel
  have hlow : ∀ z ∈ ats, nodeFin s.mem z = (nodeBlk s.mem z).fin := fun z hz =>
    nodeFin_of_low (h.low z (mem_cons_of_mem _ hz))
  have hlowp : nodeFin s.mem p = (nodeBlk s.mem p).fin := nodeFin_of_low (h.low p (by simp))
  have hpos : (nodeBlk s.mem p).addr < (nodeBlk s.mem p).fin := Nat.lt_add_of_pos_right h.pos
  have hlt : ∀ z ∈ l₁, (nodeBlk s.mem z).fin < (nodeBlk s.mem p).addr := by
    intro z hz
    have hz1 : nodeFin s.mem z < nodeAddr s.mem p := by simpa using h1 z hz
    rwa [hlow z (by simp [hsplit, hz])] at hz1
  cases l₂ with
  | nil =>
    -- At the end.
    rcases eq_nil_or_concat' l₁ with rfl | ⟨l₁, a, rfl⟩
    · rw [hsplit] at hats
      simp at hats
    have hat : Insertable.At s p (l₁ ++ [a]) [] := h.place hsplit hlt (by simp)
    have hna : nodeNext s.mem a = 0 := by
      have hlink := h.link
      rw [hsplit, append_nil] at hlink
      exact (Linked.drop hlink).2.2
    have hins := h.own_after (show ats = l₁ ++ a :: [] by simp [hsplit]) hat (by simp)
    rw [hna, put_self hnext] at hins
    refine ⟨_, _, _, _, ?_, hins⟩
    unfold insertInMiddle
    rw [hseek]
    simp
  | cons q1 l₂ =>
    have hq1 : q1 ∈ ats := by simp [hsplit]
    have hq10 : q1 ≠ 0 := h.link.not_stop q1 hq1
    have hge1 : (nodeBlk s.mem p).addr ≤ (nodeBlk s.mem q1).fin := by
      have hf : ¬ nodeFin s.mem q1 < nodeAddr s.mem p := by simpa using h2 q1 rfl
      rw [hlow q1 hq1] at hf
      exact Nat.not_lt.mp hf
    rw [headD_cons] at hseek
    unfold insertInMiddle
    rw [hseek]
    dsimp only
    rw [if_pos hq10, hlow q1 hq1, hlowp]
    by_cases hprev : (nodeBlk s.mem q1).fin = nodeAddr s.mem p
    · rw [if_pos hprev]
      have hat : Insertable.At s p l₁ l₂ := by
        refine ⟨hlt, fun z hz => ?_⟩
        have hcan := h.canon
        rw [hsplit, map_append, map_cons] at hcan
        have hsep := (canon_cons.mp (canon_append.mp hcan).2.1).2.1 _ (mem_map_of_mem hz)
        have hza := h.apart z (by simp [hsplit, hz])
        have hle : (nodeBlk s.mem z).addr ≤ (nodeBlk s.mem z).fin := Nat.le_add_right _ _
        rw [hprev] at hsep
        exact hza.resolve_right fun hno => absurd (Nat.lt_of_lt_of_le hsep hle)
          (Nat.not_lt.mpr hno)
      obtain ⟨hblk, hnx, -, -, hkept⟩ := h.prev_words hsplit hprev
      have hfin : (nodeBlk (dropNode (growUp s q1 p) p).mem q1).fin = (nodeBlk s.mem p).fin := by
        rw [hblk, fin_of_touch hprev]
      have hfin' : nodeFin (dropNode (growUp s q1 p) p).mem q1 = (nodeBlk s.mem p).fin := by
        rw [nodeFin_of_low (by rw [hfin]; exact h.low p (by simp)), hfin]
      rw [hnx, hfin']
      have hlink := h.link
      rw [hsplit] at hlink
      have hl2 := (Linked.drop hlink).2.2
      cases l₂ with
      | nil =>
        have h0 : nodeNext s.mem q1 = 0 := hl2
        rw [if_neg (fun hc => hc.1 h0)]
        exact ⟨_, _, _, _, rfl, h.join_prev hsplit hat hprev (by simp)⟩
      | cons r l₂ =>
        obtain ⟨hr, hr0, -⟩ := hl2
        have haddr : nodeAddr (dropNode (growUp s q1 p) p).mem r = (nodeBlk s.mem r).addr :=
          congrArg Blk.addr (hkept.blk (z := r) (by simp))
        rw [hr, haddr]
        by_cases hboth : (nodeBlk s.mem p).fin = (nodeBlk s.mem r).addr
        · rw [if_pos ⟨hr0, hboth⟩]
          exact ⟨_, _, _, _, rfl, h.join_both hsplit hat hprev hboth rfl rfl⟩
        rw [if_neg (fun hc => hboth hc.2)]
        refine ⟨_, _, _, _, rfl, h.join_prev hsplit hat hprev ?_⟩
        intro z hz
        obtain rfl : r = z := by simpa using hz
        exact hboth
    · rw [if_neg hprev]
      have hafter : (nodeBlk s.mem p).fin ≤ (nodeBlk s.mem q1).addr := by
        refine (h.apart q1 hq1).resolve_right fun hno => ?_
        have heq : (nodeBlk s.mem q1).fin = (nodeBlk s.mem p).addr := by omega
        exact hprev heq
      have hat : Insertable.At s p l₁ (q1 :: l₂) := by
        refine h.place hsplit hlt fun z hz => ?_
        obtain rfl : q1 = z := by simpa using hz
        exact hafter
      by_cases hnxt : (nodeBlk s.mem p).fin = nodeAddr s.mem q1
      · rw [if_pos hnxt]
        exact ⟨_, _, _, _, rfl, h.join_next hsplit hat hnxt⟩
      rw [if_neg hnxt]
      rcases eq_nil_or_concat' l₁ with rfl | ⟨l₁, a, rfl⟩
      · -- The first range starts below `p`, so the search has passed it.
        rw [hsplit] at hats
        obtain rfl : q1 = q := by simpa using (List.cons.inj hats).1
        omega
      have hlink := h.link
      rw [hsplit, append_assoc, singleton_append] at hlink
      have hna : nodeNext s.mem a = q1 := (Linked.drop hlink).2.2.1
      have hins := h.own_after (show ats = l₁ ++ a :: q1 :: l₂ by simp [hsplit]) hat
        (fun z hz => by obtain rfl : q1 = z := by simpa using hz
                        exact hnxt)
      rw [hna] at hins
      refine ⟨_, _, _, _, ?_, hins⟩
      simp

end insert

/-- **`insert_avail_node` adds the range to the list**: between those below it and those above
    it, joined with whichever it touches. -/
theorem insertAvailNode_spec {ats : List Nat} (h : Insertable s p ats)
    (hfuel : ats.length ≤ nodeFuel) :
    ∃ s' ats' pre post, insertAvailNode s p = some s' ∧ Inserted s s' p ats ats' pre post := by
  obtain ⟨h0, hblk⟩ := h.reset
  have hnext : nodeNext (s.put (p + 8) 0).mem p = 0 := set_same _ _ _
  have hframe : NodeFrame s (s.put (p + 8) 0) (p :: ats) :=
    (NodeFrame.refl _ _).put mem_cons_self (.inr (.inr rfl))
  have hmap : ats.map (nodeBlk (s.put (p + 8) 0).mem) = ats.map (nodeBlk s.mem) :=
    map_congr_left (forall_mem_cons.mp hblk).2
  -- It is enough to look at the state after the first store.
  suffices hreset : ∃ s' ats' pre post, insertAvailNode s p = some s' ∧
      Inserted (s.put (p + 8) 0) s' p ats ats' pre post by
    obtain ⟨s', ats', pre, post, hrun, hi⟩ := hreset
    have hp := hblk p mem_cons_self
    refine ⟨s', ats', pre, post, hrun, hi.link, hmap ▸ hi.split, hp ▸ hi.blks, hp ▸ hi.before,
      hp ▸ hi.after, hi.sub, hi.freed, hframe.trans hi.frame, hi.used⟩
  unfold insertAvailNode
  dsimp only
  cases ats with
  | nil =>
    have hnull : (s.put (p + 8) 0).kmavailList = 0 := h0.link
    rw [if_pos hnull]
    refine ⟨_, [p], [], [], rfl, ⟨rfl, h0.notNull, hnext⟩, rfl, rfl, by simp, by simp, by simp, ?_,
      (NodeFrame.refl _ _).setAvail, rfl⟩
    intro z hz hno
    exact absurd hz hno
  | cons q rest =>
    have hhead : (s.put (p + 8) 0).kmavailList = q := h0.link.1
    have hq0 : q ≠ 0 := h0.link.2.1
    rw [hhead, if_neg hq0]
    by_cases hfront : nodeAddr (s.put (p + 8) 0).mem p < nodeAddr (s.put (p + 8) 0).mem q
    · rw [if_pos hfront, nodeFin_of_low (h0.low p (by simp))]
      have hafter : (nodeBlk (s.put (p + 8) 0).mem p).fin ≤
          (nodeBlk (s.put (p + 8) 0).mem q).addr := by
        refine (h0.apart q (by simp)).resolve_right fun hno => ?_
        have hle : nodeAddr (s.put (p + 8) 0).mem q ≤ nodeAddr (s.put (p + 8) 0).mem p :=
          Nat.le_trans (Nat.le_add_right _ _) hno
        omega
      have hat : Insertable.At (s.put (p + 8) 0) p [] (q :: rest) := by
        refine h0.place rfl (by simp) fun z hz => ?_
        obtain rfl : q = z := by simpa using hz
        exact hafter
      by_cases htouch : (nodeBlk (s.put (p + 8) 0).mem p).fin =
          nodeAddr (s.put (p + 8) 0).mem q
      · rw [if_pos htouch]
        exact ⟨_, _, _, _, rfl, h0.join_next rfl hat htouch⟩
      rw [if_neg htouch]
      have hkept : CellsKept (s.put (p + 8) 0).mem ((s.put (p + 8) 0).put (p + 8) q).mem
          (q :: rest) :=
        (CellsKept.refl _ _).set (fun z hz => h0.node_tail hz) (h0.node p mem_cons_self)
          h0.fresh (.inr (.inr rfl))
      refine ⟨_, _, _, _, rfl, h0.own rfl hat ?_ ⟨rfl, h0.notNull, ?_⟩ ?_ ?_ rfl⟩
      · intro z hz
        obtain rfl : q = z := by simpa using hz
        exact htouch
      · have hpq : nodeNext ((s.put (p + 8) 0).put (p + 8) q).mem p = q := set_same _ _ _
        show Linked (nodeNext ((s.put (p + 8) 0).put (p + 8) q).mem) (· = 0)
          (nodeNext ((s.put (p + 8) 0).put (p + 8) q).mem p) (q :: rest)
        rw [hpq]
        exact hkept.linked ⟨rfl, h0.link.2⟩
      · exact fun z hz => nodeBlk_set_next (h0.node z hz) (h0.node p mem_cons_self)
      · exact ((NodeFrame.refl _ _).put mem_cons_self (.inr (.inr rfl))).setAvail
    · rw [if_neg hfront]
      exact insertInMiddle_spec h0 hfuel rfl (Nat.not_lt.mp hfront) hnext

/-! ## `delete_avail_node` -/

/-- In a list, only the descriptor in front of `p` leads to `p`, and a search for one ends there. -/
theorem seek_before {next : Nat → Nat} {head a p : Nat} {l₁ l₂ : List Nat}
    (hlink : Linked next (· = 0) head (l₁ ++ a :: p :: l₂))
    (hfuel : (l₁ ++ a :: p :: l₂).length ≤ nodeFuel) :
    ∃ q, seek next (fun q => q == 0 || next q == p) nodeFuel 0 head = some (q, a) := by
  have hanext : next a = p := (Linked.drop hlink).2.2.1
  obtain ⟨k1, k2, hk, h1, h2, hseek⟩ := seek_of_linked (fun q => next q == p) 0 hlink hfuel
  have hq2 : k2.headD 0 = a := by
    have ham : a ∈ k1 ++ k2 := hk ▸ (by simp)
    cases k2 with
    | nil =>
      have hno := h1 a (by simpa using ham)
      rw [hanext, beq_self_eq_true] at hno
      exact absurd hno (by simp)
    | cons q k2 =>
      have hqn : next q = p := by simpa using h2 q rfl
      exact hlink.next_inj (hk ▸ (by simp)) (by simp) (hqn.trans hanext.symm)
  rw [hq2] at hseek
  exact ⟨_, hseek⟩

/-- Descriptor `p` is off the list and its range has size 0; the other ranges are as they were. -/
structure AvailDeleted (s s' : HeapState) (p : Nat) (l₁ l₂ : List Nat) : Prop where
  linked : Linked (nodeNext s'.mem) (· = 0) s'.kmavailList (l₁ ++ l₂)
  blk : ∀ z ∈ l₁ ++ l₂, nodeBlk s'.mem z = nodeBlk s.mem z
  addr : nodeAddr s'.mem p = nodeAddr s.mem p
  frame : NodeFrame s s' (l₁ ++ p :: l₂)
  used : s'.kmusedList = s.kmusedList

section remove

variable {s : HeapState} {p a : Nat} {l₁ l₂ : List Nat}

theorem deleteAvailNode_first (hlink : Linked (nodeNext s.mem) (· = 0) s.kmavailList (p :: l₂))
    (hnode : ∀ z ∈ p :: l₂, NodeAt z) :
    ∃ s', deleteAvailNode s p = some s' ∧ AvailDeleted s s' p [] l₂ := by
  have hp : NodeAt p := hnode p mem_cons_self
  have hpl : p ∉ l₂ := (nodup_cons.mp hlink.nodup).1
  have hnode' : ∀ z ∈ l₂, NodeAt z := fun z hz => hnode z (mem_cons_of_mem p hz)
  have hhead : s.kmavailList = p := hlink.1
  have hkept : CellsKept s.mem ((s.mem.set (p + 4) 0).set (p + 8) 0) l₂ :=
    ((CellsKept.refl _ _).set hnode' hp hpl (.inr (.inl rfl))).set hnode' hp hpl (.inr (.inr rfl))
  refine ⟨({ s.put (p + 4) 0 with kmavailList := nodeNext (s.put (p + 4) 0).mem p }).put (p + 8) 0,
    ?_, ?_, ?_, ?_, ?_, rfl⟩
  · unfold deleteAvailNode
    dsimp only
    rw [show (s.put (p + 4) 0).kmavailList = p from hhead, if_pos rfl]
  · have hnextp : nodeNext (s.put (p + 4) 0).mem p = nodeNext s.mem p := set_ne (by omega)
    show Linked (nodeNext ((s.mem.set (p + 4) 0).set (p + 8) 0)) (· = 0)
      (nodeNext (s.put (p + 4) 0).mem p) l₂
    rw [hnextp]
    exact hkept.linked hlink.2.2
  · exact fun z hz => hkept.blk hz
  · show (s.mem.set (p + 4) 0).set (p + 8) 0 p = s.mem p
    rw [set_ne (by omega), set_ne (by omega)]
  · exact (((NodeFrame.refl _ _).put (by simp) (.inr (.inl rfl))).setAvail).put (by simp)
      (.inr (.inr rfl))

theorem deleteAvailNode_behind
    (hlink : Linked (nodeNext s.mem) (· = 0) s.kmavailList (l₁ ++ a :: p :: l₂))
    (hnode : ∀ z ∈ l₁ ++ a :: p :: l₂, NodeAt z) (hfuel : (l₁ ++ a :: p :: l₂).length ≤ nodeFuel) :
    ∃ s', deleteAvailNode s p = some s' ∧ AvailDeleted s s' p (l₁ ++ [a]) l₂ := by
  have hp : NodeAt p := hnode p (by simp)
  have ha : NodeAt a := hnode a (by simp)
  have ha0 : a ≠ 0 := hlink.not_stop a (by simp)
  have hnd := nodup_middle.mp hlink.nodup
  have hap : p ≠ a := fun he => hnd.notMem (by simp [he])
  have hpl : p ∉ l₁ ++ l₂ := (nodup_middle.mp hnd.of_cons).notMem
  have hal : a ∉ l₁ ++ l₂ := fun hm => hnd.notMem (by
    simp only [mem_append, mem_cons] at hm ⊢
    tauto)
  have hsub : ∀ z ∈ l₁ ++ l₂, NodeAt z := fun z hz => hnode z (by
    simp only [mem_append, mem_cons] at hz ⊢
    tauto)
  have hhead : s.kmavailList ≠ p := by
    intro he
    cases l₁ with
    | nil => exact hap (he.symm.trans hlink.1)
    | cons z l₁ => exact hpl (by simp [he.symm.trans hlink.1])
  -- After the first store the list is the same.
  have hlink1 : Linked (nodeNext (s.put (p + 4) 0).mem) (· = 0) s.kmavailList
      (l₁ ++ a :: p :: l₂) := by
    refine hlink.congr fun z hz => ?_
    have hz := hnode z hz
    unfold NodeAt at hz hp
    exact set_ne (by omega)
  obtain ⟨q, hseek⟩ := seek_before hlink1 hfuel
  have hfr : ∀ {D}, a ∈ D → p ∈ D → NodeFrame s (((s.put (p + 4) 0).put (a + 8)
      (nodeNext (s.put (p + 4) 0).mem p)).put (p + 8) 0) D := fun haD hpD =>
    (((NodeFrame.refl _ _).put hpD (.inr (.inl rfl))).put haD (.inr (.inr rfl))).put hpD
      (.inr (.inr rfl))
  have hkept : CellsKept s.mem (((s.put (p + 4) 0).put (a + 8)
      (nodeNext (s.put (p + 4) 0).mem p)).put (p + 8) 0).mem (l₁ ++ l₂) := by
    refine (hfr (D := [a, p]) (by simp) (by simp)).kept ?_ hsub fun z hz hmem => ?_
    · intro z hz
      rcases mem_pair.mp hz with rfl | rfl
      · exact ha
      · exact hp
    · rcases mem_pair.mp hmem with rfl | rfl
      · exact hal hz
      · exact hpl hz
  refine ⟨((s.put (p + 4) 0).put (a + 8) (nodeNext (s.put (p + 4) 0).mem p)).put (p + 8) 0,
    ?_, ?_, fun z hz => ?_, ?_, hfr (by simp) (by simp), rfl⟩
  · unfold deleteAvailNode
    dsimp only
    rw [show (s.put (p + 4) 0).kmavailList = s.kmavailList from rfl, if_neg hhead, hseek]
    dsimp only
    rw [if_pos ha0]
  · rw [append_assoc, singleton_append]
    refine hlink.splice (fun z hz => hkept.next (mem_append_left _ hz)) ?_
    have han : nodeNext (((s.put (p + 4) 0).put (a + 8)
        (nodeNext (s.put (p + 4) 0).mem p)).put (p + 8) 0).mem a = nodeNext s.mem p := by
      simp only [nodeNext, put_mem]
      rw [set_ne (by omega), set_same, set_ne (by omega)]
    rw [han]
    exact (hkept.mono fun z hz => mem_append_right _ hz : CellsKept _ _ l₂).linked
      (Linked.drop hlink).2.2.2.2
  · rw [append_assoc, singleton_append] at hz
    have hzn : NodeAt z := hnode z (by
      simp only [mem_append, mem_cons] at hz ⊢
      tauto)
    have hzp : z ≠ p := by
      rintro rfl
      simp only [mem_append, mem_cons] at hz hpl
      tauto
    rw [put_mem, put_mem, nodeBlk_set_next hzn hp, nodeBlk_set_next hzn ha]
    unfold NodeAt at hzn hp
    simp only [nodeBlk, nodeAddr, nodeSize, put_mem]
    simp (disch := omega) only [set_ne]
  · unfold NodeAt at ha hp
    simp only [nodeAddr, put_mem]
    simp (disch := omega) only [set_ne]

/-- **`delete_avail_node` takes a descriptor off the list**, clears its size and link, and
    leaves the start of its range. -/
theorem deleteAvailNode_spec (hlink : Linked (nodeNext s.mem) (· = 0) s.kmavailList (l₁ ++ p :: l₂))
    (hnode : ∀ z ∈ l₁ ++ p :: l₂, NodeAt z) (hfuel : (l₁ ++ p :: l₂).length ≤ nodeFuel) :
    ∃ s', deleteAvailNode s p = some s' ∧ AvailDeleted s s' p l₁ l₂ := by
  rcases eq_nil_or_concat' l₁ with rfl | ⟨l₁, a, rfl⟩
  · exact deleteAvailNode_first hlink hnode
  · rw [append_assoc, singleton_append] at hlink hnode hfuel
    exact deleteAvailNode_behind hlink hnode hfuel

end remove

end AtomOs
