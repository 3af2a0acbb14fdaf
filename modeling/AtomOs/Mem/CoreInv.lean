import AtomOs.Mem.Core

/-!
# What the page allocator does to the free list

`CoreOk s L`: the words of `s` spell the list of blocks `L`, and `L` is canonical and made
of usable pages. The two specifications, `coreAlloc_spec` and `coreFree_spec`, say that the
functions end, and that they edit `L` by `carve` and `coalesce`. Both carry a frame: no word
outside the free blocks (and the block given back) is written. That is what lets the owner
of an allocated block use it freely, and what the kernel heap builds on.
-/

namespace AtomOs

open Lib List Mem

variable {C : Set Nat} {L post : List Blk} {a n t : Nat} {b : Blk} {ch : CoreHeader}
  {l l₂ pt qt ts : List Nat} {m m' : Mem} {s : CoreState} {segs : List MemoryMapDescriptor}

/-- The block a free-list node describes. -/
def blkOf (m : Mem) (t : Nat) : Blk := ⟨t, noPages m t * 4096⟩

def CoreHeader.blk (ch : CoreHeader) : Blk := ⟨ch.physAddr, ch.noBlocks * 4096⟩

/-- Whole pages inside the address space, each of which `is_valid_block` accepts. -/
structure InRam (segs : List MemoryMapDescriptor) (b : Blk) : Prop where
  aligned : b.addr % 4096 = 0
  whole : b.len % 4096 = 0
  below : b.fin ≤ 4294967296
  usable : ∀ x, b.Has x → x % 4096 = 0 → isValidBlock segs ⟨x, 1⟩ = true

/-- The nodes met from `first_block` describe the blocks `L`. -/
def FreeList (s : CoreState) (L : List Blk) : Prop :=
  ∃ ts, Linked (nextBlock s.mem) (· = 0) s.firstBlock ts ∧ ts.map (blkOf s.mem) = L

theorem FreeList.unique {L' : List Blk} (h : FreeList s L) (h' : FreeList s L') : L = L' := by
  obtain ⟨ts, hts, rfl⟩ := h
  obtain ⟨ts', hts', rfl⟩ := h'
  rw [hts.unique hts']

/-- The free list is canonical and made of usable pages. -/
structure CoreOk (s : CoreState) (L : List Blk) : Prop where
  list : FreeList s L
  canon : Canon L
  ram : ∀ b ∈ L, InRam s.ramSegments b

/-! ## Usable pages -/

theorem isValidBlock_of_ne_zero (hn : n ≠ 0) :
    isValidBlock segs ⟨a, n⟩ = isValidBlock segs ⟨a, 1⟩ := by
  simp [isValidBlock, hn]

theorem InRam.valid
    (h : InRam segs ch.blk) (hn : ch.noBlocks ≠ 0) : isValidBlock segs ch = true := by
  rw [show ch = ⟨ch.physAddr, ch.noBlocks⟩ from rfl, isValidBlock_of_ne_zero hn]
  refine h.usable ch.physAddr ⟨Nat.le_refl _, ?_⟩ h.aligned
  show ch.physAddr < ch.physAddr + ch.noBlocks * 4096
  omega

variable {c : Blk} {pre : List Blk} {npages : Int} {v u : Nat}

theorem InRam.sub (h : InRam segs b) (ha : c.addr % 4096 = 0) (hw : c.len % 4096 = 0)
    (hlo : b.addr ≤ c.addr) (hhi : c.fin ≤ b.fin) : InRam segs c :=
  ⟨ha, hw, Nat.le_trans hhi h.below, fun x hx hp =>
    h.usable x ⟨Nat.le_trans hlo hx.1, Nat.lt_of_lt_of_le hx.2 hhi⟩ hp⟩

theorem InRam.join (hb : InRam segs b)
    (hc : InRam segs c) (htouch : b.fin = c.addr) : InRam segs ⟨b.addr, b.len + c.len⟩ := by
  have h1 := hb.whole
  have h2 := hc.whole
  have h3 := hc.below
  refine ⟨hb.aligned, by show (b.len + c.len) % 4096 = 0; omega, ?_, fun x hx hp => ?_⟩
  · unfold Blk.fin at *
    show b.addr + (b.len + c.len) ≤ 4294967296
    omega
  · by_cases hlt : x < b.fin
    · exact hb.usable x ⟨hx.1, hlt⟩ hp
    refine hc.usable x ⟨by omega, ?_⟩ hp
    have hxr := hx.2
    unfold Blk.fin at *
    simp only at hxr
    omega

theorem inRam_joinRight (hb : InRam segs b) (hpost : ∀ c ∈ post, InRam segs c) :
    ∀ c ∈ joinRight b post, InRam segs c := by
  cases post with
  | nil => exact forall_mem_singleton.mpr hb
  | cons d L =>
    obtain ⟨hd, hL⟩ := forall_mem_cons.mp hpost
    rw [joinRight]
    split
    · rename_i htouch
      exact forall_mem_cons.mpr ⟨hb.join hd htouch, hL⟩
    · exact forall_mem_cons.mpr ⟨hb, hpost⟩

theorem inRam_coalesce (hb : InRam segs b) (hL : ∀ c ∈ pre ++ post, InRam segs c) :
    ∀ c ∈ coalesce pre b post, InRam segs c := by
  obtain ⟨hpre, hpost⟩ := forall_mem_append.mp hL
  rcases eq_nil_or_concat' pre with rfl | ⟨pre, p, rfl⟩
  · exact inRam_joinRight hb hpost
  rw [forall_mem_append, forall_mem_singleton] at hpre
  obtain ⟨hpre, hp⟩ := hpre
  rw [coalesce_concat]
  refine forall_mem_append.mpr ⟨hpre, ?_⟩
  split
  · rename_i htouch
    exact inRam_joinRight (hp.join hb htouch) hpost
  · exact forall_mem_cons.mpr ⟨hp, inRam_joinRight hb hpost⟩

theorem inRam_carve (hL : ∀ c ∈ pre ++ b :: post, InRam segs c) (hn : n % 4096 = 0) :
    ∀ c ∈ carve pre b n post, InRam segs c := by
  obtain ⟨hpre, hpost⟩ := forall_mem_append.mp hL
  obtain ⟨hb, hpost⟩ := forall_mem_cons.mp hpost
  unfold carve
  split
  · rename_i hlt
    refine forall_mem_append.mpr ⟨hpre, forall_mem_cons.mpr ⟨?_, hpost⟩⟩
    have h1 := hb.aligned
    have h2 := hb.whole
    refine hb.sub ?_ ?_ (Nat.le_add_right _ _) ?_
    · show (b.addr + n) % 4096 = 0
      omega
    · show (b.len - n) % 4096 = 0
      omega
    · show b.addr + n + (b.len - n) ≤ b.addr + b.len
      omega
  · exact forall_mem_append.mpr ⟨hpre, hpost⟩

/-! ## The nodes of a good free list -/

section nodes

variable {s : CoreState} {ts : List Nat} {t : Nat}
  (hcan : Canon (ts.map (blkOf s.mem))) (hram : ∀ b ∈ ts.map (blkOf s.mem), InRam s.ramSegments b)
include hcan hram

theorem node_bounds (ht : t ∈ ts) :
    t % 4096 = 0 ∧ 0 < noPages s.mem t ∧ t + noPages s.mem t * 4096 ≤ 4294967296 := by
  have hmem : blkOf s.mem t ∈ ts.map (blkOf s.mem) := mem_map_of_mem ht
  have hpos : 0 < noPages s.mem t * 4096 := hcan.pos _ hmem
  exact ⟨(hram _ hmem).aligned, by omega, (hram _ hmem).below⟩

theorem length_le_listFuel : ts.length ≤ listFuel := by
  have h := hcan.length_le (k := 4096)
    (forall_mem_map.mpr fun t ht => by
      have := node_bounds hcan hram ht
      show 4096 ≤ noPages s.mem t * 4096
      omega)
    (fun _ _ => Nat.zero_le _) (fun b hb => (hram b hb).below) (by omega)
  rw [length_map] at h
  unfold listFuel
  omega

end nodes

/-! ## `core_alloc` -/

/-- Where the scan stands after the nodes `seen`: its candidate is one of them, it knows
    the hole the candidate would leave and the node before it. -/
def ScanOk (m : Mem) (npages : Int) (seen : List Nat) (acc : Scan) : Prop :=
  ∃ pre post, seen = pre ++ acc.baddr :: post ∧
    acc.holeSize = i32 (noPages m acc.baddr - npages) ∧
    acc.t1 = pre.getLastD 0 ∧ acc.t2 = seen.getLastD 0

theorem ScanOk.step {seen : List Nat} {acc : Scan} (h : ScanOk m npages seen acc) (t : Nat) :
    ScanOk m npages (seen ++ [t]) (scanStep m npages acc t) := by
  obtain ⟨pre, post, hseen, hhole, ht1, ht2⟩ := h
  -- Either the candidate stays, or `t` becomes it and `t2` the node before it.
  have hstay : ScanOk m npages (seen ++ [t]) { acc with t2 := t } :=
    ⟨pre, post ++ [t], by rw [hseen]; simp, hhole, ht1, by simp⟩
  have htake : ScanOk m npages (seen ++ [t])
      ⟨t, i32 (noPages m t - npages), acc.t2, t⟩ :=
    ⟨seen, [], rfl, rfl, ht2, by simp⟩
  unfold scanStep
  dsimp only
  split
  · split
    · exact htake
    · exact hstay
  · split
    · exact htake
    · exact hstay

theorem ScanOk.run : ∀ {rest seen : List Nat} {acc : Scan}, ScanOk m npages seen acc →
      ScanOk m npages (seen ++ rest) (rest.foldl (scanStep m npages) acc)
  | [], seen, acc, h => by simpa using h
  | t :: rest, seen, acc, h => by
    have hrun : ScanOk m npages (seen ++ [t] ++ rest) _ := ScanOk.run (h.step t)
    rwa [append_assoc, singleton_append] at hrun

/-- The words of the free blocks: nothing else is written by an allocation. -/
def FrameOff (m m' : Mem) (C : Set Nat) : Prop := ∀ a, a ∉ C → m' a = m a

theorem FrameOff.refl (m : Mem) (C : Set Nat) : FrameOff m m C := fun _ _ => rfl

theorem FrameOff.set (h : FrameOff m m' C) (ha : a ∈ C) : FrameOff m (m'.set a v) C := by
  intro x hx
  have hne : x ≠ a := fun he => hx (he ▸ ha)
  rw [set_ne hne]
  exact h x hx

theorem node_words_mem (hcan : Canon (ts.map (blkOf s.mem)))
    (hram : ∀ b ∈ ts.map (blkOf s.mem), InRam s.ramSegments b) (ht : t ∈ ts) :
    t ∈ cover (ts.map (blkOf s.mem)) ∧ t + 4 ∈ cover (ts.map (blkOf s.mem)) := by
  have hb := node_bounds hcan hram ht
  have hmem : blkOf s.mem t ∈ ts.map (blkOf s.mem) := mem_map_of_mem ht
  refine ⟨⟨_, hmem, Nat.le_refl _, ?_⟩, ⟨_, hmem, Nat.le_add_right _ _, ?_⟩⟩
  · show t < t + noPages s.mem t * 4096
    omega
  · show t + 4 < t + noPages s.mem t * 4096
    omega

/-- The nodes of `l` read the same in both memories. -/
def NodesKept (m m' : Mem) (l : List Nat) : Prop :=
  ∀ z ∈ l, m' z = m z ∧ m' (z + 4) = m (z + 4)

theorem NodesKept.refl (m : Mem) (l : List Nat) : NodesKept m m l := fun _ _ => ⟨rfl, rfl⟩

/-- Writing either word of a node leaves every other node alone: nodes stand at page
    boundaries. -/
theorem NodesKept.set {w : Nat} (h : NodesKept m m' l) (hal : ∀ z ∈ l, z % 4096 = 0)
    (hw : w % 4096 = 0) (hwl : w ∉ l) (ha : a = w ∨ a = w + 4) : NodesKept m (m'.set a v) l := by
  intro z hz
  have h1 := hal z hz
  have hne : z ≠ w := fun he => hwl (he ▸ hz)
  rw [set_ne (by omega), set_ne (by omega)]
  exact h z hz

theorem NodesKept.map (h : NodesKept m m' l) : l.map (blkOf m') = l.map (blkOf m) := by
  refine map_congr_left fun z hz => ?_
  show (⟨z, m' z * 4096⟩ : Blk) = ⟨z, m z * 4096⟩
  rw [(h z hz).1]

theorem NodesKept.linked {p : Nat} (h : NodesKept m m' l)
    (hl : Linked (nextBlock m) (· = 0) p l) : Linked (nextBlock m') (· = 0) p l :=
  hl.congr fun z hz => (h z hz).2

theorem NodesKept.mono {l' : List Nat} (h : NodesKept m m' l)
    (hsub : ∀ z ∈ l', z ∈ l) : NodesKept m m' l' := fun z hz => h z (hsub z hz)

theorem FrameOff.kept {D : List Nat} (h : FrameOff m m' {x | ∃ w ∈ D, x = w ∨ x = w + 4})
    (hD : ∀ w ∈ D, w % 4096 = 0) (hl : ∀ z ∈ l, z % 4096 = 0 ∧ z ∉ D) : NodesKept m m' l := by
  intro z hz
  obtain ⟨hal, hzD⟩ := hl z hz
  have hoff : ∀ x, x = z ∨ x = z + 4 → m' x = m x := by
    rintro x hx
    refine h x fun ⟨w, hw, hxw⟩ => hzD ?_
    have := hD w hw
    rwa [show z = w by omega]
  exact ⟨hoff z (.inl rfl), hoff (z + 4) (.inr rfl)⟩

section

variable (hlink : Linked (nextBlock s.mem) (· = 0) s.firstBlock (pt ++ t :: qt))
include hlink

/-- **The list from node `t` on is replaced** by one that starts at `x`: `first_block` or the node
    before `t` leads there. -/
theorem relink_spec {x : Nat} (hal : ∀ z ∈ pt, z % 4096 = 0) (hkept : NodesKept s.mem m' pt)
    (hts : Linked (nextBlock m') (· = 0) x ts) (halts : ∀ z ∈ ts, z % 4096 = 0)
    (hapart : ∀ z ∈ ts, z ∉ pt) :
    FreeList (if t = s.firstBlock then { s with mem := m', firstBlock := x }
        else { s with mem := m'.set (pt.getLastD 0 + 4) x })
      (pt.map (blkOf s.mem) ++ ts.map (blkOf m')) := by
  rcases eq_nil_or_concat' pt with rfl | ⟨pt, a, rfl⟩
  · rw [if_pos hlink.1.symm]
    exact ⟨ts, hts, rfl⟩
  rw [append_assoc, singleton_append] at hlink
  obtain ⟨hne, -, hap, -⟩ := hlink.behind
  have ha : a % 4096 = 0 := hal a (by simp)
  have hpt : NodesKept s.mem (m'.set (a + 4) x) pt :=
    (hkept.mono fun z hz => by simp [hz]).set (fun z hz => hal z (by simp [hz])) ha hap (.inr rfl)
  have hts' : NodesKept m' (m'.set (a + 4) x) ts :=
    (NodesKept.refl _ _).set halts ha (fun hc => hapart a hc (by simp)) (.inr rfl)
  have hblk : blkOf (m'.set (a + 4) x) a = blkOf s.mem a := by
    rw [blkOf, blkOf, noPages, noPages, set_ne (by omega), (hkept a (by simp)).1]
  rw [if_neg hne, show (pt ++ [a]).getLastD 0 = a by simp]
  refine ⟨pt ++ a :: ts, ?_, ?_⟩
  · refine hlink.splice (fun z hz => (hpt z hz).2) ?_
    rw [show nextBlock (m'.set (a + 4) x) a = x from set_same _ _ _]
    exact hts'.linked hts
  · rw [map_append, hpt.map, map_cons, hblk, hts'.map, map_append, append_assoc]
    rfl

/-- Dropping the chosen node: `first_block` or the node before it skips over it. -/
theorem unlink_spec (hal : ∀ z ∈ pt ++ t :: qt, z % 4096 = 0) :
    let s' := if t = s.firstBlock then { s with firstBlock := nextBlock s.mem t }
      else { s with mem := s.mem.set (pt.getLastD 0 + 4) (nextBlock s.mem t) }
    FreeList s' (pt.map (blkOf s.mem) ++ qt.map (blkOf s.mem)) := by
  obtain ⟨r, -, rfl, -, hrest⟩ := linked_append.mp hlink
  have hnd := nodup_append.mp hlink.nodup
  exact relink_spec hlink (fun z hz => hal z (by simp [hz])) (NodesKept.refl _ _) hrest
    (fun z hz => hal z (by simp [hz])) fun z hz hc => hnd.2.2 z hc z (by simp [hz]) rfl

/-- Leaving the tail of the chosen node in its place: the node moves up to `u`, a page
    boundary inside its own run. -/
theorem shrink_spec {k : Nat} (hal : ∀ z ∈ pt ++ t :: qt, z % 4096 = 0) (hu : u % 4096 = 0)
    (hu0 : u ≠ 0) (hfresh : ∀ z ∈ pt ++ qt, z ≠ u) :
    let m := s.mem.set u k
    let m := m.set (u + 4) (nextBlock m t)
    let s' := if t = s.firstBlock then { s with mem := m, firstBlock := u }
      else { s with mem := m.set (pt.getLastD 0 + 4) u }
    FreeList s' (pt.map (blkOf s.mem) ++ ⟨u, k * 4096⟩ :: qt.map (blkOf s.mem)) := by
  intro m1 m2 s'
  obtain ⟨r, -, rfl, -, hrest⟩ := linked_append.mp hlink
  have hnd := nodup_append.mp hlink.nodup
  have halp : ∀ z ∈ pt, z % 4096 = 0 := fun z hz => hal z (by simp [hz])
  have halq : ∀ z ∈ qt, z % 4096 = 0 := fun z hz => hal z (by simp [hz])
  have hkept : ∀ {l : List Nat}, (∀ z ∈ l, z % 4096 = 0) → u ∉ l → NodesKept s.mem m2 l :=
    fun hl hul => ((NodesKept.refl _ _).set hl hu hul (.inl rfl)).set hl hu hul (.inr rfl)
  have hup : u ∉ pt := fun hc => hfresh u (by simp [hc]) rfl
  have hkeptq := hkept halq fun hc => hfresh u (by simp [hc]) rfl
  have hnext : nextBlock m2 u = nextBlock s.mem r := by
    have hr := hal r (by simp)
    exact (set_same _ _ _).trans (set_ne (by omega))
  have hblk : blkOf m2 u = ⟨u, k * 4096⟩ := by
    have hcount : m2 u = k := (set_ne (by omega)).trans (set_same _ _ _)
    rw [blkOf, noPages, hcount]
  have hts : Linked (nextBlock m2) (· = 0) u (u :: qt) := by
    refine ⟨rfl, hu0, ?_⟩
    rw [hnext]
    exact hkeptq.linked hrest
  have hlist := relink_spec hlink halp (hkept halp hup) hts (forall_mem_cons.mpr ⟨hu, halq⟩)
    (forall_mem_cons.mpr ⟨hup, fun z hz hc => hnd.2.2 z hc z (by simp [hz]) rfl⟩)
  rw [map_cons, hblk, hkeptq.map] at hlist
  exact hlist

end

theorem node_not_in_run (hcan : Canon ((pt ++ t :: qt).map (blkOf s.mem)))
    (hu : (blkOf s.mem t).Has u) : ∀ z ∈ pt ++ qt, z ≠ u := by
  intro z hz he
  rw [map_append, map_cons] at hcan
  obtain ⟨h1, h2, h3⟩ := canon_append.mp hcan
  obtain ⟨-, h4, h5⟩ := canon_cons.mp h2
  have hlo := hu.1
  have hhi := hu.2
  rcases mem_append.mp hz with hz | hz
  · have hgap := h3 _ (mem_map_of_mem hz) _ mem_cons_self
    have hpos := h1.pos _ (mem_map_of_mem hz)
    simp only [blkOf, Blk.fin] at hgap hpos hlo
    omega
  · have hgap := h4 _ (mem_map_of_mem hz)
    simp only [blkOf, Blk.fin] at hgap hhi
    omega

/-- The list after an allocation from node `t`, by the hole it leaves. -/
theorem allocUpdate_spec {best : Scan} (hlink : Linked (nextBlock s.mem) (· = 0) s.firstBlock ts)
    (hcan : Canon (ts.map (blkOf s.mem))) (hram : ∀ b ∈ ts.map (blkOf s.mem), InRam s.ramSegments b)
    (hn : n < 2147483648) (hbest : ScanOk s.mem n ts best) :
    ∃ pre b post, ts.map (blkOf s.mem) = pre ++ b :: post ∧
      (allocHeader n best).physAddr = b.addr ∧
      (allocHeader n best).noBlocks * 4096 = min (n * 4096) b.len ∧
      FreeList (allocUpdate s n best) (carve pre b (min (n * 4096) b.len) post) ∧
      FrameOff s.mem (allocUpdate s n best).mem (cover (ts.map (blkOf s.mem))) := by
  obtain ⟨pt, qt, rfl, hhole, ht1, -⟩ := hbest
  obtain ⟨t, hole, t1, t2⟩ := best
  simp only at hlink hcan hram hhole ht1
  subst ht1
  have hal : ∀ z ∈ pt ++ t :: qt, z % 4096 = 0 := fun z hz => (node_bounds hcan hram hz).1
  obtain ⟨htal, htpos, htfin⟩ := node_bounds hcan hram (t := t) (by simp)
  have hwords : ∀ z ∈ pt ++ t :: qt, z + 4 ∈ cover ((pt ++ t :: qt).map (blkOf s.mem)) :=
    fun z hz => (node_words_mem hcan hram hz).2
  have hpt4 : pt ≠ [] → pt.getLastD 0 + 4 ∈ cover ((pt ++ t :: qt).map (blkOf s.mem)) := by
    intro hpt
    refine hwords _ (mem_append_left _ ?_)
    rw [getLastD_eq_getLast?, getLast?_eq_some_getLast hpt]
    exact getLast_mem hpt
  have hfirst : pt = [] → t = s.firstBlock := by
    rintro rfl
    exact hlink.1.symm
  have hhole' : hole = (noPages s.mem t : Int) - n := by
    rw [hhole]
    exact i32_of_range (by omega) (by omega)
  refine ⟨pt.map (blkOf s.mem), blkOf s.mem t, qt.map (blkOf s.mem), by simp, rfl, ?_⟩
  have hlen : (blkOf s.mem t).len = noPages s.mem t * 4096 := rfl
  by_cases hle : hole ≤ 0
  · -- The run is used up.
    have hk : min (n * 4096) (blkOf s.mem t).len = noPages s.mem t * 4096 := by
      omega
    have hcarve : carve (pt.map (blkOf s.mem)) (blkOf s.mem t)
        (min (n * 4096) (blkOf s.mem t).len) (qt.map (blkOf s.mem)) =
        pt.map (blkOf s.mem) ++ qt.map (blkOf s.mem) := by
      rw [hk, carve, if_neg (by rw [hlen]; omega)]
    refine ⟨?_, ?_, ?_⟩
    · rw [hk]
      show (if 0 ≤ hole then u32 n else u32 (n + hole)) * 4096 = _
      split
      · rw [u32_of_lt (by omega)]
        omega
      · rw [show (n : Int) + hole = noPages s.mem t by omega, u32_of_lt (by omega)]
    · rw [hcarve]
      have h := unlink_spec hlink hal
      simp only [allocUpdate, if_pos hle]
      exact h
    · simp only [allocUpdate, if_pos hle]
      by_cases hf : t = s.firstBlock
      · rw [if_pos hf]
        exact FrameOff.refl _ _
      · rw [if_neg hf]
        exact (FrameOff.refl _ _).set (hpt4 fun h => hf (hfirst h))
  · -- The run keeps its last `hole` pages.
    have hu : u32 ((t : Int) + n * 4096) = t + n * 4096 :=
      u32_of_lt (x := t + n * 4096) (by omega)
    have hh : u32 hole = noPages s.mem t - n := by
      rw [show hole = ((noPages s.mem t - n : Nat) : Int) by omega]
      exact u32_of_lt (by omega)
    have hk : min (n * 4096) (blkOf s.mem t).len = n * 4096 := by
      omega
    have hcarve : carve (pt.map (blkOf s.mem)) (blkOf s.mem t)
        (min (n * 4096) (blkOf s.mem t).len) (qt.map (blkOf s.mem)) =
        pt.map (blkOf s.mem) ++
          ⟨t + n * 4096, (noPages s.mem t - n) * 4096⟩ :: qt.map (blkOf s.mem) := by
      rw [hk, carve, if_pos (by rw [hlen]; omega), hlen, Nat.sub_mul]
      rfl
    have hin : (blkOf s.mem t).Has (t + n * 4096) ∧ (blkOf s.mem t).Has (t + n * 4096 + 4) := by
      refine ⟨⟨Nat.le_add_right _ _, ?_⟩, ⟨by show t ≤ _; omega, ?_⟩⟩
      · show t + n * 4096 < t + noPages s.mem t * 4096
        omega
      · show t + n * 4096 + 4 < t + noPages s.mem t * 4096
        omega
    have hmemt : blkOf s.mem t ∈ (pt ++ t :: qt).map (blkOf s.mem) :=
      mem_map_of_mem (by simp)
    refine ⟨?_, ?_, ?_⟩
    · rw [hk]
      show (if 0 ≤ hole then u32 n else u32 (n + hole)) * 4096 = _
      rw [if_pos (by omega), u32_of_lt (by omega)]
    · rw [hcarve]
      have h0 : t ≠ 0 := hlink.not_stop t (by simp)
      have h := shrink_spec (k := noPages s.mem t - n) (u := t + n * 4096) hlink hal (by omega)
        (by omega) (node_not_in_run hcan hin.1)
      simp only [allocUpdate, if_neg hle, hu, hh]
      exact h
    · simp only [allocUpdate, if_neg hle, hu, hh]
      have hin1 : t + n * 4096 ∈ cover ((pt ++ t :: qt).map (blkOf s.mem)) := ⟨_, hmemt, hin.1⟩
      have hin2 : t + n * 4096 + 4 ∈ cover ((pt ++ t :: qt).map (blkOf s.mem)) :=
        ⟨_, hmemt, hin.2⟩
      have hbase : ∀ v w, FrameOff s.mem ((s.mem.set (t + n * 4096) v).set (t + n * 4096 + 4) w)
          (cover ((pt ++ t :: qt).map (blkOf s.mem))) := fun v w =>
        ((FrameOff.refl _ _).set hin1).set hin2
      by_cases hf : t = s.firstBlock
      · rw [if_pos hf]
        exact hbase _ _
      · rw [if_neg hf]
        exact (hbase _ _).set (hpt4 fun h => hf (hfirst h))

@[simp] theorem allocUpdate_ramSegments (s : CoreState) (n : Int) (best : Scan) :
    (allocUpdate s n best).ramSegments = s.ramSegments := by
  unfold allocUpdate
  dsimp only
  split
  · split <;> rfl
  · split <;> rfl

/-- **`core_alloc` takes pages from the front of one free block**: as many as were asked
    for, or all of that block. With no free block it returns no pages and changes
    nothing. -/
theorem coreAlloc_spec (h : CoreOk s L) (hn : n < 2147483648) :
    ∃ ch s', coreAlloc s n = some (ch, s') ∧
      ((L = [] ∧ ch.noBlocks = 0 ∧ s' = s) ∨
        ∃ pre b post, L = pre ++ b :: post ∧ ch.physAddr = b.addr ∧
          ch.noBlocks * 4096 = min (n * 4096) b.len ∧
          CoreOk s' (carve pre b (ch.noBlocks * 4096) post) ∧
          s'.ramSegments = s.ramSegments ∧ FrameOff s.mem s'.mem (cover L)) := by
  obtain ⟨⟨ts, hlink, rfl⟩, hcan, hram⟩ := h
  cases ts with
  | nil =>
    have h0 : s.firstBlock = 0 := hlink
    exact ⟨⟨0, 0⟩, s, by simp [coreAlloc, h0], .inl ⟨rfl, rfl, rfl⟩⟩
  | cons t ts =>
    have hfuel := length_le_listFuel hcan hram
    obtain ⟨hfirst, h0, hrest⟩ := hlink
    have hlink : Linked (nextBlock s.mem) (· = 0) s.firstBlock (t :: ts) := ⟨hfirst, h0, hrest⟩
    have hstart : ScanOk s.mem n [t] ⟨t, i32 (noPages s.mem t - n), 0, t⟩ :=
      ⟨[], [], rfl, rfl, rfl, rfl⟩
    have hbest := @ScanOk.run s.mem n ts [t] _ hstart
    obtain ⟨pre, b, post, hL, haddr, hk, hfl, hfr⟩ :=
      allocUpdate_spec hlink hcan hram hn hbest
    refine ⟨_, _, ?_, .inr ⟨pre, b, post, hL, haddr, hk, ⟨hk ▸ hfl, ?_, ?_⟩,
      allocUpdate_ramSegments _ _ _, hfr⟩⟩
    · unfold coreAlloc
      rw [if_neg (by rw [hfirst]; exact h0)]
      dsimp only
      rw [hfirst, walk_of_linked hrest (by simp at hfuel; omega)]
    · exact carve_canon (hL ▸ hcan)
    · rw [allocUpdate_ramSegments]
      exact inRam_carve (hL ▸ hram) (by omega)

/-! ## `core_free` -/

/-- `ch` stands in front of the nodes `l₂`, all of them inside the address space. -/
structure Ahead (m : Mem) (ch : CoreHeader) (l₂ : List Nat) : Prop where
  physPos : ch.physAddr ≠ 0
  after : ∀ z ∈ l₂, ch.physAddr + ch.noBlocks * 4096 ≤ z
  nodePos : ∀ z ∈ l₂, 0 < noPages m z
  below : ∀ z ∈ l₂, z + noPages m z * 4096 ≤ 4294967296

theorem Ahead.touch_iff {d : Nat} (h : Ahead m ch (d :: l₂)) :
    (d ≠ 0 ∧ u32 ((ch.physAddr : Int) + ch.noBlocks * 4096) = d) ↔ ch.blk.fin = d := by
  have h1 := h.after d mem_cons_self
  have h2 := h.below d mem_cons_self
  have h3 := h.nodePos d mem_cons_self
  have h4 := h.physPos
  rw [show u32 ((ch.physAddr : Int) + ch.noBlocks * 4096) = _ from
    u32_of_lt (x := ch.physAddr + ch.noBlocks * 4096) (by omega)]
  show _ ↔ ch.physAddr + ch.noBlocks * 4096 = d
  exact ⟨fun hd => hd.2, fun hd => ⟨by omega, hd⟩⟩

/-- **The two branches for the next node.** If the new memory has at `ch` either the joined
    count and the link of the next node, or the count of `ch` and a link to the next node,
    as the test for touching demands, then its nodes from `ch` on are `joinRight`. -/
theorem Ahead.list {q : Nat}
    (h : Ahead m ch l₂) (hq : Linked (nextBlock m) (· = 0) q l₂) (hkept : NodesKept m m' l₂)
    (hwords : if q ≠ 0 ∧ u32 ((ch.physAddr : Int) + ch.noBlocks * 4096) = q
      then m' ch.physAddr = u32 ((ch.noBlocks : Int) + noPages m q) ∧
        m' (ch.physAddr + 4) = nextBlock m q
      else m' ch.physAddr = ch.noBlocks ∧ m' (ch.physAddr + 4) = q) :
    ∃ ts, Linked (nextBlock m') (· = 0) ch.physAddr ts ∧
      ts.map (blkOf m') = joinRight ch.blk (l₂.map (blkOf m)) := by
  cases l₂ with
  | nil =>
    obtain rfl : q = 0 := hq
    refine ⟨[ch.physAddr], ⟨rfl, h.physPos, hwords.2⟩, ?_⟩
    rw [map_singleton, blkOf, noPages, hwords.1]
    rfl
  | cons d l₂ =>
    obtain ⟨rfl, hd0, hd⟩ := hq
    have hkept2 : NodesKept m m' l₂ := hkept.mono fun z hz => mem_cons_of_mem _ hz
    by_cases htouch : ch.blk.fin = q
    · rw [if_pos (h.touch_iff.mpr htouch)] at hwords
      have hsum : u32 ((ch.noBlocks : Int) + noPages m q) = ch.noBlocks + noPages m q := by
        have h1 := h.below q mem_cons_self
        have h2 : ch.physAddr + ch.noBlocks * 4096 = q := htouch
        exact u32_of_lt (x := ch.noBlocks + noPages m q) (by omega)
      refine ⟨ch.physAddr :: l₂, ⟨rfl, h.physPos, ?_⟩, ?_⟩
      · rw [show nextBlock m' ch.physAddr = nextBlock m q from hwords.2]
        exact hkept2.linked hd
      · rw [map_cons, map_cons, hkept2.map, joinRight, if_pos (by exact htouch), blkOf,
          noPages, hwords.1, hsum, Nat.add_mul]
        rfl
    · rw [if_neg (fun hc => htouch (h.touch_iff.mp hc))] at hwords
      refine ⟨ch.physAddr :: q :: l₂, ⟨rfl, h.physPos, ?_⟩, ?_⟩
      · rw [show nextBlock m' ch.physAddr = q from hwords.2]
        exact hkept.linked ⟨rfl, hd0, hd⟩
      · rw [map_cons, hkept.map, map_cons, joinRight, if_neg (by exact htouch), blkOf,
          noPages, hwords.1]
        rfl

theorem freeAtFront_frame (h1 : ch.physAddr ∈ C) (h2 : ch.physAddr + 4 ∈ C) :
    FrameOff s.mem (freeAtFront s ch).mem C := by
  unfold freeAtFront
  dsimp only
  split
  · exact (((FrameOff.refl _ _).set h1).set h1).set h2
  · exact ((FrameOff.refl _ _).set h1).set h2

theorem freeAfter_frame
    (h1 : ch.physAddr ∈ C) (h2 : ch.physAddr + 4 ∈ C) (h3 : a ∈ C) (h4 : a + 4 ∈ C) :
    FrameOff s.mem (freeAfter s ch a).mem C := by
  unfold freeAfter
  dsimp only
  split
  · split
    · exact (((FrameOff.refl _ _).set h3).set h3).set h4
    · exact (FrameOff.refl _ _).set h3
  · split
    · exact (((FrameOff.refl _ _).set h4).set h1).set h2
    · exact (((FrameOff.refl _ _).set h4).set h1).set h2

@[simp] theorem freeAtFront_ramSegments (s : CoreState) (ch : CoreHeader) :
    (freeAtFront s ch).ramSegments = s.ramSegments := by
  unfold freeAtFront
  dsimp only
  split <;> rfl

@[simp] theorem freeAfter_ramSegments (s : CoreState) (ch : CoreHeader) (a : Nat) :
    (freeAfter s ch a).ramSegments = s.ramSegments := by
  unfold freeAfter
  dsimp only
  split
  · split <;> rfl
  · split <;> rfl

@[simp] theorem freeAfter_firstBlock (s : CoreState) (ch : CoreHeader) (a : Nat) :
    (freeAfter s ch a).firstBlock = s.firstBlock := by
  unfold freeAfter
  dsimp only
  split
  · split <;> rfl
  · split <;> rfl

theorem freeAtFront_list
    (h : Ahead s.mem ch l₂) (hlink : Linked (nextBlock s.mem) (· = 0) s.firstBlock l₂)
    (hal : ∀ z ∈ l₂, z % 4096 = 0) (hphys : ch.physAddr % 4096 = 0) (hfresh : ch.physAddr ∉ l₂) :
    FreeList (freeAtFront s ch) (joinRight ch.blk (l₂.map (blkOf s.mem))) := by
  have hfirst : (freeAtFront s ch).firstBlock = ch.physAddr := by
    unfold freeAtFront
    dsimp only
    split <;> rfl
  have hkept : NodesKept s.mem (freeAtFront s ch).mem l₂ := by
    exact (freeAtFront_frame (by simp) (by simp)).kept (D := [ch.physAddr]) (by simpa using hphys)
      fun z hz => ⟨hal z hz, fun hc => hfresh (mem_singleton.mp hc ▸ hz)⟩
  unfold FreeList
  rw [hfirst]
  refine h.list hlink hkept ?_
  unfold freeAtFront
  by_cases hc : s.firstBlock ≠ 0 ∧
      u32 ((ch.physAddr : Int) + ch.noBlocks * 4096) = s.firstBlock
  · have hq : s.firstBlock ∈ l₂ := hlink.stop_or_mem.resolve_left hc.1
    have h1 := hal _ hq
    have hne : s.firstBlock ≠ ch.physAddr := fun he => hfresh (he ▸ hq)
    rw [if_pos hc, if_pos hc]
    simp (disch := omega) only [noPages, nextBlock, set_same, set_ne, and_self]
  · rw [if_neg hc, if_neg hc]
    simp (disch := omega) only [set_same, set_ne, and_self]

section after

variable {s : CoreState} {ch : CoreHeader} {pt l₂ : List Nat} {a : Nat}
  (hlink : Linked (nextBlock s.mem) (· = 0) s.firstBlock (pt ++ a :: l₂))
  (hal : ∀ z ∈ pt ++ a :: l₂, z % 4096 = 0) (hphys : ch.physAddr % 4096 = 0)
  (hfresh : ch.physAddr ∉ pt ++ a :: l₂)
include hlink hal hphys hfresh

theorem freeAfter_kept : NodesKept s.mem (freeAfter s ch a).mem pt ∧
    NodesKept s.mem (freeAfter s ch a).mem l₂ := by
  have hnd := (nodup_middle.mp hlink.nodup).notMem
  have hkept : NodesKept s.mem (freeAfter s ch a).mem (pt ++ l₂) := by
    refine (freeAfter_frame (by simp) (by simp) (by simp) (by simp)).kept (D := [ch.physAddr, a]) ?_
      fun z hz => ?_
    · exact forall_mem_cons.mpr ⟨hphys, fun w hw => hal w (by simp [mem_singleton.mp hw])⟩
    · have hz' : z ∈ pt ++ a :: l₂ := by
        simp only [mem_append, mem_cons] at hz ⊢
        tauto
      refine ⟨hal z hz', fun hc => ?_⟩
      rcases mem_pair.mp hc with rfl | rfl
      · exact hfresh hz'
      · exact hnd hz
  exact ⟨hkept.mono fun z hz => by simp [hz], hkept.mono fun z hz => by simp [hz]⟩

theorem freeAfter_join (h : Ahead s.mem ⟨a, noPages s.mem a + ch.noBlocks⟩ l₂)
    (htouch : u32 ((a : Int) + noPages s.mem a * 4096) = ch.physAddr)
    (hsum : noPages s.mem a + ch.noBlocks < 4294967296) :
    FreeList (freeAfter s ch a) (pt.map (blkOf s.mem) ++
      joinRight ⟨a, (noPages s.mem a + ch.noBlocks) * 4096⟩ (l₂.map (blkOf s.mem))) := by
  obtain ⟨hk1, hk2⟩ := freeAfter_kept hlink hal hphys hfresh
  obtain ⟨r, hseg, rfl, ha0, hl2⟩ := linked_append.mp hlink
  have ha : r % 4096 = 0 := hal r (by simp)
  have hu : u32 ((noPages s.mem r : Int) + ch.noBlocks) = noPages s.mem r + ch.noBlocks :=
    u32_of_lt (x := noPages s.mem r + ch.noBlocks) hsum
  obtain ⟨ts, hts, hmap⟩ := h.list hl2 hk2 (by
    unfold freeAfter
    dsimp only
    rw [if_pos htouch]
    have hpages : noPages (s.mem.set r (u32 ((noPages s.mem r : Int) + ch.noBlocks))) r =
        noPages s.mem r + ch.noBlocks := by rw [noPages, set_same, hu]
    rw [hpages]
    by_cases hc : nextBlock s.mem r ≠ 0 ∧
        u32 ((r : Int) + (noPages s.mem r + ch.noBlocks : Nat) * 4096) = nextBlock s.mem r
    · have hq : nextBlock s.mem r ∈ l₂ := hl2.stop_or_mem.resolve_left hc.1
      have h1 := hal _ (mem_append_right _ (mem_cons_of_mem _ hq))
      have hne : nextBlock s.mem r ≠ r := fun he =>
        (nodup_middle.mp hlink.nodup).notMem (mem_append_right _ (he ▸ hq))
      rw [if_pos hc, if_pos hc]
      simp only [noPages, nextBlock] at hne h1 ⊢
      simp (disch := omega) only [set_same, set_ne, and_self]
    · rw [if_neg hc, if_neg hc]
      simp (disch := omega) only [set_same, set_ne, hu, nextBlock, and_self])
  refine ⟨pt ++ ts, ?_, ?_⟩
  · rw [freeAfter_firstBlock]
    exact linked_append.mpr ⟨r, hseg.congr fun z hz => (hk1 z hz).2, hts⟩
  · rw [map_append, hk1.map, hmap]
    rfl

/-- The run does not touch node `a`: it becomes a node of its own behind `a`. -/
theorem freeAfter_insert (h : Ahead s.mem ch l₂)
    (htouch : u32 ((a : Int) + noPages s.mem a * 4096) ≠ ch.physAddr) :
    FreeList (freeAfter s ch a) (pt.map (blkOf s.mem) ++
      blkOf s.mem a :: joinRight ch.blk (l₂.map (blkOf s.mem))) := by
  obtain ⟨hk1, hk2⟩ := freeAfter_kept hlink hal hphys hfresh
  obtain ⟨r, -, rfl, ha0, hl2⟩ := linked_append.mp hlink
  have ha : r % 4096 = 0 := hal r (by simp)
  have hfr : ch.physAddr ≠ r := fun he => hfresh (by simp [he])
  -- Both branches write the link of `r` and the two words of the run.
  have hr : nextBlock (freeAfter s ch r).mem r = ch.physAddr ∧
      blkOf (freeAfter s ch r).mem r = blkOf s.mem r := by
    unfold freeAfter
    rw [if_neg htouch]
    split <;> simp (disch := omega) only [nextBlock, blkOf, noPages, set_ne, set_same, and_self]
  obtain ⟨ts, hts, hmap⟩ := h.list hl2 hk2 (by
    unfold freeAfter
    rw [if_neg htouch]
    by_cases hc : nextBlock s.mem r ≠ 0 ∧
        u32 ((ch.physAddr : Int) + ch.noBlocks * 4096) = nextBlock s.mem r
    · have hq : nextBlock s.mem r ∈ r :: l₂ := mem_cons_of_mem _ (hl2.stop_or_mem.resolve_left hc.1)
      have h1 := hal _ (mem_append_right _ hq)
      have h2 : nextBlock s.mem r ≠ r := fun he =>
        (nodup_middle.mp hlink.nodup).notMem (mem_append_right _ (he ▸ hl2.stop_or_mem.resolve_left hc.1))
      have h3 : nextBlock s.mem r ≠ ch.physAddr := fun he => hfresh (mem_append_right _ (he ▸ hq))
      rw [if_pos hc, if_pos hc]
      simp only [noPages, nextBlock] at h1 h2 h3 ⊢
      simp (disch := omega) only [set_same, set_ne, and_self]
    · rw [if_neg hc, if_neg hc]
      simp (disch := omega) only [set_same, set_ne, and_self])
  refine ⟨pt ++ r :: ts, ?_, ?_⟩
  · rw [freeAfter_firstBlock]
    refine hlink.splice (fun z hz => (hk1 z hz).2) ?_
    rw [hr.1]
    exact hts
  · rw [map_append, hk1.map, map_cons, hr.2, hmap]

end after

/-- The search of `find_mem_block_before` splits the nodes at the run. -/
theorem findMemBlockBefore_spec (ch : CoreHeader)
    (hlink : Linked (nextBlock s.mem) (· = 0) s.firstBlock ts) (hfuel : ts.length ≤ listFuel)
    (hsorted : (ts.map (blkOf s.mem)).Pairwise fun b c => b.fin < c.addr) :
    ∃ l1 l₂, ts = l1 ++ l₂ ∧ (∀ z ∈ l1, z < ch.physAddr) ∧ (∀ z ∈ l₂, ch.physAddr ≤ z) ∧
      findMemBlockBefore s ch = some (l1.getLastD 0) := by
  obtain ⟨l1, l₂, rfl, h1, h2, hseek⟩ :=
    seek_of_linked (fun t => !decide (t < ch.physAddr)) 0 hlink hfuel
  refine ⟨l1, l₂, rfl, fun z hz => by simpa using h1 z hz, ?_, ?_⟩
  · -- Only the first of `l₂` was tested; the rest is above it.
    cases l₂ with
    | nil => simp
    | cons d l₂ =>
      have hd : ch.physAddr ≤ d := by simpa using h2 d rfl
      intro z hz
      rcases mem_cons.mp hz with rfl | hz
      · exact hd
      rw [map_append, map_cons] at hsorted
      have hsep := (pairwise_append.mp hsorted).2.1
      have hlt : (blkOf s.mem d).fin < z :=
        (pairwise_cons.mp hsep).1 _ (mem_map_of_mem hz)
      have hle : d ≤ (blkOf s.mem d).fin := Nat.le_add_right _ _
      omega
  · rw [findMemBlockBefore, hseek]
    rfl

/-- **`core_free` puts the run back in its place**: between the free blocks below it and
    those above it, joined with whichever it touches. -/
theorem coreFree_spec (h : CoreOk s L) (hb : InRam s.ramSegments ch.blk) (hn : ch.noBlocks ≠ 0)
    (h0 : ch.physAddr ≠ 0) (hap : ∀ c ∈ L, ch.blk.Apart c) :
    ∃ s' pre post, coreFree s ch = some s' ∧ L = pre ++ post ∧
      CoreOk s' (coalesce pre ch.blk post) ∧ s'.ramSegments = s.ramSegments ∧
      FrameOff s.mem s'.mem (cover L ∪ {x | ch.blk.Has x}) := by
  obtain ⟨⟨ts, hlink, rfl⟩, hcan, hram⟩ := h
  obtain ⟨l1, l₂, rfl, hlt, hge, hfind⟩ :=
    findMemBlockBefore_spec ch hlink (length_le_listFuel hcan hram) hcan.sep
  have hbounds := fun z (hz : z ∈ l1 ++ l₂) => node_bounds hcan hram hz
  have hal : ∀ z ∈ l1 ++ l₂, z % 4096 = 0 := fun z hz => (hbounds z hz).1
  have hphys : ch.physAddr % 4096 = 0 := hb.aligned
  have hblen : 0 < ch.blk.len := by
    show 0 < ch.noBlocks * 4096
    omega
  have hbelow : ch.physAddr + ch.noBlocks * 4096 ≤ 4294967296 := hb.below
  have hbefore : ∀ z ∈ l1, z + noPages s.mem z * 4096 ≤ ch.physAddr := by
    intro z hz
    have h1 := hlt z hz
    have h2 : ch.physAddr + ch.noBlocks * 4096 ≤ z ∨ z + noPages s.mem z * 4096 ≤ ch.physAddr :=
      hap _ (mem_map_of_mem (mem_append_left _ hz))
    omega
  have hafter : ∀ z ∈ l₂, ch.physAddr + ch.noBlocks * 4096 ≤ z := by
    intro z hz
    have h1 := hge z hz
    have h2 : ch.physAddr + ch.noBlocks * 4096 ≤ z ∨ z + noPages s.mem z * 4096 ≤ ch.physAddr :=
      hap _ (mem_map_of_mem (mem_append_right _ hz))
    have h3 := (hbounds z (mem_append_right _ hz)).2.1
    omega
  have hfresh : ch.physAddr ∉ l1 ++ l₂ := by
    intro hz
    rcases mem_append.mp hz with hz | hz
    · exact absurd (hlt _ hz) (Nat.lt_irrefl _)
    · have := hafter _ hz
      omega
  have hahead : Ahead s.mem ch l₂ := ⟨h0, hafter,
    fun z hz => (hbounds z (mem_append_right _ hz)).2.1,
    fun z hz => (hbounds z (mem_append_right _ hz)).2.2⟩
  have hin1 : ch.physAddr ∈ cover ((l1 ++ l₂).map (blkOf s.mem)) ∪ {x | ch.blk.Has x} :=
    .inr ⟨Nat.le_refl _, by show ch.physAddr < ch.physAddr + ch.noBlocks * 4096; omega⟩
  have hin2 : ch.physAddr + 4 ∈ cover ((l1 ++ l₂).map (blkOf s.mem)) ∪ {x | ch.blk.Has x} :=
    .inr ⟨Nat.le_add_right _ _,
      by show ch.physAddr + 4 < ch.physAddr + ch.noBlocks * 4096; omega⟩
  have hwords : ∀ z ∈ l1 ++ l₂,
      z ∈ cover ((l1 ++ l₂).map (blkOf s.mem)) ∪ {x | ch.blk.Has x} ∧
      z + 4 ∈ cover ((l1 ++ l₂).map (blkOf s.mem)) ∪ {x | ch.blk.Has x} := fun z hz =>
    ⟨.inl (node_words_mem hcan hram hz).1, .inl (node_words_mem hcan hram hz).2⟩
  have hcoal : Canon (coalesce (l1.map (blkOf s.mem)) ch.blk (l₂.map (blkOf s.mem))) := by
    refine coalesce_canon (by rw [← map_append]; exact hcan) hblen ?_ ?_
    · exact forall_mem_map.mpr hbefore
    · exact forall_mem_map.mpr hafter
  have hcram : ∀ c ∈ coalesce (l1.map (blkOf s.mem)) ch.blk (l₂.map (blkOf s.mem)),
      InRam s.ramSegments c := by
    refine inRam_coalesce hb ?_
    rw [← map_append]
    exact hram
  -- What is left is the list, in the branch the search selects.
  rcases eq_nil_or_concat' l1 with rfl | ⟨pt, a, rfl⟩
  · refine ⟨freeAtFront s ch, [], l₂.map (blkOf s.mem), ?_, by simp, ⟨?_, hcoal, ?_⟩,
      freeAtFront_ramSegments _ _, freeAtFront_frame hin1 hin2⟩
    · rw [coreFree, if_pos (hb.valid hn), hfind]
      rfl
    · exact freeAtFront_list hahead hlink hal hphys hfresh
    · rw [freeAtFront_ramSegments]
      exact hcram
  · have ha := hwords a (by simp)
    have ha0 : a ≠ 0 := hlink.not_stop a (by simp)
    have hafin := hbefore a (by simp)
    refine ⟨freeAfter s ch a, (pt ++ [a]).map (blkOf s.mem), l₂.map (blkOf s.mem), ?_,
      by simp, ⟨?_, hcoal, ?_⟩, freeAfter_ramSegments _ _ _,
      freeAfter_frame hin1 hin2 ha.1 ha.2⟩
    · rw [coreFree, if_pos (hb.valid hn), hfind]
      simp [ha0]
    · rw [append_assoc, singleton_append] at hlink hal hfresh
      have hu : u32 ((a : Int) + noPages s.mem a * 4096) = a + noPages s.mem a * 4096 :=
        u32_of_lt (x := a + noPages s.mem a * 4096) (by omega)
      rw [map_append, map_singleton, coalesce_concat]
      by_cases htouch : a + noPages s.mem a * 4096 = ch.physAddr
      · rw [if_pos (by exact htouch)]
        have hjoin : Ahead s.mem ⟨a, noPages s.mem a + ch.noBlocks⟩ l₂ := by
          refine ⟨ha0, fun z hz => ?_, hahead.nodePos, hahead.below⟩
          show a + (noPages s.mem a + ch.noBlocks) * 4096 ≤ z
          rw [Nat.add_mul, ← Nat.add_assoc, htouch]
          exact hafter z hz
        have hlist := freeAfter_join hlink hal hphys hfresh hjoin (hu.trans htouch) (by omega)
        rw [Nat.add_mul] at hlist
        exact hlist
      · rw [if_neg (by exact htouch)]
        exact freeAfter_insert hlink hal hphys hfresh hahead (by rw [hu]; exact htouch)
    · rw [freeAfter_ramSegments]
      exact hcram

end AtomOs
