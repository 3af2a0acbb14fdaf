import AtomOs.Lib.Run
import AtomOs.Mem.Vm

/-!
# The layout of an address space under `brk`

The regions of a process are sorted by start address and do not overlap, and `brk` is the call
by which a program moves the end of its data region. The distance is computed as an `int`: a
positive one goes to `vm_shrinkregion`, a negative one to `vm_expandregion`, which checks the
next region. Moving the end up by more than `2 ^ 31` looks like shrinking, and nothing is
checked (`brk_over_stack`).

`brk_spec` says what a call does to the regions, whatever the page tables hold and whatever
the page allocator answers. **`brk_keeps_layout`** is the result about runs: as long as no call
goes up by more than `2 ^ 31` to or past the start of the next region, the layout is kept, a
call that would reach the next region fails and changes nothing, and one that succeeds ends the
data region where it was asked to.
-/

namespace AtomOs

open Lib List

variable {d : MemRegion} {mseg oend rw : Nat} {post pre : List MemRegion} {ret : Int}
  {s t : VmState}

/-- Sorted, each region the right way round, and no two overlapping. `exec` makes regions whose
    `endAddr` is their last address (`lastIn`), `primalloc` makes regions whose `endAddr` is the
    first address behind them. -/
structure LayoutOk (lastIn : Bool) (rs : List MemRegion) : Prop where
  words : ∀ r ∈ rs, r.endAddr < 4294967296
  sorted : rs.Pairwise fun r q => r.startAddr < q.startAddr
  ordered : ∀ r ∈ rs, r.startAddr ≤ r.endAddr
  apart : rs.Pairwise fun r q => r.endAddr + lastIn.toNat ≤ q.startAddr

/-- The region `syscall_brk` works on. -/
def dataRegion (rs : List MemRegion) : Option MemRegion :=
  rs.find? fun r => r.type == segmentTypeData

def regionAfterData (rs : List MemRegion) : Option MemRegion :=
  (rs.dropWhile fun r => !(r.type == segmentTypeData)).tail.head?

def brkStep (s : VmState) (a : Nat) : Option VmState := (syscallBrk s a).map Prod.snd

/-- A call with a 32-bit address that does not go up by more than `2 ^ 31` to or past the start
    of the next region. -/
def BrkOpOk (s : VmState) (a : Nat) : Prop :=
  a < 4294967296 ∧ ∀ d ∈ dataRegion s.regions, ∀ n ∈ regionAfterData s.regions,
    n.startAddr ≤ a → a ≤ d.endAddr + 2147483648

instance (s : VmState) (a : Nat) : Decidable (BrkOpOk s a) :=
  inferInstanceAs (Decidable (_ ∧ _))

/-! ## The region list is not touched by the work on page tables -/

variable {endAddr startAddr type : Nat} {memflag : Bool}

section frames

@[simp] theorem setCore_regions (s : VmState) (core : CoreState) :
    (s.setCore core).regions = s.regions := rfl

theorem mapRun_regions (rw : Nat) : ∀ (n phys cur : Nat) (s : VmState),
    (mapRun rw n phys cur s).2.regions = s.regions
  | 0, _, _, _ => rfl
  | n + 1, phys, cur, s => mapRun_regions rw n _ _ (mapPage s rw cur phys)

theorem mapFrames_regions (rw : Nat) : ∀ (chs : List CoreHeader) (cur : Nat) (s : VmState),
    (mapFrames rw chs cur s).regions = s.regions
  | [], _, _ => rfl
  | ch :: chs, cur, s => by
    rw [mapFrames, mapFrames_regions rw chs, mapRun_regions]

theorem destroyTables_regions : ∀ {fuel ptl : Nat} {s t : VmState},
    destroyTables fuel ptl s = some t → t.regions = s.regions
  | 0, _, _, _, h => by cases h
  | fuel + 1, ptl, s, t, h => by
    unfold destroyTables at h
    dsimp only at h
    split at h
    · cases h
      rfl
    · repeat (split at h; · cases h)
      have hrest := destroyTables_regions h
      exact hrest

theorem vmDestroySegment_regions
    (h : vmDestroySegment s mseg = some t) : t.regions = s.regions := by
  unfold vmDestroySegment at h
  split at h
  · cases h
  · rename_i s1 hs1
    have hkept := destroyTables_regions hs1
    obtain ⟨heap, -, rfl⟩ := Option.map_eq_some_iff.mp h
    exact hkept

theorem vmReleaseSegment_regions
    (h : vmReleaseSegment s mseg = some t) : t.regions = s.regions := by
  unfold vmReleaseSegment at h
  dsimp only at h
  split at h
  · have hkept := vmDestroySegment_regions h
    exact hkept
  · cases h
    rfl

/-- Nothing but memory has changed on the way from `s` to `t`: neither the regions nor how often
    their segments are shared. -/
structure SameRegions (s t : VmState) : Prop where
  regions : t.regions = s.regions
  shareCount : ∀ q, (t.segs q).shareCount = (s.segs q).shareCount

theorem SameRegions.refl (s : VmState) : SameRegions s s := ⟨rfl, fun _ => rfl⟩

theorem SameRegions.trans {u : VmState} (h1 : SameRegions s t) (h2 : SameRegions t u) :
    SameRegions s u :=
  ⟨h2.regions.trans h1.regions, fun q => (h2.shareCount q).trans (h1.shareCount q)⟩

theorem linkTable_same (s : VmState) (heap : HeapState) (mseg rw pdind table ptl ptl1 ptl2 : Nat) :
    SameRegions s (linkTable { s with heap := heap } mseg rw pdind table ptl ptl1 ptl2) := by
  unfold linkTable
  split
  · refine ⟨rfl, fun q => ?_⟩
    change (if q = mseg then _ else _ : MemSegment).shareCount = _
    split
    · rename_i hq
      rw [hq]
      rfl
    · rfl
  · exact ⟨rfl, fun _ => rfl⟩

theorem expandTables_same {logicalEnd : Nat} : ∀ {fuel ptl1 ptl2 start : Nat}
    {s t : VmState} {ret : Int},
    expandTables mseg rw logicalEnd fuel ptl1 ptl2 start s = some (ret, t) → SameRegions s t
  | 0, _, _, _, _, _, _, h => by cases h
  | fuel + 1, ptl1, ptl2, start, s, t, ret, h => by
    unfold expandTables at h
    split at h
    · cases h
      exact SameRegions.refl s
    split at h
    · split at h
      · cases h
      rename_i ch core _
      split at h
      · cases h
        exact ⟨rfl, fun _ => rfl⟩
      split at h
      · cases h
      rename_i ptl heap _
      split at h
      · obtain ⟨_, -, heq⟩ := Option.map_eq_some_iff.mp h
        cases heq
        exact ⟨rfl, fun _ => rfl⟩
      · exact (linkTable_same _ _ _ _ _ _ _ _ _).trans (expandTables_same h)
    · exact expandTables_same h

theorem vmExpandPageTables_same {start lend : Nat}
    (h : vmExpandPageTables s mseg start lend rw = some (ret, t)) : SameRegions s t :=
  expandTables_same h

theorem expandFrames_regions
    (h : expandFrames s rw oend endAddr = some (ret, t)) : t.regions = s.regions := by
  unfold expandFrames at h
  dsimp only at h
  split at h
  · cases h
    rfl
  split at h
  · cases h
  · cases h
    rfl
  · cases h
    rw [mapFrames_regions, setCore_regions]

theorem expandSegment_regions {mreg : MemRegion}
    (h : expandSegment s mreg oend memflag = some (ret, t)) :
    t.regions = s.regions := by
  unfold expandSegment at h
  dsimp only at h
  split at h
  · cases h
  rename_i ret1 s1 hs1
  have hkept : s1.regions = s.regions := by
    split at hs1
    · exact (vmExpandPageTables_same hs1).regions
    · cases hs1
      rfl
  split at h
  · cases h
    exact hkept
  split at h
  · exact (expandFrames_regions h).trans hkept
  · cases h
    exact hkept

/-- How `vm_creatememsegment` comes back under the lock of the region. The function that makes the
    page tables is a variable: to compare two terms that call it, the kernel would unfold its 1025
    rounds. -/
theorem vmCreateMemSegmentHeld_cases {f : VmState → Nat → Nat → Nat → Nat → Option (Int × VmState)}
    (hf : vmExpandPageTables = f) (h : vmCreateMemSegmentHeld s startAddr endAddr type = some t) :
    ∃ s1 mseg ret s2, s1.regions = s.regions ∧
      f s1 mseg startAddr endAddr (regionRw type) = some (ret, s2) ∧
      vmDestroySegment s2 mseg = some t := by
  unfold vmCreateMemSegmentHeld at h
  rw [hf] at h
  split at h
  · cases h
  dsimp only at h
  split at h
  · cases h
  rename_i hs1
  split at h
  · refine ⟨_, _, _, _, ?_, hs1, h⟩
    rfl
  · cases h

theorem vmCreateMemSegmentHeld_regions
    (h : vmCreateMemSegmentHeld s startAddr endAddr type = some t) : t.regions = s.regions := by
  obtain ⟨s1, mseg, ret, s2, hregs, htables, hdestroy⟩ := vmCreateMemSegmentHeld_cases rfl h
  rw [vmDestroySegment_regions hdestroy, (vmExpandPageTables_same htables).regions, hregs]

theorem shrinkSegment_regions {np : Nat}
    (h : shrinkSegment s mseg np oend = some t) : t.regions = s.regions := by
  unfold shrinkSegment at h
  dsimp only at h
  split at h
  · cases h
  split at h
  · cases h
  · cases h
    rfl

end frames

/-! ## Finding the data region -/

theorem dataRegion_split {rs : List MemRegion} (h : dataRegion rs = some d) :
    ∃ pre post, rs = pre ++ d :: post ∧ d.type = segmentTypeData ∧
      (∀ r ∈ pre, r.type ≠ segmentTypeData) ∧ regionAfterData rs = post.head? := by
  obtain ⟨hd, pre, post, rfl, hpre⟩ := find?_eq_some_iff_append.mp h
  refine ⟨pre, post, rfl, by simpa using hd, ?_, ?_⟩
  · intro r hr
    simpa using hpre r hr
  · unfold regionAfterData
    rw [dropWhile_append_of_pos hpre, dropWhile_cons_of_neg (by simpa using hd)]
    rfl

theorem dataRegion_of_split
    (hd : d.type = segmentTypeData) (hpre : ∀ r ∈ pre, r.type ≠ segmentTypeData) :
    dataRegion (pre ++ d :: post) = some d := by
  refine find?_eq_some_iff_append.mpr ⟨by simpa using hd, pre, post, rfl, ?_⟩
  intro r hr
  simpa using hpre r hr

theorem splitAtStart_of_sorted (d : MemRegion) (post : List MemRegion) :
    ∀ {pre : List MemRegion}, (∀ r ∈ pre, r.startAddr < d.startAddr) →
      splitAtStart d.startAddr (pre ++ d :: post) = some (pre, d, post)
  | [], _ => by simp [splitAtStart]
  | r :: pre, h => by
    have hr : r.startAddr < d.startAddr := h r (by simp)
    have hrest := splitAtStart_of_sorted d post fun q hq =>
      h q (mem_cons_of_mem r hq)
    simp [splitAtStart, hr, hrest]

section call

variable {s t : VmState} {pre post : List MemRegion} {d : MemRegion} {lstart size : Nat}
  {ret : Int} (hfind : splitAtStart lstart s.regions = some (pre, d, post))
include hfind

/-- `vm_expandregion` moves the end of the region, or refuses because of the next region. It may
    move the end and fail all the same, for want of memory. -/
theorem vmExpandRegion_regions {pgflag : Bool}
    (h : vmExpandRegion s lstart size pgflag memflag = some (ret, t)) :
    (ret = -1 ∧ t.regions = s.regions ∧
      ∃ n ∈ post.head?, n.startAddr ≤ u32 (d.endAddr + size)) ∨
    (t.regions = pre ++ { d with endAddr := u32 (d.endAddr + size) } :: post ∧
      ∀ n ∈ post.head?, u32 (d.endAddr + size) < n.startAddr) := by
  unfold vmExpandRegion at h
  rw [hfind] at h
  dsimp only at h
  split at h
  · rename_i hover
    cases h
    refine .inl ⟨rfl, rfl, ?_⟩
    simpa [Option.any_eq_true] using hover
  rename_i hover
  have hfree : ∀ n ∈ post.head?, u32 (d.endAddr + size) < n.startAddr := by
    intro n hn
    rw [Option.mem_def.mp hn] at hover
    simpa using hover
  refine .inr ⟨?_, hfree⟩
  split at h
  · split at h
    · obtain ⟨t', ht', heq⟩ := Option.map_eq_some_iff.mp h
      cases heq
      rw [vmCreateMemSegmentHeld_regions ht']
    split at h
    · cases h
    rename_i ret1 s1 hs1
    obtain ⟨t', ht', heq⟩ := Option.map_eq_some_iff.mp h
    cases heq
    rw [vmReleaseSegment_regions ht', expandSegment_regions hs1]
    rfl
  · cases h
    rfl

theorem vmShrinkRegion_regions (h : vmShrinkRegion s lstart size = some (ret, t)) :
    ret = 0 ∧ t.regions = pre ++ { d with endAddr := u32 ((d.endAddr : Int) - size) } :: post := by
  unfold vmShrinkRegion at h
  rw [hfind] at h
  dsimp only at h
  split at h
  · cases h
  split at h
  · cases h
  rename_i s1 hs1
  obtain ⟨t', ht', heq⟩ := Option.map_eq_some_iff.mp h
  cases heq
  refine ⟨rfl, ?_⟩
  rw [vmReleaseSegment_regions ht']
  split at hs1
  · rw [shrinkSegment_regions hs1]
    rfl
  · cases hs1
    rfl

end call

/-- What `syscall_brk` can do to the regions: nothing, and then it fails or only asks; or set the
    end of the data region to the address it was given, which lies below the next region unless
    it was taken for a lower one. -/
theorem brk_spec {lastIn : Bool} {a : Nat} (h : LayoutOk lastIn s.regions) (ha : a < 4294967296)
    (hrun : syscallBrk s a = some (ret, t)) :
    ∃ pre d post, s.regions = pre ++ d :: post ∧ d.type = segmentTypeData ∧
      (∀ r ∈ pre, r.type ≠ segmentTypeData) ∧ regionAfterData s.regions = post.head? ∧
      ((t.regions = s.regions ∧ (ret = 0 → d.endAddr = a)) ∨
        (t.regions = pre ++ { d with endAddr := a } :: post ∧ d.startAddr ≤ a ∧
          ∀ n ∈ post.head?, a < n.startAddr ∨ d.endAddr + 2147483648 < a ∨ a ≤ d.endAddr)) := by
  unfold syscallBrk at hrun
  split at hrun
  · cases hrun
  rename_i d hd
  obtain ⟨pre, post, hrs, hty, hpre, hafter⟩ := dataRegion_split hd
  refine ⟨pre, d, post, hrs, hty, hpre, hafter, ?_⟩
  have hword : d.endAddr < 4294967296 := h.words d (by rw [hrs]; simp)
  have hfind : splitAtStart d.startAddr s.regions = some (pre, d, post) := by
    have hsorted := h.sorted
    rw [hrs] at hsorted ⊢
    exact splitAtStart_of_sorted d post fun r hr =>
      (pairwise_append.mp hsorted).2.2 r hr d (by simp)
  split at hrun
  · -- `brk(NULL)` only asks
    rename_i h0
    simp only [Option.some.injEq, Prod.mk.injEq] at hrun
    obtain ⟨rfl, rfl⟩ := hrun
    refine .inl ⟨rfl, fun hret => ?_⟩
    unfold i32 at hret
    split at hret <;> omega
  split at hrun
  · cases hrun
    exact .inl ⟨rfl, fun hret => absurd hret (by decide)⟩
  rename_i hstart
  obtain ⟨⟨ret1, t1⟩, hcall, heq⟩ := Option.map_eq_some_iff.mp hrun
  cases heq
  split at hcall
  · rename_i hneg
    have hsum : u32 ((d.endAddr : Int) + (u32 (-i32 ((d.endAddr : Int) - a)) : Nat)) = a := by
      unfold u32 i32
      split <;> omega
    rcases vmExpandRegion_regions hfind hcall with ⟨rfl, hsame, -⟩ | ⟨hmoved, hfree⟩
    · exact .inl ⟨hsame, fun hret => absurd hret (by decide)⟩
    · rw [hsum] at hmoved hfree
      exact .inr ⟨hmoved, by omega, fun n hn => .inl (hfree n hn)⟩
  · rename_i hneg
    have hsum : u32 ((d.endAddr : Int) - (u32 (i32 ((d.endAddr : Int) - a)) : Nat)) = a := by
      unfold u32 i32
      split <;> omega
    obtain ⟨rfl, hmoved⟩ := vmShrinkRegion_regions hfind hcall
    rw [hsum] at hmoved
    refine .inr ⟨hmoved, by omega, fun n _ => .inr ?_⟩
    -- The distance, read as an `int`, is not negative.
    unfold i32 at hneg
    split at hneg <;> omega

/-! ## The layout -/

/-- The end of one region may move down to its start, or up to just below the next region. -/
theorem LayoutOk.moveEnd {lastIn : Bool} {a : Nat}
    (h : LayoutOk lastIn (pre ++ d :: post)) (ha : a < 4294967296) (hstart : d.startAddr ≤ a)
    (hnext : ∀ n ∈ post.head?, a < n.startAddr ∨ a ≤ d.endAddr) :
    LayoutOk lastIn (pre ++ { d with endAddr := a } :: post) := by
  obtain ⟨hwords, hsorted, hordered, hapart⟩ := h
  obtain ⟨hspre, hspost, hscross⟩ := pairwise_append.mp hsorted
  obtain ⟨hapre, hapost, hacross⟩ := pairwise_append.mp hapart
  rw [pairwise_cons] at hspost hapost
  rw [forall_mem_append, forall_mem_cons] at hwords hordered
  refine ⟨?_, ?_, ?_, ?_⟩
  · exact forall_mem_append.mpr ⟨hwords.1, forall_mem_cons.mpr ⟨ha, hwords.2.2⟩⟩
  · refine pairwise_append.mpr ⟨hspre, pairwise_cons.mpr hspost, ?_⟩
    exact fun r hr => forall_mem_cons.mpr (forall_mem_cons.mp (hscross r hr))
  · exact forall_mem_append.mpr ⟨hordered.1, forall_mem_cons.mpr ⟨hstart, hordered.2.2⟩⟩
  · refine pairwise_append.mpr ⟨hapre, pairwise_cons.mpr ⟨?_, hapost.2⟩, ?_⟩
    · -- Only the distance to the regions behind can shrink, and the first of them is nearest.
      intro q hq
      have hd := hapost.1 q hq
      have hbit : lastIn.toNat ≤ 1 := by cases lastIn <;> decide
      cases post with
      | nil => cases hq
      | cons n post =>
        have hnq : n.startAddr ≤ q.startAddr := by
          rcases mem_cons.mp hq with rfl | hq
          · exact Nat.le_refl _
          · exact Nat.le_of_lt ((pairwise_cons.mp hspost.2).1 q hq)
        show a + lastIn.toNat ≤ q.startAddr
        rcases hnext n rfl with hlt | hle <;> omega
    · exact fun r hr => forall_mem_cons.mpr (forall_mem_cons.mp (hacross r hr))

/-- What a call leaves behind when it keeps to the condition. -/
structure BrkDone (lastIn : Bool) (s : VmState) (a : Nat) (ret : Int) (t : VmState) : Prop where
  /-- A call that would reach the next region fails and changes no region. -/
  refused : ∀ n ∈ regionAfterData s.regions, n.startAddr < a + lastIn.toNat →
    ret ≠ 0 ∧ t.regions = s.regions
  /-- A successful call ends the data region where it was asked to. -/
  moved : ret = 0 → ∃ d, dataRegion t.regions = some d ∧ d.endAddr = a

section call

variable {lastIn : Bool} {s t : VmState} {a : Nat} {ret : Int} (h : LayoutOk lastIn s.regions)
  (hop : BrkOpOk s a) (hrun : syscallBrk s a = some (ret, t))
include h hop hrun

theorem LayoutOk.brk : LayoutOk lastIn t.regions := by
  obtain ⟨pre, d, post, hrs, hty, hpre, hafter, hcase⟩ := brk_spec h hop.1 hrun
  rcases hcase with ⟨hsame, -⟩ | ⟨hmoved, hstart, hnext⟩
  · rw [hsame]
    exact h
  rw [hmoved]
  rw [hrs] at h
  refine h.moveEnd hop.1 hstart fun n hn => ?_
  have hup := hop.2 d (by rw [hrs]; exact dataRegion_of_split hty hpre) n (by rw [hafter]; exact hn)
  rcases hnext n hn with hlt | hfar | hle
  · exact .inl hlt
  · by_cases hna : n.startAddr ≤ a
    · omega
    · exact .inl (by omega)
  · exact .inr hle

theorem LayoutOk.brkDone : BrkDone lastIn s a ret t := by
  obtain ⟨pre, d, post, hrs, hty, hpre, hafter, hcase⟩ := brk_spec h hop.1 hrun
  have hdata : dataRegion s.regions = some d := by
    rw [hrs]
    exact dataRegion_of_split hty hpre
  have hbelow : ∀ n ∈ post.head?, d.endAddr + lastIn.toNat ≤ n.startAddr := by
    intro n hn
    have hapart := h.apart
    rw [hrs] at hapart
    have hcons := pairwise_cons.mp (pairwise_append.mp hapart).2.1
    exact hcons.1 n (mem_of_mem_head? hn)
  have hbit : lastIn.toNat ≤ 1 := by cases lastIn <;> decide
  refine ⟨?_, ?_⟩
  · intro n hn hna
    have hup := hop.2 d hdata n hn (by omega)
    rw [hafter] at hn
    have hdn := hbelow n hn
    rcases hcase with ⟨hsame, hret⟩ | ⟨-, -, hnext⟩
    · refine ⟨fun h0 => ?_, hsame⟩
      omega
    · -- The end was moved, so it was not moved that far.
      rcases hnext n hn with hlt | hfar | hle <;> omega
  · intro h0
    rcases hcase with ⟨hsame, hret⟩ | ⟨hmoved, -, -⟩
    · exact ⟨d, by rw [hsame]; exact hdata, hret h0⟩
    · rw [hmoved]
      exact ⟨_, dataRegion_of_split hty hpre, rfl⟩

end call

/-! ## Runs -/

/-- **`brk` keeps the layout of the address space.** From any sorted list of regions that do not
    overlap, in every state a sequence of calls leads to: the regions are still sorted, the right
    way round and apart; the next call, if it would reach the region behind the data region,
    fails and changes no region; and if it succeeds, the data region ends exactly at the address
    given. The condition is that no call moves the end up by more than `2 ^ 31` to or past the
    start of the next region. -/
theorem brk_keeps_layout {lastIn : Bool} {s t : VmState} (h : LayoutOk lastIn s.regions)
    (hrun : Reaches brkStep BrkOpOk s t) :
    LayoutOk lastIn t.regions ∧ ∀ a ret u, BrkOpOk t a → syscallBrk t a = some (ret, u) →
      LayoutOk lastIn u.regions ∧ BrkDone lastIn t a ret u := by
  have hlay : LayoutOk lastIn t.regions := by
    refine hrun.invariant (fun s => LayoutOk lastIn s.regions) h ?_
    intro s t a hs hop hstep
    obtain ⟨⟨ret, u⟩, hcall, rfl⟩ := Option.map_eq_some_iff.mp hstep
    exact hs.brk hop hcall
  exact ⟨hlay, fun a ret u hop hcall => ⟨hlay.brk hop hcall, hlay.brkDone hop hcall⟩⟩

/-- A process as `exec` makes it: code, one page of data, a stack under the private memory. The
    page allocator has sixteen pages from `0x100000` on; the page table of the data slot is at
    `0x4000`, and the page directory at `0x3000`. -/
def smallProcess : VmState where
  heap := ⟨⟨fun a => if a = 0x3000 + 4 * 144 then makeEntry 4 0 1 1 0
      else if a = 0x100000 then 16 else 0, 0x100000, [⟨0x100000, 0x10000, 1⟩]⟩, 0, 0, 0, 0⟩
  segs := fun _ => ⟨1, 1, 0⟩
  ptls := fun _ => ⟨0, 0⟩
  pgdir := 0x3000
  regions := [⟨0x50000, 0x20000000, 0x20000fff, segmentTypeCode, 0x50100⟩,
    ⟨0x50200, 0x24000000, 0x24000fff, segmentTypeData, 0x50300⟩,
    ⟨0x50400, 0xFDB00000, 0xFDBFFFFF, 4, 0x50500⟩]

theorem smallProcess_layout : LayoutOk true smallProcess.regions := by
  refine ⟨?_, ?_, ?_, ?_⟩ <;> decide

/-- The theorem at a process that grows its data by two pages and gives one back. -/
theorem brk_keeps_layout_smallProcess : ∃ t, Reaches brkStep BrkOpOk smallProcess t ∧
    t.regions.map MemRegion.endAddr = [0x20000fff, 0x24001fff, 0xFDBFFFFF] ∧
    LayoutOk true t.regions ∧ ∀ a ret u, BrkOpOk t a → syscallBrk t a = some (ret, u) →
      LayoutOk true u.regions ∧ BrkDone true t a ret u := by
  obtain ⟨t, ht, hends⟩ : ∃ t ∈ runOps brkStep BrkOpOk smallProcess [0x24002fff, 0x24001fff],
      t.regions.map MemRegion.endAddr = [0x20000fff, 0x24001fff, 0xFDBFFFFF] := by decide +kernel
  have hreach := reaches_of_runOps ht
  exact ⟨t, hreach, hends, brk_keeps_layout smallProcess_layout hreach⟩

/-! ## What the condition is for -/

/-- No page has a frame: its slot has no page table, or its entry there is empty. -/
def Unmapped (s : VmState) : Prop :=
  ∀ i j, s.pageTable i = 0 ∨ entryBase (s.mem (s.pageTable i + 4 * j)) = 0

theorem shrinkFrames_of_unmapped (h : Unmapped s) : ∀ n cur : Nat,
    shrinkFrames s n cur s.heap.core ⟨0, 0, 0⟩ = some (s.heap.core, ⟨0, 0, 0⟩)
  | 0, _ => rfl
  | n + 1, cur => by
    have hrest := shrinkFrames_of_unmapped h n (u32 (cur + 4096))
    have hpage := h (pdIndex cur) (ptIndex cur)
    unfold shrinkFrames
    dsimp only
    split
    · exact hrest
    rename_i hpt
    have hzero : entryBase (s.heap.core.mem
        ((s.setCore s.heap.core).pageTable (pdIndex cur) + 4 * ptIndex cur)) = 0 :=
      hpage.resolve_left hpt
    rw [hzero]
    exact hrest

theorem shrinkSegment_of_unmapped (h : Unmapped s) (mseg np oend : Nat) :
    shrinkSegment s mseg np oend =
      some (s.setSeg mseg { s.segs mseg with npages := u32 ((s.segs mseg).npages - np) }) := by
  unfold shrinkSegment
  dsimp only
  rw [shrinkFrames_of_unmapped h]
  rfl

theorem vmShrinkRegion_of_unmapped
    {lstart : Nat} (size : Nat) (hfind : splitAtStart lstart s.regions = some (pre, d, post))
    (hseg : d.segment ≠ 0) (hcount : (s.segs d.segment).shareCount = 1) (h : Unmapped s) :
    ∃ t, vmShrinkRegion s lstart size = some (0, t) := by
  unfold vmShrinkRegion
  rw [hfind]
  dsimp only
  rw [if_neg hseg,
    shrinkSegment_of_unmapped (s := vmGetMemSegment { s with regions := _ } d.segment) h]
  -- The count goes from 1 to 2 and back, so nothing is destroyed.
  split
  · rename_i hnone
    split at hnone <;> cases hnone
  rename_i s1 hs1
  have hcount1 : (s1.segs d.segment).shareCount = 2 := by
    split at hs1 <;> cases hs1 <;> simp [VmState.setSeg, vmGetMemSegment, hcount]
  exact ⟨s1.setSeg d.segment { s1.segs d.segment with shareCount := 1 }, by
    simp [vmReleaseSegment, hcount1]⟩

theorem smallProcess_unmapped : Unmapped smallProcess := by
  intro i j
  by_cases hi : i = 144
  · right
    have hpt : smallProcess.pageTable i = 0x4000 := by
      rw [hi]
      rfl
    rw [hpt]
    by_cases hj : 0x4000 + 4 * j = 0x100000
    · rw [hj]
      rfl
    have hmem : smallProcess.mem (0x4000 + 4 * j) = 0 := by
      simp only [VmState.mem, smallProcess]
      rw [if_neg (by omega), if_neg hj]
    rw [hmem]
    rfl
  · left
    have hmem : smallProcess.mem (0x3000 + 4 * i) = 0 ∨
        smallProcess.mem (0x3000 + 4 * i) = 16 := by
      simp only [VmState.mem, smallProcess]
      rw [if_neg (by omega)]
      split
      · exact .inr rfl
      · exact .inl rfl
    unfold VmState.pageTable
    rcases hmem with hmem | hmem <;>
    · rw [show smallProcess.pgdir = 0x3000 from rfl, hmem]
      rfl

/-- `brk(0xFDC00000)` moves the end of the data region up by more than `2 ^ 31`. It is taken for
    shrinking, succeeds, and leaves the data region over the whole stack. -/
theorem brk_over_stack : ∃ t, LayoutOk true smallProcess.regions ∧
    syscallBrk smallProcess 0xFDC00000 = some (0, t) ∧ ¬ LayoutOk true t.regions ∧
    ∃ d ∈ t.regions, ∃ n ∈ t.regions, d.startAddr < n.startAddr ∧ n.endAddr < d.endAddr := by
  have hfind : splitAtStart 0x24000000 smallProcess.regions =
      some ([⟨0x50000, 0x20000000, 0x20000fff, segmentTypeCode, 0x50100⟩],
        ⟨0x50200, 0x24000000, 0x24000fff, segmentTypeData, 0x50300⟩,
        [⟨0x50400, 0xFDB00000, 0xFDBFFFFF, 4, 0x50500⟩]) := by rfl
  have hsize : u32 (i32 ((0x24000fff : Nat) - (0xFDC00000 : Nat))) = 0x26400fff := by decide
  obtain ⟨t, ht⟩ := vmShrinkRegion_of_unmapped 0x26400fff hfind (by decide) rfl
    smallProcess_unmapped
  obtain ⟨-, hregs⟩ := vmShrinkRegion_regions hfind ht
  have hcall : syscallBrk smallProcess 0xFDC00000 = some (0, t) := by
    have hdata : smallProcess.regions.find? (fun r => r.type == segmentTypeData) =
        some ⟨0x50200, 0x24000000, 0x24000fff, segmentTypeData, 0x50300⟩ := by rfl
    unfold syscallBrk
    rw [hdata]
    dsimp only
    rw [if_neg (by decide), if_neg (by decide), if_neg (by decide), hsize, ht]
    rfl
  have hend : u32 (((0x24000fff : Nat) : Int) - (0x26400fff : Nat)) = 0xFDC00000 := by decide
  refine ⟨t, smallProcess_layout, hcall, ?_, ?_⟩
  · intro h
    have hapart := h.apart
    rw [hregs] at hapart
    revert hapart
    decide
  · rw [hregs]
    decide

end AtomOs
