import AtomOs.Mem.CoreInv

/-!
# Which block `core_alloc` takes

`coreAlloc_spec` says that `core_alloc` takes its pages from the front of some free block.
This module says from which one, for every free list in address order, whether its blocks
touch or not.

The scan runs in two phases. While no block was long enough it keeps the longest; from the
first block that is, it keeps the one that leaves the smallest hole. But in the second phase a
block must have *more* pages than asked for to be taken at all, so a block of exactly the right
size is passed over if the first block that was long enough was larger. `coreAlloc_bestFit` is
best fit for the lists on which this makes no difference, and `coreAlloc_misses_exact` says
that on all others the exact block is missed.
-/

namespace AtomOs

open Lib List

variable {c : Blk} {m : Mem} {n : Nat} {s : CoreState}

/-! ## The scan -/

/-- What the scan knows after the nodes `seen`: the hole its candidate leaves, that the
    candidate is the longest node as long as none was long enough, and that afterwards no node
    with more than `n` pages is shorter. -/
structure Chosen (m : Mem) (n : Nat) (seen : List Nat) (acc : Scan) : Prop where
  mem : acc.baddr ∈ seen
  hole : acc.holeSize = (noPages m acc.baddr : Int) - n
  longest : noPages m acc.baddr < n → ∀ t ∈ seen, noPages m t ≤ noPages m acc.baddr
  tightest : n ≤ noPages m acc.baddr →
    ∀ t ∈ seen, n < noPages m t → noPages m acc.baddr ≤ noPages m t
  -- Whether the candidate fits exactly is settled by the first node that is long enough.
  exactly : ∀ t, seen.find? (fun t => decide (n ≤ noPages m t)) = some t →
    (noPages m t = n ↔ noPages m acc.baddr = n)

theorem scanStep_eq {t : Nat} {acc : Scan} (hn : n < 2147483648)
    (hhole : acc.holeSize = (noPages m acc.baddr : Int) - n)
    (hacc : noPages m acc.baddr ≤ 1048576) (ht : noPages m t ≤ 1048576) :
    scanStep m n acc t =
      if noPages m acc.baddr < n ∧ noPages m acc.baddr < noPages m t ∨
          n < noPages m t ∧ noPages m t < noPages m acc.baddr then
        ⟨t, (noPages m t : Int) - n, acc.t2, t⟩
      else { acc with t2 := t } := by
  have hi : i32 ((noPages m t : Int) - n) = (noPages m t : Int) - n :=
    i32_of_range (by omega) (by omega)
  have hun : u32 (n : Int) = n := u32_of_lt (by omega)
  unfold scanStep
  simp only [hhole, hi, hun]
  by_cases hneg : noPages m acc.baddr < n
  · rw [if_pos (by omega)]
    by_cases hlt : noPages m acc.baddr < noPages m t
    · rw [if_pos (by omega), if_pos (.inl ⟨hneg, hlt⟩)]
    · rw [if_neg (by omega), if_neg (by omega)]
  rw [if_neg (by omega)]
  by_cases hgt : n < noPages m t
  · have h1 := u32_of_range (x := (noPages m acc.baddr : Int) - n) (by omega) (by omega)
    have h2 := u32_of_range (x := (noPages m t : Int) - n) (by omega) (by omega)
    by_cases hlt : noPages m t < noPages m acc.baddr
    · rw [if_pos ⟨hgt, by omega⟩, if_pos (.inr ⟨hgt, hlt⟩)]
    · rw [if_neg (by omega), if_neg (by omega)]
  · rw [if_neg (by omega), if_neg (by omega)]

theorem Chosen.start (m : Mem) (n t : Nat) (hn : n < 2147483648) (ht : noPages m t ≤ 1048576) :
    Chosen m n [t] ⟨t, i32 (noPages m t - n), 0, t⟩ := by
  refine ⟨mem_singleton_self t, i32_of_range (by omega) (by omega), ?_, ?_, ?_⟩
  · intro _ z hz
    rw [mem_singleton.mp hz]
  · intro _ z hz _
    rw [mem_singleton.mp hz]
  · intro z hz
    obtain rfl : z = t := mem_singleton.mp (mem_of_find?_eq_some hz)
    exact Iff.rfl

section step

variable {m : Mem} {n t : Nat} {seen : List Nat} {acc : Scan}

section

variable (h : Chosen m n seen acc)
include h

theorem Chosen.none_fits (hlt : noPages m acc.baddr < n) :
    seen.find? (fun t => decide (n ≤ noPages m t)) = none := by
  rw [find?_eq_none]
  intro z hz
  have := h.longest hlt z hz
  simp only [decide_eq_true_eq]
  omega

theorem Chosen.first_seen (hge : n ≤ noPages m acc.baddr) (t : Nat) :
    (seen ++ [t]).find? (fun t => decide (n ≤ noPages m t)) =
      seen.find? (fun t => decide (n ≤ noPages m t)) := by
  rw [find?_append]
  cases hf : seen.find? (fun t => decide (n ≤ noPages m t)) with
  | some z => rfl
  | none =>
    rw [find?_eq_none] at hf
    exact absurd (decide_eq_true hge) (hf _ h.mem)

theorem Chosen.keep (hno : ¬ (noPages m acc.baddr < n ∧ noPages m acc.baddr < noPages m t ∨
      n < noPages m t ∧ noPages m t < noPages m acc.baddr)) :
    Chosen m n (seen ++ [t]) { acc with t2 := t } := by
  refine ⟨mem_append_left _ h.mem, h.hole, ?_, ?_, ?_⟩
  · intro hlt z hz
    rcases mem_append.mp hz with hz | hz
    · exact h.longest hlt z hz
    · obtain rfl := mem_singleton.mp hz
      show noPages m z ≤ noPages m acc.baddr
      have hlt : noPages m acc.baddr < n := hlt
      omega
  · intro hge z hz hfit
    rcases mem_append.mp hz with hz | hz
    · exact h.tightest hge z hz hfit
    · obtain rfl := mem_singleton.mp hz
      show noPages m acc.baddr ≤ noPages m z
      omega
  · intro z hz
    by_cases hlt : noPages m acc.baddr < n
    · rw [find?_append, h.none_fits hlt, Option.none_or] at hz
      obtain rfl := mem_singleton.mp (mem_of_find?_eq_some hz)
      have hfit : n ≤ noPages m z := of_decide_eq_true (find?_some hz :)
      omega
    · rw [h.first_seen (by omega)] at hz
      exact h.exactly z hz

/-- Node `t` becomes the candidate: it is longer than a candidate that was too short, or
    shorter than one that was long enough. -/
theorem Chosen.take (hyes : noPages m acc.baddr < n ∧ noPages m acc.baddr < noPages m t ∨
      n < noPages m t ∧ noPages m t < noPages m acc.baddr) :
    Chosen m n (seen ++ [t]) ⟨t, (noPages m t : Int) - n, acc.t2, t⟩ := by
  refine ⟨mem_append_right _ (mem_singleton_self t), rfl, ?_, ?_, ?_⟩
  · intro (hlt : noPages m t < n) z hz
    rcases mem_append.mp hz with hz | hz
    · have := h.longest (by omega) z hz
      show noPages m z ≤ noPages m t
      omega
    · rw [mem_singleton.mp hz]
  · intro (hge : n ≤ noPages m t) z hz hfit
    show noPages m t ≤ noPages m z
    rcases mem_append.mp hz with hz | hz
    · rcases hyes with ⟨hshort, -⟩ | ⟨-, hlong⟩
      · have := h.longest hshort z hz
        omega
      · have := h.tightest (by omega) z hz hfit
        omega
    · rw [mem_singleton.mp hz]
  · intro z hz
    show noPages m z = n ↔ noPages m t = n
    rcases hyes with ⟨hshort, -⟩ | ⟨hgt, hlong⟩
    · rw [find?_append, h.none_fits hshort, Option.none_or] at hz
      rw [mem_singleton.mp (mem_of_find?_eq_some hz)]
    · rw [h.first_seen (by omega)] at hz
      have := h.exactly z hz
      omega

theorem Chosen.step (hn : n < 2147483648)
    (hacc : noPages m acc.baddr ≤ 1048576) (ht : noPages m t ≤ 1048576) :
    Chosen m n (seen ++ [t]) (scanStep m n acc t) := by
  rw [scanStep_eq hn h.hole hacc ht]
  split
  · exact h.take ‹_›
  · exact h.keep ‹_›

end

end step

theorem Chosen.run (hn : n < 2147483648) {rest : List Nat} :
    ∀ {seen : List Nat} {acc : Scan}, Chosen m n seen acc →
      (∀ t ∈ seen ++ rest, noPages m t ≤ 1048576) →
      Chosen m n (seen ++ rest) (rest.foldl (scanStep m n) acc) := by
  induction rest with
  | nil =>
    intro seen acc h _
    rwa [append_nil]
  | cons t rest ih =>
    intro seen acc h hsmall
    have hstep : Chosen m n (seen ++ [t]) (scanStep m n acc t) :=
      h.step hn (hsmall _ (mem_append_left _ h.mem)) (hsmall t (by simp))
    have hrun := ih hstep (by simpa using hsmall)
    rwa [append_assoc, singleton_append] at hrun

/-! ## Free lists in address order -/

/-- Runs of whole pages in address order. They may touch. -/
structure Ordered (L : List Blk) : Prop where
  sorted : L.Pairwise fun b c => b.addr < c.addr ∧ b.fin ≤ c.addr
  aligned : ∀ b ∈ L, b.addr % 4096 = 0
  below : ∀ b ∈ L, b.addr < 4294967296 ∧ b.fin ≤ 4294967296

theorem CoreOk.ordered {L : List Blk} (h : CoreOk s L) : Ordered L := by
  refine ⟨h.canon.sep.imp fun {b c} hbc => ?_, fun b hb => (h.ram b hb).aligned, ?_⟩
  · have : b.addr ≤ b.fin := Nat.le_add_right _ _
    exact ⟨by omega, by omega⟩
  · intro b hb
    have hpos := h.canon.pos b hb
    have hfin := (h.ram b hb).below
    have hfin' : b.addr + b.len ≤ 4294967296 := hfin
    exact ⟨by omega, hfin⟩

theorem length_le_of_ascending {ts : List Nat} : ∀ {lo : Nat}, ts.Pairwise (· < ·) →
    (∀ t ∈ ts, t % 4096 = 0) → (∀ t ∈ ts, lo ≤ t) → (∀ t ∈ ts, t < 4294967296) →
    lo % 4096 = 0 → lo ≤ 4294967296 → lo + 4096 * ts.length ≤ 4294967296 := by
  induction ts with
  | nil =>
    intro lo _ _ _ _ _ hle
    simpa using hle
  | cons t ts ih =>
    intro lo hs hal hlo hhi hlo4 hle
    obtain ⟨ht, hs⟩ := pairwise_cons.mp hs
    have htal := hal t mem_cons_self
    have htlo := hlo t mem_cons_self
    have hthi := hhi t mem_cons_self
    have hrest := @ih (t + 4096) hs (forall_mem_cons.mp hal).2
      (fun z hz => by
        have h1 := ht z hz
        have h2 := hal z (mem_cons_of_mem _ hz)
        omega)
      (forall_mem_cons.mp hhi).2 (by omega) (by omega)
    rw [length_cons]
    omega

section nodes

variable {s : CoreState} {ts : List Nat}

theorem Ordered.node_pages (h : Ordered (ts.map (blkOf s.mem))) :
    ∀ t ∈ ts, noPages s.mem t ≤ 1048576 := by
  intro t ht
  have hfin : t + noPages s.mem t * 4096 ≤ 4294967296 := (h.below _ (mem_map_of_mem ht)).2
  omega

theorem Ordered.length_le (h : Ordered (ts.map (blkOf s.mem))) : ts.length ≤ listFuel := by
  have hs : ts.Pairwise (· < ·) := (pairwise_map.mp h.sorted).imp fun hab => hab.1
  have hlen := @length_le_of_ascending ts 0 hs
    (fun t ht => h.aligned _ (mem_map_of_mem ht)) (fun t _ => Nat.zero_le t)
    (fun t ht => (h.below _ (mem_map_of_mem ht)).1) rfl (by omega)
  unfold listFuel
  omega

end nodes

theorem coreAlloc_chosen {t : Nat} {ts : List Nat}
    (hlink : Linked (nextBlock s.mem) (· = 0) s.firstBlock (t :: ts))
    (hord : Ordered ((t :: ts).map (blkOf s.mem))) (hn : n < 2147483648) :
    ∃ best, coreAlloc s n = some (allocHeader n best, allocUpdate s n best) ∧
      Chosen s.mem n (t :: ts) best := by
  have hfuel : (t :: ts).length ≤ listFuel := hord.length_le
  obtain ⟨hfirst, h0, hrest⟩ := hlink
  have hstart := Chosen.start s.mem n t hn (hord.node_pages t mem_cons_self)
  have hbest := @Chosen.run s.mem n hn ts _ _ hstart (by simpa using hord.node_pages)
  refine ⟨_, ?_, hbest⟩
  unfold coreAlloc
  rw [if_neg (by rw [hfirst]; exact h0)]
  dsimp only
  rw [hfirst, walk_of_linked hrest (by simp at hfuel; omega)]

theorem Chosen.pages {seen : List Nat} {best : Scan}
    (h : Chosen m n seen best) (hn : n < 2147483648) (hsmall : noPages m best.baddr ≤ 1048576) :
    (allocHeader n best).noBlocks = min n (noPages m best.baddr) := by
  show (if 0 ≤ best.holeSize then u32 n else u32 (n + best.holeSize)) = _
  rw [h.hole]
  split
  · rw [u32_of_lt (by omega)]
    omega
  · rw [show (n : Int) + ((noPages m best.baddr : Int) - n) = (noPages m best.baddr : Nat) by omega,
      u32_of_lt (by omega)]
    omega

/-! ## Best fit -/

/-- What a best fit allocator hands out for a request of `n` pages. -/
def IsBestFit (L : List Blk) (n : Nat) (ch : CoreHeader) : Prop :=
  ∃ b ∈ L, ch.physAddr = b.addr ∧
    ((∃ c ∈ L, n * 4096 ≤ c.len) →
      ch.noBlocks = n ∧ n * 4096 ≤ b.len ∧ ∀ c ∈ L, n * 4096 ≤ c.len → b.len ≤ c.len) ∧
    ((∀ c ∈ L, c.len < n * 4096) → ch.noBlocks * 4096 = b.len ∧ ∀ c ∈ L, c.len ≤ b.len)

/-- If some block has exactly `n` pages, then the first block that is long enough has. -/
def ExactFirst (L : List Blk) (n : Nat) : Prop :=
  (∃ b ∈ L, b.len = n * 4096) →
    ∀ c, L.find? (fun c => decide (n * 4096 ≤ c.len)) = some c → c.len = n * 4096

section blocks

variable {m : Mem} {n : Nat} {ts : List Nat} {best : Scan}

theorem Chosen.exactly_iff (h : Chosen m n ts best)
    (hc : (ts.map (blkOf m)).find? (fun c => decide (n * 4096 ≤ c.len)) = some c) :
    c.len = n * 4096 ↔ noPages m best.baddr = n := by
  rw [find?_map] at hc
  obtain ⟨t, ht, rfl⟩ := Option.map_eq_some_iff.mp hc
  have hpred : (fun c : Blk => decide (n * 4096 ≤ c.len)) ∘ blkOf m =
      fun t => decide (n ≤ noPages m t) := by
    funext t
    show decide (n * 4096 ≤ noPages m t * 4096) = decide (n ≤ noPages m t)
    rw [decide_eq_decide]
    omega
  rw [hpred] at ht
  have hiff := h.exactly t ht
  show noPages m t * 4096 = n * 4096 ↔ _
  omega

theorem Chosen.whole (h : Chosen m n ts best) (hn : n < 2147483648)
    (hsmall : ∀ t ∈ ts, noPages m t ≤ 1048576) (hnone : ∀ c ∈ ts.map (blkOf m), c.len < n * 4096) :
    (allocHeader n best).noBlocks * 4096 = (blkOf m best.baddr).len ∧
      ∀ c ∈ ts.map (blkOf m), c.len ≤ (blkOf m best.baddr).len := by
  have hlt : noPages m best.baddr * 4096 < n * 4096 := hnone _ (mem_map_of_mem h.mem)
  refine ⟨?_, ?_⟩
  · rw [h.pages hn (hsmall _ h.mem)]
    show min n (noPages m best.baddr) * 4096 = noPages m best.baddr * 4096
    omega
  · refine forall_mem_map.mpr fun t ht => ?_
    have := h.longest (by omega) t ht
    show noPages m t * 4096 ≤ noPages m best.baddr * 4096
    omega

theorem Chosen.fits (h : Chosen m n ts best) (hc : c ∈ ts.map (blkOf m))
    (hfit : n * 4096 ≤ c.len) : n ≤ noPages m best.baddr := by
  by_contra hlt
  obtain ⟨t, ht, rfl⟩ := mem_map.mp hc
  have := h.longest (by omega) t ht
  have hfit : n * 4096 ≤ noPages m t * 4096 := hfit
  omega

/-- The chosen block is the shortest of those with more than `n` pages. -/
theorem Chosen.shortest (h : Chosen m n ts best) (hc : c ∈ ts.map (blkOf m))
    (hge : n ≤ noPages m best.baddr) (hfit : n * 4096 < c.len) :
    (blkOf m best.baddr).len ≤ c.len := by
  obtain ⟨t, ht, rfl⟩ := mem_map.mp hc
  have hfit : n * 4096 < noPages m t * 4096 := hfit
  have := h.tightest hge t ht (by omega)
  show noPages m best.baddr * 4096 ≤ noPages m t * 4096
  omega

end blocks

/-- **`core_alloc` is best fit** on every free list whose first block that is long enough fits
    exactly if any does. -/
theorem coreAlloc_bestFit {s : CoreState} {L : List Blk} (hlist : FreeList s L)
    (hord : Ordered L) (hne : L ≠ []) {n : Nat} (hn : n < 2147483648)
    (hfirst : ExactFirst L n) :
    ∃ ch s', coreAlloc s n = some (ch, s') ∧ IsBestFit L n ch := by
  obtain ⟨ts, hlink, rfl⟩ := hlist
  cases ts with
  | nil => exact absurd rfl hne
  | cons t ts =>
    obtain ⟨best, hrun, hbest⟩ := coreAlloc_chosen hlink hord hn
    refine ⟨_, _, hrun, blkOf s.mem best.baddr, mem_map_of_mem hbest.mem, rfl, ?_,
      hbest.whole hn hord.node_pages⟩
    rintro ⟨d, hd, hfit⟩
    have hge := hbest.fits hd hfit
    refine ⟨?_, ?_, ?_⟩
    · rw [hbest.pages hn (hord.node_pages _ hbest.mem)]
      omega
    · show n * 4096 ≤ noPages s.mem best.baddr * 4096
      omega
    · intro c hc hcfit
      by_cases heq : c.len = n * 4096
      · -- An exact block: then the first that fits is exact, and so is the chosen one.
        obtain ⟨e, he⟩ : ∃ e, ((t :: ts).map (blkOf s.mem)).find?
            (fun c => decide (n * 4096 ≤ c.len)) = some e := by
          rw [← Option.isSome_iff_exists, find?_isSome]
          exact ⟨c, hc, decide_eq_true hcfit⟩
        have hbase := (hbest.exactly_iff he).mp (hfirst ⟨c, hc, heq⟩ e he)
        show noPages s.mem best.baddr * 4096 ≤ c.len
        rw [hbase, heq]
      · exact hbest.shortest hc hge (by omega)

theorem coreAlloc_misses_exact {L : List Blk} (hlist : FreeList s L)
    (hord : Ordered L) (hn : n < 2147483648) (hfirst : ¬ ExactFirst L n) :
    ∃ ch s', coreAlloc s n = some (ch, s') ∧ ¬ IsBestFit L n ch := by
  simp only [ExactFirst, Classical.not_imp, not_forall] at hfirst
  obtain ⟨⟨d, hd, hdlen⟩, e, he, helen⟩ := hfirst
  obtain ⟨ts, hlink, rfl⟩ := hlist
  cases ts with
  | nil => exact absurd hd (not_mem_nil)
  | cons t ts =>
    obtain ⟨best, hrun, hbest⟩ := coreAlloc_chosen hlink hord hn
    refine ⟨_, _, hrun, ?_⟩
    rintro ⟨b, hb, haddr, hsome, -⟩
    obtain ⟨z, hz, rfl⟩ := mem_map.mp hb
    obtain rfl : best.baddr = z := haddr
    obtain ⟨-, hge, hmin⟩ := hsome ⟨d, hd, Nat.le_of_eq hdlen.symm⟩
    have hle : noPages s.mem best.baddr * 4096 ≤ d.len := hmin d hd (Nat.le_of_eq hdlen.symm)
    refine helen ((hbest.exactly_iff he).mpr ?_)
    rw [hdlen] at hle
    exact Nat.eq_of_mul_eq_mul_right (by omega : 0 < 4096) (Nat.le_antisymm hle hge)

/-- Three pages at 1 MB and two pages at 2 MB. -/
def threeThenTwo : CoreState where
  mem := fun a =>
    if a = 0x100000 then 3 else if a = 0x100004 then 0x200000
    else if a = 0x200000 then 2 else 0
  firstBlock := 0x100000
  ramSegments := [⟨0x100000, 0x200000, 1⟩]

theorem threeThenTwo_list : FreeList threeThenTwo [⟨0x100000, 3 * 4096⟩, ⟨0x200000, 2 * 4096⟩] :=
  ⟨[0x100000, 0x200000], ⟨rfl, by decide, rfl, by decide, rfl⟩, rfl⟩

theorem threeThenTwo_ordered : Ordered [⟨0x100000, 3 * 4096⟩, ⟨0x200000, 2 * 4096⟩] := by
  refine ⟨by simp [Blk.fin], ?_, ?_⟩
  · simp
  · simp [Blk.fin]

/-- A request for two pages cuts the three, although two pages are free as one block. -/
theorem core_alloc_not_best_fit :
    ∃ s L ch s', FreeList s L ∧ Ordered L ∧ L ≠ [] ∧ coreAlloc s 2 = some (ch, s') ∧
      ¬ IsBestFit L 2 ch := by
  obtain ⟨ch, s', hrun, hno⟩ := coreAlloc_misses_exact threeThenTwo_list threeThenTwo_ordered
    (n := 2) (by decide) (by
      intro hfirst
      have := hfirst ⟨_, mem_cons_of_mem _ mem_cons_self, rfl⟩ _ rfl
      simp at this)
  exact ⟨threeThenTwo, _, ch, s', threeThenTwo_list, threeThenTwo_ordered, by simp, hrun, hno⟩

/-- A request for three pages gets the three. -/
theorem coreAlloc_bestFit_three : ∃ ch s', coreAlloc threeThenTwo 3 = some (ch, s') ∧
    IsBestFit [⟨0x100000, 3 * 4096⟩, ⟨0x200000, 2 * 4096⟩] 3 ch :=
  coreAlloc_bestFit threeThenTwo_list threeThenTwo_ordered (by simp) (by decide)
    (fun _ c hc => by
      simp at hc
      rw [← hc])

end AtomOs
