import AtomOs.Mem.BestFit
import AtomOs.Mem.CoreRun
import AtomOs.Mem.Vm

/-!
# `core_alloc_n` takes all pages or none

`core_alloc_n` collects a request from several free blocks. As long as no block is long enough
for what is still missing it takes the longest one whole; when one is, it takes the rest from
that. If the room for headers or the memory runs out first, everything is given back.

The loop is followed over the pool of `AtomOs/Lib/Blocks.lean`: what is free and what was taken
so far make up what was free at first, so giving all of it back leads to the one canonical list
of the same pages. Taking the longest block first needs the fewest headers, which is why the
call succeeds whenever any choice of blocks would do.
-/

namespace AtomOs

open Lib List

variable {L : List Blk} {k n : Nat} {s : CoreState}

/-- `core_alloc_n(npages, ch, chmax)`: the headers taken, or `none` for `ENOMEM`. -/
def coreAllocUpTo (s : CoreState) (npages : Int) (chmax : Nat) :
    Option (Option (List CoreHeader) × CoreState) :=
  coreAllocFrom chmax npages [] s

/-! ## One allocation of the loop -/

/-- The block `core_alloc` takes from is long enough if any is, and else no block is longer. -/
theorem coreAlloc_greedy (h : CoreOk s L) (hne : L ≠ []) (hn : n < 2147483648) :
    ∃ ch s' pre b post, coreAlloc s n = some (ch, s') ∧ L = pre ++ b :: post ∧
      ch.physAddr = b.addr ∧ ch.noBlocks * 4096 = min (n * 4096) b.len ∧
      CoreOk s' (carve pre b (ch.noBlocks * 4096) post) ∧ s'.ramSegments = s.ramSegments ∧
      (b.len < n * 4096 → ∀ c ∈ L, c.len ≤ b.len) := by
  obtain ⟨ch, s', hrun, ⟨hnil, -⟩ | ⟨pre, b, post, hL, haddr, hk, hok, hsegs, -⟩⟩ :=
    coreAlloc_spec h hn
  · exact absurd hnil hne
  refine ⟨ch, s', pre, b, post, hrun, hL, haddr, hk, hok, hsegs, ?_⟩
  intro hlt
  obtain ⟨ts, hlink, hts⟩ := h.list
  have hord : Ordered (ts.map (blkOf s.mem)) := hts ▸ h.ordered
  cases ts with
  | nil => exact absurd hts.symm hne
  | cons t ts =>
    obtain ⟨best, hrun', hbest⟩ := coreAlloc_chosen hlink hord hn
    cases hrun.symm.trans hrun'
    -- The block of the specification is that of the chosen node: blocks have one node each.
    obtain ⟨z, hz, hzb⟩ : ∃ z ∈ t :: ts, blkOf s.mem z = b := by
      rw [← mem_map, hts, hL]
      simp
    have hzaddr : best.baddr = z := haddr.trans (congrArg Blk.addr hzb).symm
    intro c hc
    rw [← hts] at hc
    obtain ⟨y, hy, rfl⟩ := mem_map.mp hc
    have hblen : noPages s.mem z * 4096 = b.len := congrArg Blk.len hzb
    have hlong := hbest.longest (by rw [hzaddr]; omega) y hy
    rw [hzaddr] at hlong
    show noPages s.mem y * 4096 ≤ b.len
    omega

/-! ## Giving back -/

theorem coreFreeAll_spec {C : Set Nat} {chs : List CoreHeader} : ∀ {s : CoreState} {L : List Blk},
    CoreSysOk C ⟨s, chs⟩ L → ∃ s' L', coreFreeAll s chs = some s' ∧ CoreSysOk C ⟨s', []⟩ L' := by
  induction chs with
  | nil => exact fun {s L} h => ⟨s, L, rfl, h⟩
  | cons ch chs ih =>
    intro s L h
    obtain ⟨s1, L1, hfree, hok, -⟩ := h.free mem_cons_self
    rw [erase_cons_head] at hok
    obtain ⟨s', L', hall, hok'⟩ := ih hok
    refine ⟨s', L', ?_, hok'⟩
    rw [coreFreeAll, hfree]
    exact hall

/-! ## The loop -/

/-- `k` of the blocks have room for `n` pages. -/
def Coverable (L : List Blk) (k n : Nat) : Prop :=
  ∃ M : List Blk, M.Nodup ∧ M ⊆ L ∧ M.length ≤ k ∧ n * 4096 ≤ total M

theorem not_coverable_zero (hn : 0 < n) : ¬ Coverable L 0 n := by
  rintro ⟨M, -, -, hlen, htot⟩
  obtain rfl : M = [] := eq_nil_of_length_eq_zero (by omega)
  have : n * 4096 ≤ 0 := htot
  omega

theorem total_erase {M : List Blk} {b : Blk} (h : b ∈ M) : total M = b.len + total (M.erase b) :=
  total_perm (perm_cons_erase h)

/-- **Taking a longest block whole is never worse**: in any choice of blocks it can stand in for
    one of them. -/
theorem Coverable.greedy {pre post : List Blk} {b : Blk} {m : Nat}
    (h : Coverable (pre ++ b :: post) (k + 1) n) (hn : 0 < n)
    (hlong : ∀ c ∈ pre ++ b :: post, c.len ≤ b.len) (hm : m * 4096 + b.len ≤ n * 4096) :
    Coverable (pre ++ post) k m := by
  obtain ⟨M, hnd, hsub, hlen, htot⟩ := h
  have hother : ∀ c ∈ M, c ≠ b → c ∈ pre ++ post := by
    intro c hc hcb
    rcases mem_append.mp (hsub hc) with h | h
    · exact mem_append_left _ h
    · exact mem_append_right _ ((mem_cons.mp h).resolve_left hcb)
  -- The block that leaves the choice is `b` if it is in it, and any other if not.
  obtain ⟨c, hc, hcb⟩ : ∃ c ∈ M, b ∈ M → c = b := by
    by_cases hb : b ∈ M
    · exact ⟨b, hb, fun _ => rfl⟩
    cases M with
    | nil =>
      have : n * 4096 ≤ 0 := htot
      omega
    | cons c M => exact ⟨c, mem_cons_self, fun h => absurd h hb⟩
  refine ⟨M.erase c, hnd.erase c, ?_, ?_, ?_⟩
  · intro d hd
    obtain ⟨hdc, hdM⟩ := hnd.mem_erase_iff.mp hd
    refine hother d hdM fun hdb => hdc ?_
    rw [hdb, hcb (hdb ▸ hdM)]
  · rw [length_erase_of_mem hc]
    omega
  · rw [total_erase hc] at htot
    have h2 := hlong c (hsub hc)
    have h3 : m * 4096 + b.len ≤ total (M.erase c) + b.len := by
      calc m * 4096 + b.len ≤ n * 4096 := hm
        _ ≤ c.len + total (M.erase c) := htot
        _ ≤ b.len + total (M.erase c) := Nat.add_le_add_right h2 _
        _ = total (M.erase c) + b.len := Nat.add_comm _ _
    exact Nat.le_of_add_le_add_right h3

theorem coverable_nothing : Coverable L k 0 := ⟨[], nodup_nil, by simp, Nat.zero_le _, by simp⟩

theorem Coverable.add {pre post : List Blk} {b : Blk} {m : Nat} (h : Coverable (pre ++ post) k m)
    (hcan : Canon (pre ++ b :: post)) (hn : n * 4096 ≤ m * 4096 + b.len) :
    Coverable (pre ++ b :: post) (k + 1) n := by
  obtain ⟨M, hnd, hsub, hlen, htot⟩ := h
  have hb : b ∉ pre ++ post := by
    have hall : (pre ++ b :: post).Nodup := hcan.sep.imp fun {c d} hlt he => by
      rw [he, Blk.fin] at hlt
      omega
    exact (nodup_cons.mp (nodup_middle.mp hall)).1
  refine ⟨b :: M, nodup_cons.mpr ⟨fun hM => hb (hsub hM), hnd⟩, ?_, by simpa using hlen, ?_⟩
  · intro c hc
    rcases mem_cons.mp hc with rfl | hc
    · simp
    · rcases mem_append.mp (hsub hc) with h | h
      · exact mem_append_left _ h
      · exact mem_append_right _ (mem_cons_of_mem _ h)
  · calc n * 4096 ≤ m * 4096 + b.len := hn
      _ ≤ total M + b.len := Nat.add_le_add_right htot _
      _ = total (b :: M) := by rw [total_cons, Nat.add_comm]

/-- How the loop ends: with all pages in the headers `chs`, or with the first list. -/
structure Settled (L₀ L : List Blk) (k n : Nat) (acc : List CoreHeader)
    (r : Option (List CoreHeader)) (s' : CoreState) : Prop where
  all : ∀ chs, r = some chs → ∃ L', CoreSysOk (cover L₀) ⟨s', chs⟩ L' ∧
    (chs.map CoreHeader.noBlocks).sum = (acc.map CoreHeader.noBlocks).sum + n ∧
    chs.length ≤ acc.length + k
  nothing : r = none → CoreOk s' L₀
  covered : r ≠ none ↔ Coverable L k n

section loop

variable {L₀ L : List Blk} {s : CoreState} {acc : List CoreHeader}

theorem CoreSysOk.undo (h0 : Canon L₀) (h : CoreSysOk (cover L₀) ⟨s, acc⟩ L) :
    ∃ s', coreFreeAll s acc = some s' ∧ CoreOk s' L₀ := by
  obtain ⟨s', L', hfree, hok⟩ := coreFreeAll_spec h
  have hstart : Pool (cover L₀) L₀ [] :=
    ⟨h0, by simp, List.Pairwise.nil, by simp, by rw [cover_nil, Set.union_empty]⟩
  have hlist := hok.core
  rw [hok.pool.free_unique hstart] at hlist
  exact ⟨s', hfree, hlist⟩

theorem CoreSysOk.done (h : CoreSysOk (cover L₀) ⟨s, acc⟩ L) (k : Nat) :
    Settled L₀ L k 0 acc (some acc.reverse) s := by
  refine ⟨?_, by simp, by simp [coverable_nothing]⟩
  intro chs hchs
  cases hchs
  exact ⟨L, h.perm (reverse_perm acc).symm, by rw [map_reverse, sum_reverse, Nat.add_zero], by simp⟩

theorem CoreSysOk.giveUp (h0 : Canon L₀) (h : CoreSysOk (cover L₀) ⟨s, acc⟩ L)
    (hno : ¬ Coverable L k n) :
    ∃ s', coreFreeAll s acc = some s' ∧ Settled L₀ L k n acc none s' := by
  obtain ⟨s', hfree, hok⟩ := h.undo h0
  exact ⟨s', hfree, by simp, fun _ => hok, by simpa using hno⟩

theorem Settled.cons {L' : List Blk} {m : Nat} {ch : CoreHeader}
    {r : Option (List CoreHeader)} {s' : CoreState} (h : Settled L₀ L' k m (ch :: acc) r s')
    (hsum : ch.noBlocks + m = n) (hcov : Coverable L (k + 1) n ↔ Coverable L' k m) :
    Settled L₀ L (k + 1) n acc r s' := by
  refine ⟨?_, h.nothing, h.covered.trans hcov.symm⟩
  intro chs hchs
  obtain ⟨L1, hsys, htot, hlen⟩ := h.all chs hchs
  refine ⟨L1, hsys, ?_, ?_⟩
  · rw [htot, map_cons, sum_cons]
    omega
  · rw [length_cons] at hlen
    omega

/-- **The whole loop**, by induction on the room for headers that is left. -/
theorem coreAllocFrom_settled (h0 : Canon L₀) : ∀ {s : CoreState} {L : List Blk}
    {acc : List CoreHeader} {n : Nat}, CoreSysOk (cover L₀) ⟨s, acc⟩ L → n < 2147483648 →
      ∃ r s', coreAllocFrom k n acc s = some (r, s') ∧ Settled L₀ L k n acc r s' := by
  induction k with
  | zero =>
    intro s L acc n h hn
    by_cases hn0 : n = 0
    · subst hn0
      exact ⟨_, s, coreAllocFrom_done 0 acc s, h.done 0⟩
    obtain ⟨s', hfree, hset⟩ := h.giveUp h0 (not_coverable_zero (by omega : 0 < n))
    refine ⟨none, s', ?_, hset⟩
    unfold coreAllocFrom
    rw [if_neg (by omega), hfree]
    rfl
  | succ k ih =>
    intro s L acc n h hn
    by_cases hn0 : n = 0
    · subst hn0
      exact ⟨_, s, coreAllocFrom_done _ acc s, h.done _⟩
    have hpos : 0 < n := by omega
    unfold coreAllocFrom
    rw [if_neg (by omega)]
    by_cases hne : L = []
    · -- No memory left: every choice of blocks is empty.
      subst hne
      obtain ⟨ch, s1, hrun, ⟨-, hch, rfl⟩ | ⟨pre, b, post, hL, -⟩⟩ := coreAlloc_spec h.core hn
      · obtain ⟨s', hfree, hset⟩ := h.giveUp h0 (k := k + 1) (n := n) (by
          rintro ⟨M, -, hsub, -, htot⟩
          obtain rfl : M = [] := subset_nil.mp hsub
          have : n * 4096 ≤ 0 := htot
          omega)
        refine ⟨none, s', ?_, hset⟩
        rw [hrun]
        dsimp only
        rw [if_pos hch, hfree]
        rfl
      · exact absurd hL.symm (by simp)
    · obtain ⟨ch, s1, pre, b, post, hrun, rfl, haddr, hk, hok, -, hlong⟩ :=
        coreAlloc_greedy h.core hne hn
      have hblen := h.core.canon.pos b (by simp)
      have hch : ch.noBlocks ≠ 0 := by omega
      obtain ⟨ch', s', L', hrun', hmore, -, -⟩ := h.alloc hn
      cases hrun.symm.trans hrun'
      rw [if_neg hch] at hmore
      obtain rfl : L' = carve pre b (ch.noBlocks * 4096) post := hmore.core.list.unique hok.list
      obtain ⟨r, s', hrest, hset⟩ := ih hmore (by omega : n - ch.noBlocks < 2147483648)
      refine ⟨r, s', ?_, hset.cons (by omega) ?_⟩
      · rw [hrun]
        dsimp only
        rw [if_neg hch, i32_of_range (by omega) (by omega),
          show (n : Int) - ch.noBlocks = ((n - ch.noBlocks : Nat) : Int) by omega]
        exact hrest
      · by_cases hshort : b.len < n * 4096
        · -- The longest block is used up.
          have hcarve : carve pre b (ch.noBlocks * 4096) post = pre ++ post := by
            rw [carve, if_neg (by omega)]
          rw [hcarve]
          exact ⟨fun hcov => hcov.greedy hpos (hlong hshort) (by omega), fun hcov =>
            hcov.add h.core.canon (by omega)⟩
        · have hzero : n - ch.noBlocks = 0 := by omega
          rw [hzero]
          refine iff_of_true ⟨[b], by simp, by simp, by simp, ?_⟩ coverable_nothing
          show n * 4096 ≤ b.len + 0
          omega

end loop

/-! ## The call -/

theorem CoreOk.untouched (h : CoreOk s L) : CoreSysOk (cover L) ⟨s, []⟩ L :=
  ⟨h, ⟨h.canon, by simp [CoreSys.out], List.Pairwise.nil, by simp [CoreSys.out],
    by simp [CoreSys.out]⟩, by simp, by simp⟩

/-- `core_alloc_n` as its callers have it returns, and it succeeds just if 32 of the free blocks are
    enough. -/
theorem coreAllocN_settled (h : CoreOk s L) (hn : n < 2147483648) :
    ∃ r s', coreAllocN s n = some (r, s') ∧ (r ≠ none ↔ Coverable L 32 n) := by
  obtain ⟨r, s', hrun, hset⟩ := coreAllocFrom_settled h.canon (k := 32) h.untouched hn
  exact ⟨r, s', hrun, hset.covered⟩

theorem coreAllocN_covered (h : CoreOk s L) (hn : n < 2147483648) (hcov : Coverable L 32 n) :
    ∃ chs s', coreAllocN s n = some (some chs, s') := by
  obtain ⟨r, s', hrun, hiff⟩ := coreAllocN_settled h hn
  cases r with
  | none => exact absurd rfl (hiff.mpr hcov)
  | some chs => exact ⟨chs, s', hrun⟩

/-- **`core_alloc_n` is all or nothing.** On every canonical free list it returns; either with
    between one and `chmax` headers for disjoint fragments of `npages` pages together, which are
    the pages that left the free list, or with the free list as it was. It succeeds whenever
    `npages` pages fit into `chmax` of the free blocks. -/
theorem coreAllocUpTo_all_or_nothing {s : CoreState} {L : List Blk} (h : CoreOk s L)
    {npages chmax : Nat} (hn0 : 0 < npages) (hn : npages < 2147483648) :
    ∃ r s', coreAllocUpTo s npages chmax = some (r, s') ∧
      (∀ chs, r = some chs → 1 ≤ chs.length ∧ chs.length ≤ chmax ∧
        (chs.map CoreHeader.blk).Pairwise Blk.Apart ∧
        (chs.map CoreHeader.noBlocks).sum = npages ∧
        ∃ L', CoreOk s' L' ∧ cover L' ⊆ cover L ∧
          cover (chs.map CoreHeader.blk) = cover L \ cover L') ∧
      (r = none → CoreOk s' L) ∧
      (Coverable L chmax npages → r ≠ none) := by
  obtain ⟨r, s', hrun, hset⟩ := coreAllocFrom_settled h.canon (k := chmax) h.untouched hn
  refine ⟨r, s', hrun, ?_, hset.nothing, hset.covered.mpr⟩
  intro chs hchs
  obtain ⟨L', hsys, hsum, hlen⟩ := hset.all chs hchs
  have hsum : (chs.map CoreHeader.noBlocks).sum = npages := by simpa using hsum
  have hlen : chs.length ≤ chmax := by simpa using hlen
  refine ⟨?_, hlen, hsys.pool.outApart, hsum, L', hsys.core, ?_, ?_⟩
  · cases chs with
    | nil =>
      omega
    | cons ch chs => simp
  · rw [hsys.pool.cover_free]
    exact Set.sdiff_subset
  · have hsub : cover (chs.map CoreHeader.blk) ⊆ cover L := by
      rw [← hsys.pool.units]
      exact Set.subset_union_right
    rw [hsys.pool.cover_free, Set.sdiff_sdiff_right_self]
    exact (Set.inter_eq_self_of_subset_right hsub).symm

theorem threeThenTwo_ok : CoreOk threeThenTwo [⟨0x100000, 3 * 4096⟩, ⟨0x200000, 2 * 4096⟩] := by
  refine ⟨threeThenTwo_list, ⟨by simp [Blk.fin], by simp⟩, ?_⟩
  have hram : ∀ a n, 0x100000 ≤ a → a + n ≤ 0x300000 → a % 4096 = 0 → n % 4096 = 0 →
      InRam threeThenTwo.ramSegments ⟨a, n⟩ := by
    intro a n hlo hhi ha hn
    refine ⟨ha, hn, by show a + n ≤ _; omega, ?_⟩
    rintro x ⟨hx1, hx2⟩ -
    have hx1 : a ≤ x := hx1
    have hx2 : x < a + n := hx2
    have hend : u32 (0x300000 : Nat) = 0x300000 := u32_of_lt (by omega)
    simp only [isValidBlock, threeThenTwo, any_cons, any_nil]
    rw [decide_eq_true (by omega : 0x100000 ≤ x), decide_eq_true (by
      show x ≤ u32 ((0x100000 : Nat) + (0x200000 : Nat) : Int)
      rw [show ((0x100000 : Nat) + (0x200000 : Nat) : Int) = (0x300000 : Nat) by rfl, hend]
      omega)]
    rfl
  intro b hb
  simp only [mem_cons, not_mem_nil, or_false] at hb
  rcases hb with rfl | rfl
  · exact hram _ _ (by omega) (by omega) (by omega) (by omega)
  · exact hram _ _ (by omega) (by omega) (by omega) (by omega)

/-- Five pages from a block of three and one of two. -/
theorem coreAllocUpTo_five : ∃ chs s', coreAllocUpTo threeThenTwo (5 : Nat) 2 = some (some chs, s') ∧
    chs.length ≤ 2 ∧ (chs.map CoreHeader.noBlocks).sum = 5 := by
  obtain ⟨r, s', hrun, hall, -, hcov⟩ :=
    @coreAllocUpTo_all_or_nothing _ _ threeThenTwo_ok 5 2 (by decide) (by decide)
  cases r with
  | none => exact absurd rfl (hcov ⟨_, by simp, List.Subset.refl _, by simp, by simp [total]⟩)
  | some chs =>
    obtain ⟨-, hlen, -, hsum, -⟩ := hall chs rfl
    exact ⟨chs, s', hrun, hlen, hsum⟩

end AtomOs
