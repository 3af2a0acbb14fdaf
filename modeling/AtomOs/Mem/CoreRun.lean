import AtomOs.Lib.Run
import AtomOs.Mem.CoreInv

/-!
# The page allocator over whole runs

The system is the allocator together with the headers it has handed out and not yet taken
back. Its operations are `core_alloc`, `core_free` of a header that is out, and a store by
the owner of a block into that block, since the free list lives in the same memory.

`CoreSysOk` is the invariant: the free list is canonical, everything handed out is apart
from everything else, and the two together cover the memory the allocator was given.
A canonical list is determined by what it covers, so an allocator with nothing out has the
list it started with.
-/

namespace AtomOs

open Lib List CoreHeader

/-- The allocator and the headers that are out. -/
structure CoreSys where
  core : CoreState
  live : List CoreHeader

inductive CoreOp where
  /-- `core_alloc(npages)`; a header without pages hands out nothing. -/
  | alloc (npages : Nat)
  | free (ch : CoreHeader)
  /-- The owner of a block stores a word in it. -/
  | store (a v : Nat)

def coreStep (s : CoreSys) : CoreOp → Option CoreSys
  | .alloc npages =>
    match coreAlloc s.core npages with
    | none => none
    | some (ch, core) =>
      some ⟨core, if ch.noBlocks = 0 then s.live else ch :: s.live⟩
  | .free ch =>
    match coreFree s.core ch with
    | none => none
    | some core => some ⟨core, s.live.erase ch⟩
  | .store a v => some { s with core := { s.core with mem := s.core.mem.set a v } }

/-- What the callers do: ask for a number of pages that is not negative as an `int`, give
    back what they got, and store into what they got. -/
def CoreOpOk (s : CoreSys) : CoreOp → Prop
  | .alloc npages => npages < 2147483648
  | .free ch => ch ∈ s.live
  | .store a _ => ∃ ch ∈ s.live, ch.blk.Has a

instance (b : Blk) (x : Nat) : Decidable (b.Has x) := inferInstanceAs (Decidable (_ ∧ _))

instance (s : CoreSys) (op : CoreOp) : Decidable (CoreOpOk s op) :=
  match op with
  | .alloc npages => inferInstanceAs (Decidable (npages < 2147483648))
  | .free ch => inferInstanceAs (Decidable (ch ∈ s.live))
  | .store a _ => inferInstanceAs (Decidable (∃ ch ∈ s.live, ch.blk.Has a))

/-- The free list handed to the allocator: `core_free` of each range, from an empty list. -/
def coreBuild : CoreState → List CoreHeader → Option CoreState
  | s, [] => some s
  | s, ch :: chs => (coreFree s ch).bind fun s' => coreBuild s' chs

def CoreSys.out (s : CoreSys) : List Blk := s.live.map CoreHeader.blk

/-- The invariant of a run, for the memory `C` the allocator manages. -/
structure CoreSysOk (C : Set Nat) (s : CoreSys) (L : List Blk) : Prop where
  core : CoreOk s.core L
  pool : Pool C L s.out
  outAddr : ∀ ch ∈ s.live, ch.physAddr ≠ 0
  outRam : ∀ ch ∈ s.live, InRam s.core.ramSegments ch.blk

/-! ## Memory the allocator does not look at -/

theorem CoreOk.congr {s : CoreState} {L : List Blk} (h : CoreOk s L) {m : Mem}
    (hm : ∀ a ∈ cover L, m a = s.mem a) : CoreOk { s with mem := m } L := by
  obtain ⟨⟨ts, hlink, rfl⟩, hcan, hram⟩ := h
  have hkept : NodesKept s.mem m ts := fun z hz =>
    ⟨hm z (node_words_mem hcan hram hz).1, hm (z + 4) (node_words_mem hcan hram hz).2⟩
  exact ⟨⟨ts, hkept.linked hlink, hkept.map⟩, hcan, hram⟩

theorem CoreOk.addr_ne_zero {s : CoreState} {L : List Blk} (h : CoreOk s L) :
    ∀ b ∈ L, b.addr ≠ 0 := by
  obtain ⟨⟨ts, hlink, rfl⟩, -, -⟩ := h
  exact forall_mem_map.mpr hlink.not_stop

/-! ## One step -/

theorem blk_injective : Function.Injective blk := by
  intro c d hcd
  obtain ⟨a, n⟩ := c
  obtain ⟨a', n'⟩ := d
  simp only [blk, Blk.mk.injEq] at hcd
  simp only [mk.injEq]
  omega

section step

variable {C : Set Nat} {s : CoreSys} {L : List Blk} (h : CoreSysOk C s L)
include h

/-- `core_alloc` for one more client: what is out stays as it is, to the word. -/
theorem CoreSysOk.alloc {n : Nat} (hn : n < 2147483648) :
    ∃ ch core L', coreAlloc s.core n = some (ch, core) ∧
      CoreSysOk C ⟨core, if ch.noBlocks = 0 then s.live else ch :: s.live⟩ L' ∧
      ch.noBlocks ≤ n ∧ ∀ a ∈ cover s.out, core.mem a = s.core.mem a := by
  obtain ⟨ch, core, hrun, hcase⟩ := coreAlloc_spec h.core hn
  rcases hcase with ⟨rfl, h0, rfl⟩ | ⟨pre, b, post, rfl, haddr, hk, hok, hseg, hfr⟩
  · refine ⟨ch, s.core, [], hrun, ?_, by omega, fun _ _ => rfl⟩
    rw [if_pos h0]
    exact h
  have hkeep : ∀ a ∈ cover s.out, core.mem a = s.core.mem a := by
    intro a ha
    obtain ⟨c, hc, hac⟩ := ha
    exact hfr a (not_mem_cover_of_apart (h.pool.freeApart c hc) hac)
  refine ⟨ch, core, carve pre b (ch.noBlocks * 4096) post, hrun, ?_, by omega, hkeep⟩
  have hle : ch.noBlocks * 4096 ≤ b.len := by omega
  have hbL : b ∈ pre ++ b :: post := by simp
  have hblk : ch.blk = ⟨b.addr, ch.noBlocks * 4096⟩ := by rw [blk, haddr]
  have hcov : cover (pre ++ b :: post) =
      {x | ch.blk.Has x} ∪ cover (carve pre b (ch.noBlocks * 4096) post) := by
    rw [hblk]
    exact cover_carve hle
  have hap : ∀ c ∈ carve pre b (ch.noBlocks * 4096) post, ch.blk.Apart c := by
    rw [hblk]
    exact carve_apart h.pool.canon hle
  by_cases h0 : ch.noBlocks = 0
  · -- Nothing is handed out, and the list is what it was.
    have hsame : carve pre b (ch.noBlocks * 4096) post = pre ++ b :: post := by
      have hpos := h.pool.canon.pos b hbL
      rw [h0, carve, if_pos (by omega)]
      rfl
    rw [if_pos h0, hsame]
    rw [hsame] at hok
    exact ⟨hok, h.pool, h.outAddr, fun c hc => by rw [hseg]; exact h.outRam c hc⟩
  · rw [if_neg h0]
    refine ⟨hok, h.pool.take ?_ hok.canon hcov hap, ?_, ?_⟩
    · show 0 < ch.noBlocks * 4096
      omega
    · exact forall_mem_cons.mpr ⟨haddr ▸ h.core.addr_ne_zero b hbL, h.outAddr⟩
    · show ∀ c ∈ ch :: s.live, InRam core.ramSegments c.blk
      rw [hseg]
      refine forall_mem_cons.mpr ⟨?_, h.outRam⟩
      rw [hblk]
      refine (h.core.ram b hbL).sub (h.core.ram b hbL).aligned ?_ (Nat.le_refl _) ?_
      · exact Nat.mul_mod_left _ _
      · exact Nat.add_le_add_left hle _

/-- `core_free` of a header that is out: what stays out stays as it is. -/
theorem CoreSysOk.free {ch : CoreHeader} (hch : ch ∈ s.live) :
    ∃ core L', coreFree s.core ch = some core ∧ CoreSysOk C ⟨core, s.live.erase ch⟩ L' ∧
      ∀ a ∈ cover ((s.live.erase ch).map blk), core.mem a = s.core.mem a := by
  have hout : ch.blk ∈ s.out := mem_map_of_mem hch
  have hne : ch.noBlocks ≠ 0 := by
    have hpos : 0 < ch.noBlocks * 4096 := h.pool.outPos _ hout
    omega
  obtain ⟨core, pre, post, hrun, rfl, hok, hseg, hfr⟩ :=
    coreFree_spec h.core (h.outRam ch hch) hne (h.outAddr ch hch) (h.pool.freeApart _ hout)
  have hput : Pool C (coalesce pre ch.blk post) ((s.live.erase ch).map blk) := by
    rw [map_erase blk_injective]
    exact (h.pool.perm (perm_cons_erase hout)).put hok.canon cover_coalesce
  refine ⟨core, coalesce pre ch.blk post, hrun, ⟨hok, hput, ?_, ?_⟩, ?_⟩
  · exact fun c hc => h.outAddr c (mem_of_mem_erase hc)
  · intro c hc
    show InRam core.ramSegments c.blk
    rw [hseg]
    exact h.outRam c (mem_of_mem_erase hc)
  · intro a ha
    obtain ⟨c, hc, hac⟩ := ha
    refine hfr a ?_
    rw [← cover_coalesce]
    exact not_mem_cover_of_apart (hput.freeApart c hc) hac

omit h in
theorem CoreSysOk.perm {c : CoreState} {l l' : List CoreHeader} (h : CoreSysOk C ⟨c, l⟩ L)
    (hp : l.Perm l') : CoreSysOk C ⟨c, l'⟩ L := by
  refine ⟨h.core, h.pool.perm (hp.map _), ?_, ?_⟩
  · exact fun ch hch => h.outAddr ch (hp.mem_iff.mpr hch)
  · exact fun ch hch => h.outRam ch (hp.mem_iff.mpr hch)

theorem CoreSysOk.congr {m : Mem} (hm : ∀ a, a ∉ cover s.out → m a = s.core.mem a) :
    CoreSysOk C ⟨{ s.core with mem := m }, s.live⟩ L := by
  refine ⟨h.core.congr fun a ha => hm a fun hout => ?_, h.pool, h.outAddr, h.outRam⟩
  obtain ⟨b, hb, hab⟩ := hout
  exact not_mem_cover_of_apart (h.pool.freeApart b hb) hab ha

/-- **Every operation returns and keeps the invariant.** -/
theorem CoreSysOk.step {op : CoreOp} (hop : CoreOpOk s op) :
    ∃ s' L', coreStep s op = some s' ∧ CoreSysOk C s' L' := by
  cases op with
  | alloc n =>
    obtain ⟨ch, core, L', hrun, hok, -⟩ := h.alloc hop
    exact ⟨_, L', by simp only [coreStep, hrun], hok⟩
  | free ch =>
    obtain ⟨core, L', hrun, hok, -⟩ := h.free hop
    exact ⟨_, L', by simp only [coreStep, hrun], hok⟩
  | store a v =>
    obtain ⟨ch, hch, hin⟩ := hop
    refine ⟨_, L, rfl, h.congr fun x hx => Mem.set_ne fun he => hx ?_⟩
    exact he ▸ ⟨ch.blk, mem_map_of_mem hch, hin⟩

end step

/-- **The invariant holds in every state of a run.** -/
theorem CoreSysOk.run {C : Set Nat} {s t : CoreSys} {L : List Blk} (h : CoreSysOk C s L)
    (hrun : Reaches coreStep CoreOpOk s t) : ∃ L', CoreSysOk C t L' := by
  refine hrun.invariant (fun u => ∃ L', CoreSysOk C u L') ⟨L, h⟩ ?_
  intro u v op hu hop hstep
  obtain ⟨L', hu⟩ := hu
  obtain ⟨v', L'', hv, hok⟩ := hu.step hop
  rw [hstep] at hv
  cases hv
  exact ⟨L'', hok⟩

/-! ## The list the allocator starts with -/

/-- Freeing a run at address 0 empties the list: `first_block` becomes `NULL`. -/
theorem coreFree_zero {s : CoreState} {ch : CoreHeader} (h0 : ch.physAddr = 0)
    (hv : isValidBlock s.ramSegments ch = true) :
    ∃ s', coreFree s ch = some s' ∧ FreeList s' [] ∧ s'.ramSegments = s.ramSegments := by
  have hfind : findMemBlockBefore s ch = some 0 := by
    simp [findMemBlockBefore, h0, listFuel, seek]
  refine ⟨freeAtFront s ch, ?_, ⟨[], ?_, rfl⟩, freeAtFront_ramSegments _ _⟩
  · rw [coreFree, if_pos hv, hfind]
    rfl
  · show (freeAtFront s ch).firstBlock = 0
    unfold freeAtFront
    dsimp only
    split
    · exact h0
    · exact h0

/-- **Building the list from ranges that are apart** gives a canonical list; it has all of
    them, unless one starts at address 0. -/
theorem coreBuild_spec : ∀ {chs : List CoreHeader} {s : CoreState} {L : List Blk}, CoreOk s L →
    (∀ ch ∈ chs, InRam s.ramSegments ch.blk) → chs.Pairwise (fun c d => c.blk.Apart d.blk) →
    (∀ ch ∈ chs, ch.noBlocks ≠ 0 → ∀ b ∈ L, ch.blk.Apart b) →
    ∃ s' L', coreBuild s chs = some s' ∧ CoreOk s' L' ∧ s'.ramSegments = s.ramSegments ∧
      ((∀ ch ∈ chs, ch.physAddr ≠ 0) → cover L' = cover L ∪ cover (chs.map blk))
  | [], s, L, h, _, _, _ => ⟨s, L, rfl, h, rfl, fun _ => by simp⟩
  | ch :: chs, s, L, h, hram, hap, hfree => by
    obtain ⟨hch, hap⟩ := pairwise_cons.mp hap
    have hram' : ∀ c ∈ chs, InRam s.ramSegments c.blk := fun c hc =>
      hram c (mem_cons_of_mem _ hc)
    have hchram := hram ch mem_cons_self
    -- One call, and what it leaves for the rest of the ranges.
    have hone : ∃ s1 L1, coreFree s ch = some s1 ∧ CoreOk s1 L1 ∧
        s1.ramSegments = s.ramSegments ∧
        (∀ c ∈ chs, c.noBlocks ≠ 0 → ∀ b ∈ L1, c.blk.Apart b) ∧
        (ch.physAddr ≠ 0 → cover L1 = cover L ∪ {x | ch.blk.Has x}) := by
      have hrest : ∀ c ∈ chs, c.noBlocks ≠ 0 → ∀ b ∈ L, c.blk.Apart b := fun c hc =>
        hfree c (mem_cons_of_mem _ hc)
      by_cases hn : ch.noBlocks = 0
      · have hempty : {x | ch.blk.Has x} = ∅ := by
          refine Set.eq_empty_of_forall_notMem fun x hx => ?_
          have hlo : ch.physAddr ≤ x := hx.1
          have hhi : x < ch.physAddr + ch.noBlocks * 4096 := hx.2
          omega
        refine ⟨s, L, ?_, h, rfl, hrest, fun _ => by rw [hempty, Set.union_empty]⟩
        simp [coreFree, isValidBlock, hn]
      · by_cases h0 : ch.physAddr = 0
        · obtain ⟨s1, hrun, hlist, hseg⟩ := coreFree_zero h0 (hchram.valid hn)
          exact ⟨s1, [], hrun, ⟨hlist, canon_nil, by simp⟩, hseg, by simp, fun h => absurd h0 h⟩
        obtain ⟨s1, pre, post, hrun, rfl, hok, hseg, -⟩ :=
          coreFree_spec h hchram hn h0 (hfree ch mem_cons_self hn)
        refine ⟨s1, _, hrun, hok, hseg, ?_, fun _ => cover_coalesce⟩
        intro c hc hcn b hb
        have hcpos : 0 < c.blk.len := by
          show 0 < c.noBlocks * 4096
          omega
        refine apart_of_disjoint hcpos (hok.canon.pos b hb) fun x hx hbx => ?_
        have hx' : x ∈ cover (pre ++ post) ∪ {x | ch.blk.Has x} :=
          cover_coalesce ▸ (⟨b, hb, hbx⟩ : x ∈ cover (coalesce pre ch.blk post))
        rcases hx' with hxL | hxc
        · exact not_mem_cover_of_apart (hrest c hc hcn) hx hxL
        · exact not_has_of_apart (hch c hc) hxc hx
    obtain ⟨s1, L1, hrun, hok, hseg, hfree1, hcov⟩ := hone
    obtain ⟨s2, L2, hrun2, hok2, hseg2, hcov2⟩ :=
      coreBuild_spec hok (by rw [hseg]; exact hram') hap hfree1
    refine ⟨s2, L2, ?_, hok2, hseg2.trans hseg, fun hne => ?_⟩
    · rw [coreBuild, hrun]
      exact hrun2
    · rw [hcov2 (forall_mem_cons.mp hne).2,
        hcov (hne ch mem_cons_self), map_cons, cover_cons, Set.union_assoc]

/-- **The page allocator.** Build the free list from ranges of usable pages that are apart,
    and let the callers allocate, free what they got and store into it in any order. Every
    call returns. In every state the free list is sorted, disjoint and fully coalesced, what
    is out is apart from the rest, and the pages are those of the start. Once everything is
    back, the free list is the one of the start. -/
theorem core_pages_kept (s₀ : CoreState) {ranges : List CoreHeader} (h0 : s₀.firstBlock = 0)
    (hram : ∀ ch ∈ ranges, InRam s₀.ramSegments ch.blk)
    (hap : ranges.Pairwise fun c d => c.blk.Apart d.blk) :
    ∃ s₁ L₀, coreBuild s₀ ranges = some s₁ ∧ FreeList s₁ L₀ ∧ Canon L₀ ∧
      ((∀ ch ∈ ranges, ch.physAddr ≠ 0) → cover L₀ = cover (ranges.map CoreHeader.blk)) ∧
      ∀ t, Reaches coreStep CoreOpOk ⟨s₁, []⟩ t →
        (∀ op, CoreOpOk t op → ∃ t', coreStep t op = some t') ∧
        ∃ L, FreeList t.core L ∧ Canon L ∧ t.out.Pairwise Blk.Apart ∧
          (∀ b ∈ t.out, ∀ c ∈ L, b.Apart c) ∧ cover L ∪ cover t.out = cover L₀ ∧
          (t.live = [] → L = L₀) := by
  have hstart : CoreOk s₀ [] := ⟨⟨[], h0, rfl⟩, canon_nil, by simp⟩
  obtain ⟨s₁, L₀, hbuild, hok, -, hcov⟩ := coreBuild_spec hstart hram hap (by simp)
  refine ⟨s₁, L₀, hbuild, hok.list, hok.canon, fun hne => by simpa using hcov hne, ?_⟩
  have hpool : Pool (cover L₀) L₀ [] :=
    ⟨hok.canon, by simp, List.Pairwise.nil, by simp, by simp⟩
  have hsys : CoreSysOk (cover L₀) ⟨s₁, []⟩ L₀ := ⟨hok, hpool, by simp, by simp⟩
  intro t hrun
  obtain ⟨L, ht⟩ := hsys.run hrun
  refine ⟨fun op hop => ?_, L, ht.core.list, ht.pool.canon, ht.pool.outApart,
    ht.pool.freeApart, ht.pool.units, fun hlive => ?_⟩
  · obtain ⟨t', -, hstep, -⟩ := ht.step hop
    exact ⟨t', hstep⟩
  · have hnone : Pool (cover L₀) L [] := by
      have := ht.pool
      rwa [CoreSys.out, hlive] at this
    exact hnone.free_unique hpool

/-- Two ranges with a page between them, in 16 KiB of usable memory. -/
theorem core_pages_kept_two_ranges :
    ∃ s₁ L₀, coreBuild ⟨fun _ => 0, 0, [⟨0x1000, 0x4000, 1⟩]⟩ [⟨0x1000, 1⟩, ⟨0x3000, 2⟩]
        = some s₁ ∧ FreeList s₁ L₀ ∧
      ∀ t, Reaches coreStep CoreOpOk ⟨s₁, []⟩ t → t.live = [] → FreeList t.core L₀ := by
  have hram : ∀ ch ∈ [(⟨0x1000, 1⟩ : CoreHeader), ⟨0x3000, 2⟩],
      InRam [⟨0x1000, 0x4000, 1⟩] ch.blk := by
    intro ch hch
    have hlo : 0x1000 ≤ ch.physAddr ∧ ch.blk.fin ≤ 0x5000 ∧ ch.physAddr % 4096 = 0 := by
      rcases mem_pair.mp hch with rfl | rfl <;> decide
    refine ⟨hlo.2.2, Nat.mul_mod_left _ _, by omega, fun x hx _ => ?_⟩
    have h1 : ch.physAddr ≤ x := hx.1
    have h2 := hx.2
    have hu : u32 20480 = 20480 := by decide
    simp [isValidBlock, hu]
    omega
  obtain ⟨s₁, L₀, hbuild, hlist, -, -, hrun⟩ := core_pages_kept
    ⟨fun _ => 0, 0, [⟨0x1000, 0x4000, 1⟩]⟩ rfl hram
    (by simp [blk, Blk.Apart, Blk.fin])
  refine ⟨s₁, L₀, hbuild, hlist, fun t ht hlive => ?_⟩
  obtain ⟨-, L, hL, -, -, -, -, hback⟩ := hrun t ht
  exact hback hlive ▸ hL

/-- **A range that runs past its segment loses pages.** `is_valid_block` looks at the first
    page only, so three pages from the last page of a segment on are accepted as one range,
    but the third of them is not accepted when it comes back alone. -/
theorem core_page_lost :
    ∃ s₁ t, coreBuild ⟨fun _ => 0, 0, [⟨0x1000, 0x2000, 1⟩]⟩ [⟨0x2000, 3⟩] = some s₁ ∧
      FreeList s₁ [⟨0x2000, 3 * 4096⟩] ∧ Reaches coreStep CoreOpOk ⟨s₁, []⟩ t ∧
      t.live = [] ∧ FreeList t.core [⟨0x2000, 2 * 4096⟩] := by
  have hone : ∀ {s : CoreState} {n : Nat}, s.firstBlock = 0x2000 ∧ noPages s.mem 0x2000 = n ∧
      nextBlock s.mem 0x2000 = 0 → FreeList s [⟨0x2000, n * 4096⟩] := by
    rintro s n ⟨hf, hp, hn⟩
    refine ⟨[0x2000], ⟨hf, by decide, hn⟩, ?_⟩
    rw [map_singleton, blkOf, hp]
  obtain ⟨s₁, hbuild, hs₁, t, hops, hlive, ht⟩ :
      ∃ s₁ ∈ coreBuild ⟨fun _ => 0, 0, [⟨0x1000, 0x2000, 1⟩]⟩ [⟨0x2000, 3⟩],
        (s₁.firstBlock = 0x2000 ∧ noPages s₁.mem 0x2000 = 3 ∧ nextBlock s₁.mem 0x2000 = 0) ∧
        ∃ t ∈ runOps coreStep CoreOpOk ⟨s₁, []⟩
          [.alloc 2, .alloc 1, .free ⟨0x4000, 1⟩, .free ⟨0x2000, 2⟩], t.live = [] ∧
            t.core.firstBlock = 0x2000 ∧ noPages t.core.mem 0x2000 = 2 ∧
              nextBlock t.core.mem 0x2000 = 0 := by decide +kernel
  exact ⟨s₁, t, hbuild, hone hs₁, reaches_of_runOps hops, hlive, hone ht⟩

end AtomOs
