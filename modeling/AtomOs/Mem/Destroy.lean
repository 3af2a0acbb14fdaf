import AtomOs.Mem.Pages
import AtomOs.Mem.Expand

/-!
# What `vm_destroysegment` gives back

The loop over a page table collects frames into runs before it calls `core_free`. It never moves
`prev_addr` on inside a run, so a run ends after two frames, but every frame still goes back, and
goes back once: read one after the other, the pages of the calls are the frames of the table in
their order (`pages_runCalls`). That is a statement about a list of numbers; the rest of the module
says that the numbers the loop reads are those of the table as it was, since what `core_free` and
`kfree` write lies elsewhere.

`vmDestroySegmentLog` is `vm_destroysegment` with the list of its calls to `core_free`, and
**`vmDestroySegment_frees_each_once`** the result.
-/

namespace AtomOs

open Lib List CoreHeader

variable {m : Mem} {n p pt : Nat} {s : VmState}

/-! ## The calls -/

/-- The argument of `core_free` for a run. -/
def FrameRun.header (r : FrameRun) : CoreHeader := ⟨u32 (r.start * 4096), r.n⟩

def FrameRun.next (r : FrameRun) (phys : Nat) : FrameRun :=
  if phys = 0 then if r.start ≠ 0 then ⟨0, 0, 0⟩ else r
  else if r.prev = 0 then ⟨phys, phys, 1⟩
  else if r.prev + 1 = phys then { r with n := r.n + 1 }
  else ⟨phys, phys, 1⟩

/-- The calls made for one entry. -/
def FrameRun.calls (r : FrameRun) (phys : Nat) : List CoreHeader :=
  if phys = 0 then if r.start ≠ 0 then [r.header] else []
  else if r.prev = 0 then []
  else if r.prev + 1 = phys then []
  else [r.header]

/-- The calls made behind the loop. -/
def FrameRun.last (r : FrameRun) : List CoreHeader := if 0 < r.n then [r.header] else []

theorem coreFreeAll_singleton (core : CoreState) (ch : CoreHeader) :
    coreFreeAll core [ch] = coreFree core ch := by
  unfold coreFreeAll
  cases coreFree core ch <;> rfl

theorem frameStep_eq (core : CoreState) (r : FrameRun) (phys : Nat) :
    frameStep core r phys = (coreFreeAll core (r.calls phys)).map fun core => (core, r.next phys) := by
  unfold frameStep FrameRun.calls FrameRun.next
  split
  · split
    · rw [coreFreeAll_singleton]
      rfl
    · rfl
  split
  · rfl
  · split
    · rfl
    · rw [coreFreeAll_singleton]
      rfl

/-- `freeTableFrames`, with the calls. -/
def freeTableFramesLog (pt : Nat) : Nat → Nat → CoreState → FrameRun →
    Option (CoreState × FrameRun × List CoreHeader)
  | 0, _, core, r => some (core, r, [])
  | n + 1, j, core, r =>
    let phys := entryBase (core.mem (pt + 4 * j))
    match frameStep core r phys with
    | none => none
    | some (core, r') =>
      (freeTableFramesLog pt n (j + 1) core r').map fun (core, r'', log) =>
        (core, r'', r.calls phys ++ log)

/-- `destroyTables`, with the calls. -/
def destroyTablesLog : Nat → Nat → VmState → Option (VmState × List CoreHeader)
  | 0, _, _ => none
  | fuel + 1, ptl, s =>
    if ptl = 0 then some (s, [])
    else
      let node := s.ptls ptl
      match freeTableFramesLog node.pgtable 1024 0 s.heap.core ⟨0, 0, 0⟩ with
      | none => none
      | some (core, r, frames) =>
        match frameEnd core r with
        | none => none
        | some core =>
          match coreFree core ⟨node.pgtable, 1⟩ with
          | none => none
          | some core =>
            match kfree { s.heap with core := core } ptl with
            | none => none
            | some heap =>
              (destroyTablesLog fuel node.next { s with heap := heap }).map fun (s, log) =>
                (s, frames ++ r.last ++ ⟨node.pgtable, 1⟩ :: log)

/-- `vm_destroysegment`, with the calls. -/
def vmDestroySegmentLog (s : VmState) (mseg : Nat) : Option (VmState × List CoreHeader) :=
  match destroyTablesLog nodeFuel (s.segs mseg).pgtable s with
  | none => none
  | some (s, log) => (kfree s.heap mseg).map fun heap => ({ s with heap := heap }, log)

theorem freeTableFramesLog_forget (pt : Nat) : ∀ (n j : Nat) (core : CoreState) (r : FrameRun),
    (freeTableFramesLog pt n j core r).map (fun (core, r, _) => (core, r)) =
      freeTableFrames pt n j core r
  | 0, _, _, _ => rfl
  | n + 1, j, core, r => by
    unfold freeTableFramesLog freeTableFrames
    dsimp only
    cases frameStep core r (entryBase (core.mem (pt + 4 * j))) with
    | none => rfl
    | some x =>
      obtain ⟨core', r'⟩ := x
      dsimp only
      rw [← freeTableFramesLog_forget pt n (j + 1) core' r', Option.map_map]
      rfl

theorem destroyTablesLog_forget : ∀ (fuel ptl : Nat) (s : VmState),
    (destroyTablesLog fuel ptl s).map Prod.fst = destroyTables fuel ptl s
  | 0, _, _ => rfl
  | fuel + 1, ptl, s => by
    unfold destroyTablesLog destroyTables
    dsimp only
    split
    · rfl
    rw [← freeTableFramesLog_forget (s.ptls ptl).pgtable 1024 0 s.heap.core ⟨0, 0, 0⟩]
    cases freeTableFramesLog (s.ptls ptl).pgtable 1024 0 s.heap.core ⟨0, 0, 0⟩ with
    | none => rfl
    | some x =>
      obtain ⟨core, r, frames⟩ := x
      rw [Option.map_some]
      dsimp only
      cases frameEnd core r with
      | none => rfl
      | some core =>
        dsimp only
        cases coreFree core ⟨(s.ptls ptl).pgtable, 1⟩ with
        | none => rfl
        | some core =>
          dsimp only
          cases kfree { s.heap with core := core } ptl with
          | none => rfl
          | some heap =>
            dsimp only
            rw [← destroyTablesLog_forget fuel (s.ptls ptl).next { s with heap := heap },
              Option.map_map]
            rfl

theorem vmDestroySegmentLog_forget (s : VmState) (mseg : Nat) :
    (vmDestroySegmentLog s mseg).map Prod.fst = vmDestroySegment s mseg := by
  unfold vmDestroySegmentLog vmDestroySegment
  rw [← destroyTablesLog_forget]
  cases destroyTablesLog nodeFuel (s.segs mseg).pgtable s with
  | none => rfl
  | some x =>
    rw [Option.map_map]
    rfl

/-! ## Runs of a list of frames -/

/-- The calls for the entries `es`, from the run `r` on. -/
def runCalls : FrameRun → List Nat → List CoreHeader
  | r, [] => r.last
  | r, e :: es => r.calls e ++ runCalls (r.next e) es

def FrameRun.pages (r : FrameRun) : List Nat := (List.range r.n).map (r.start + ·)

/-- A run as the loop has it between two entries. -/
def FrameRun.Ok (r : FrameRun) : Prop :=
  r = ⟨0, 0, 0⟩ ∨
    r.start ≠ 0 ∧ r.prev = r.start ∧ (r.n = 1 ∨ r.n = 2) ∧ r.start + r.n ≤ 1048576

theorem FrameRun.Ok.header {r : FrameRun} (h : r.Ok) (hn : 0 < r.n) :
    r.header.pages = r.pages ∧ r.header.physAddr % 4096 = 0 ∧ r.header.noBlocks ≠ 0 := by
  rcases h with rfl | ⟨-, -, hcount, hlt⟩
  · exact absurd hn (Nat.lt_irrefl 0)
  have haddr : r.header.physAddr = r.start * 4096 :=
    u32_of_lt (x := r.start * 4096) (by omega)
  refine ⟨?_, by omega, fun h0 => ?_⟩
  · unfold CoreHeader.pages FrameRun.pages
    rw [haddr, Nat.mul_div_cancel _ (by decide)]
    rfl
  · have : r.n = 0 := h0
    omega

theorem FrameRun.Ok.single {f : Nat} (h0 : f ≠ 0) (hlt : f < 1048576) :
    FrameRun.Ok ⟨f, f, 1⟩ ∧ FrameRun.pages ⟨f, f, 1⟩ = [f] := by
  refine ⟨.inr ⟨h0, rfl, .inl rfl, ?_⟩, by simp [FrameRun.pages]⟩
  show f + 1 ≤ 1048576
  omega

/-- **Read one after the other, the pages of the calls are the frames in their order.** -/
theorem pages_runCalls {es : List Nat} : ∀ {r : FrameRun}, r.Ok → (∀ e ∈ es, e < 1048576) →
    (r.pages ++ es.filter (· ≠ 0)).Nodup →
    (runCalls r es).flatMap pages = r.pages ++ es.filter (· ≠ 0) ∧
      ∀ ch ∈ runCalls r es, ch.physAddr % 4096 = 0 ∧ ch.noBlocks ≠ 0 := by
  induction es with
  | nil =>
    intro r hr _ _
    rw [runCalls, FrameRun.last, filter_nil, append_nil]
    by_cases hn : 0 < r.n
    · obtain ⟨hpages, hal, hne⟩ := hr.header hn
      rw [if_pos hn]
      exact ⟨by simp [hpages], forall_mem_singleton.mpr ⟨hal, hne⟩⟩
    · rw [if_neg hn]
      have h0 : r.n = 0 := by omega
      exact ⟨by simp [FrameRun.pages, h0], by simp⟩
  | cons e es ih =>
    intro r hr hlt hnd
    have helt := hlt e mem_cons_self
    have hlt' : ∀ x ∈ es, x < 1048576 := (forall_mem_cons.mp hlt).2
    -- The run goes out, and the rest starts from a new one.
    have hflush : ∀ r' : FrameRun, r.Ok → r.n ≠ 0 → r'.Ok →
        r'.pages ++ es.filter (· ≠ 0) = (e :: es).filter (· ≠ 0) →
        ([r.header] ++ runCalls r' es).flatMap pages =
          r.pages ++ (e :: es).filter (· ≠ 0) ∧
        ∀ ch ∈ [r.header] ++ runCalls r' es, ch.physAddr % 4096 = 0 ∧ ch.noBlocks ≠ 0 := by
      intro r' hrok hn hr' hsame
      obtain ⟨hpages, hal, hne⟩ := hrok.header (by omega)
      have hnd' := (nodup_append.mp hnd).2.1
      rw [← hsame] at hnd'
      obtain ⟨hrest, hall⟩ := ih hr' hlt' hnd'
      refine ⟨?_, forall_mem_append.mpr ⟨forall_mem_singleton.mpr ⟨hal, hne⟩, hall⟩⟩
      rw [flatMap_append, hrest, hsame]
      simp [hpages]
    rw [runCalls, FrameRun.calls, FrameRun.next]
    by_cases he : e = 0
    · rw [if_pos he, if_pos he]
      have hskip : (e :: es).filter (· ≠ 0) = es.filter (· ≠ 0) := by simp [he]
      rcases hr with rfl | ⟨hstart, hprev, hn, hend⟩
      · rw [if_neg (by simp), if_neg (by simp), nil_append, hskip]
        rw [hskip] at hnd
        exact ih (.inl rfl) hlt' hnd
      · rw [if_pos hstart, if_pos hstart]
        exact hflush ⟨0, 0, 0⟩ (.inr ⟨hstart, hprev, hn, hend⟩) (by omega) (.inl rfl)
          (by rw [hskip]; rfl)
    · rw [if_neg he, if_neg he]
      have htake : (e :: es).filter (· ≠ 0) = e :: es.filter (· ≠ 0) := by simp [he]
      obtain ⟨hone, hpage⟩ := FrameRun.Ok.single he helt
      rcases hr with rfl | ⟨hstart, hprev, hn, hend⟩
      · rw [if_pos rfl, if_pos rfl, nil_append, htake]
        rw [htake] at hnd
        have hrest := ih hone hlt' (by rw [hpage]; exact hnd)
        exact hrest
      have hprev0 : r.prev ≠ 0 := by omega
      simp only [if_neg hprev0]
      by_cases hadj : r.prev + 1 = e
      · simp only [if_pos hadj]
        rw [nil_append, htake]
        -- A second frame: a third one here would be the second again.
        rw [htake] at hnd
        have hn1 : r.n = 1 := by
          refine hn.resolve_right fun hn2 => ?_
          refine (nodup_append.mp hnd).2.2 e ?_ e mem_cons_self rfl
          rw [FrameRun.pages, hn2, mem_map]
          exact ⟨1, by simp, by omega⟩
        have hpages : FrameRun.pages { r with n := r.n + 1 } = r.pages ++ [e] := by
          unfold FrameRun.pages
          simp [range_succ]
          omega
        have hok : FrameRun.Ok { r with n := r.n + 1 } := by
          refine .inr ⟨hstart, hprev, .inr ?_, ?_⟩
          · show r.n + 1 = 2
            omega
          · show r.start + (r.n + 1) ≤ 1048576
            omega
        have hrest := ih hok hlt' (by rw [hpages]; simpa using hnd)
        rw [hpages] at hrest
        simpa using hrest
      · simp only [if_neg hadj]
        exact hflush ⟨e, e, 1⟩ (.inr ⟨hstart, hprev, hn, hend⟩) (by omega) hone
          (by rw [hpage, htake]; rfl)

/-! ## The loop over one page table -/

section table

variable {C : Set Nat} {v : HeapView} {rest : List CoreHeader}

/-- The memory that is out when only `rest` is out of what others hold. -/
def HeapView.kept (v : HeapView) (rest : List CoreHeader) : Set Nat :=
  cover ((v.pages ++ (v.given ++ rest)).map CoreHeader.blk)

theorem HeapView.kept_append (v : HeapView) (A rest : List CoreHeader) {a : Nat}
    (ha : a ∈ v.kept rest) : a ∈ v.kept (A ++ rest) := by
  unfold HeapView.kept at *
  simp only [map_append, cover_append, Set.mem_union] at *
  tauto

theorem HeapOk.giveBackAll {calls : List CoreHeader} : ∀ {heap : HeapState},
    HeapOk C heap { v with others := calls ++ rest } →
      ∃ core, coreFreeAll heap.core calls = some core ∧
        HeapOk C { heap with core := core } { v with others := rest } ∧
        ∀ a ∈ v.kept rest, core.mem a = heap.mem a := by
  induction calls with
  | nil => exact fun {heap} h => ⟨heap.core, rfl, h, fun _ _ => rfl⟩
  | cons ch calls ih =>
    intro heap h
    obtain ⟨core1, hfree, hok, hkeep⟩ := h.giveBack (show (ch :: calls) ++ rest = ch :: (calls ++ rest) from rfl)
    obtain ⟨core, hall, hok', hkeep'⟩ := ih hok
    refine ⟨core, ?_, hok', fun a ha => ?_⟩
    · rw [coreFreeAll, hfree]
      exact hall
    · exact (hkeep' a ha).trans (hkeep a (v.kept_append calls rest ha))

/-- The entries of a page table, `n` from entry `j` on. -/
def entriesFrom (m : Mem) (pt n j : Nat) : List Nat :=
  (List.range' j n).map fun k => entryBase (m (pt + 4 * k))

theorem entriesFrom_succ (m : Mem) (pt n j : Nat) :
    entriesFrom m pt (n + 1) j = entryBase (m (pt + 4 * j)) :: entriesFrom m pt n (j + 1) := by
  simp [entriesFrom, List.range'_succ]

theorem entriesFrom_congr {m' : Mem} {j : Nat} (h : ∀ k < j + n, m' (pt + 4 * k) = m (pt + 4 * k)) :
    entriesFrom m' pt n j = entriesFrom m pt n j := by
  refine map_congr_left fun k hk => ?_
  rw [mem_range'_1] at hk
  rw [h k (by omega)]

theorem entriesFrom_lt {j e : Nat} (h : e ∈ entriesFrom m pt n j) : e < 1048576 := by
  obtain ⟨k, -, rfl⟩ := mem_map.mp h
  exact Nat.mod_lt _ (by decide)

/-- **The loop over one page table** makes the calls of the table as it was, if the table is not
    among what goes back meanwhile. -/
theorem freeTableFramesLog_spec : ∀ {j : Nat} {heap : HeapState} {r : FrameRun},
    j + n ≤ 1024 → (∀ k < 1024, pt + 4 * k ∈ v.kept rest) →
    HeapOk C heap { v with others := runCalls r (entriesFrom heap.mem pt n j) ++ rest } →
    ∃ core r' log, freeTableFramesLog pt n j heap.core r = some (core, r', log) ∧
      log ++ r'.last = runCalls r (entriesFrom heap.mem pt n j) ∧
      HeapOk C { heap with core := core } { v with others := r'.last ++ rest } ∧
      ∀ a ∈ v.kept rest, core.mem a = heap.mem a := by
  induction n with
  | zero =>
    intro j heap r _ _ h
    exact ⟨heap.core, r, [], rfl, rfl, h, fun _ _ => rfl⟩
  | succ n ih =>
    intro j heap r hj htab h
    rw [entriesFrom_succ, runCalls] at h ⊢
    rw [append_assoc] at h
    obtain ⟨core1, hall, hok1, hkeep1⟩ := h.giveBackAll
    have hkeep : ∀ a ∈ v.kept rest, core1.mem a = heap.mem a := fun a ha =>
      hkeep1 a (v.kept_append _ rest ha)
    have hsame : entriesFrom core1.mem pt n (j + 1) = entriesFrom heap.mem pt n (j + 1) :=
      entriesFrom_congr fun k hk => hkeep _ (htab k (by omega))
    rw [← hsame] at hok1 ⊢
    obtain ⟨core, r', log, hrun, hlog, hok, hkeep'⟩ := @ih _ { heap with core := core1 } _
      (by omega) htab hok1
    have hmem : heap.mem = heap.core.mem := rfl
    rw [hmem] at hall hlog ⊢
    have hrun : freeTableFramesLog pt n (j + 1) core1
        (r.next (entryBase (heap.core.mem (pt + 4 * j)))) = some (core, r', log) := hrun
    refine ⟨core, r', r.calls (entryBase (heap.core.mem (pt + 4 * j))) ++ log, ?_, ?_, hok,
      fun a ha => (hkeep' a ha).trans (hkeep a ha)⟩
    · unfold freeTableFramesLog
      dsimp only
      rw [frameStep_eq, hall, Option.map_some]
      dsimp only
      rw [hrun]
      rfl
    · rw [append_assoc, hlog]
      rfl

theorem frameEnd_eq (core : CoreState) (r : FrameRun) :
    frameEnd core r = coreFreeAll core r.last := by
  unfold frameEnd FrameRun.last
  split
  · exact (coreFreeAll_singleton core r.header).symm
  · rfl

end table

/-! ## The loop over the page tables -/

/-- The calls for one node of the list: its frames, and then its page table. -/
def tableCalls (s : VmState) (p : Nat) : List CoreHeader :=
  runCalls ⟨0, 0, 0⟩ (entriesFrom s.mem (s.ptls p).pgtable 1024 0) ++ [⟨(s.ptls p).pgtable, 1⟩]

/-- The frames under one page table, and the page of the table itself. -/
def tablePages (s : VmState) (p : Nat) : List Nat :=
  (entriesFrom s.mem (s.ptls p).pgtable 1024 0).filter (· ≠ 0) ++ [(s.ptls p).pgtable / 4096]

/-- The list nodes `ps` are in use in the kernel heap. -/
def InUse (heap : HeapState) (v : HeapView) (ps : List Nat) : Prop :=
  ∀ p ∈ ps, ∃ b ∈ v.used.map (nodeBlk heap.mem), b.addr = p

section nodes

variable {C : Set Nat} {heap : HeapState} {v : HeapView}

theorem HeapOk.used_congr (h : HeapOk C heap v)
    (hm : ∀ a ∈ cover (v.pages.map blk), m a = heap.mem a) :
    v.used.map (nodeBlk m) = v.used.map (nodeBlk heap.mem) := by
  have hkept : CellsKept heap.mem m v.used := fun z hz a ha =>
    hm a ((h.nodes.node z (v.out_sub (v.used_sub hz))).mem_cover h.nodes.page ha)
  exact hkept.map

theorem HeapOk.kfreeNode (h : HeapOk C heap v) (hl : v.loose = []) {ps : List Nat}
    (huse : InUse heap v (p :: ps)) (hp : p ∉ ps) :
    ∃ heap' v', kfree heap p = some heap' ∧ HeapOk C heap' v' ∧ v'.loose = [] ∧
      v'.others = v.others ∧ InUse heap' v' ps ∧
      ∀ a ∈ cover ((v.given ++ v.others).map blk), heap'.mem a = heap.mem a := by
  obtain ⟨b, hb, rfl⟩ := huse p mem_cons_self
  obtain ⟨heap', v', pre, post, hrun, hok, hl', hoth, -, hused, hused', hkeep⟩ := kfree_spec h hl hb
  refine ⟨heap', v', hrun, hok, hl', hoth, ?_, hkeep⟩
  intro q hq
  obtain ⟨c, hc, rfl⟩ := huse q (mem_cons_of_mem _ hq)
  refine ⟨c, ?_, rfl⟩
  rw [hused] at hc
  rw [hused']
  rcases mem_append.mp hc with hc | hc
  · exact mem_append_left _ hc
  · rcases mem_cons.mp hc with rfl | hc
    · exact absurd hq hp
    · exact mem_append_right _ hc

end nodes

theorem HeapView.table_kept (v : HeapView) (rest : List CoreHeader) {k : Nat} (hk : k < 1024) :
    pt + 4 * k ∈ v.kept (⟨pt, 1⟩ :: rest) := by
  refine ⟨blk ⟨pt, 1⟩, mem_map_of_mem (by simp), ?_, ?_⟩
  · show pt ≤ pt + 4 * k
    omega
  · show pt + 4 * k < pt + 1 * 4096
    omega

/-- **One page table**: its frames and itself go back, and its node is freed. -/
theorem destroyTable_spec {C : Set Nat} {v : HeapView} {ps : List Nat}
    {rest : List CoreHeader} (h : HeapOk C s.heap { v with others := tableCalls s p ++ rest })
    (hl : v.loose = []) (huse : InUse s.heap v (p :: ps)) (hp : p ∉ ps) :
    ∃ core1 r log core2 core3 heap v',
      freeTableFramesLog (s.ptls p).pgtable 1024 0 s.heap.core ⟨0, 0, 0⟩ = some (core1, r, log) ∧
      frameEnd core1 r = some core2 ∧ coreFree core2 ⟨(s.ptls p).pgtable, 1⟩ = some core3 ∧
      kfree { s.heap with core := core3 } p = some heap ∧
      log ++ r.last ++ [⟨(s.ptls p).pgtable, 1⟩] = tableCalls s p ∧
      HeapOk C heap v' ∧ v'.loose = [] ∧ v'.others = rest ∧ InUse heap v' ps ∧
      ∀ a ∈ cover (rest.map blk), heap.mem a = s.mem a := by
  unfold tableCalls at h ⊢
  rw [append_assoc, singleton_append] at h
  obtain ⟨core1, r, log, hframes, hlog, hok1, hkeep1⟩ := freeTableFramesLog_spec (by omega)
    (fun k hk => v.table_kept rest hk) h
  obtain ⟨core2, hend, hok2, hkeep2⟩ := hok1.giveBackAll
  obtain ⟨core3, hfree, hok3, hkeep3⟩ := hok2.giveBack
    (show [⟨(s.ptls p).pgtable, 1⟩] ++ rest = ⟨(s.ptls p).pgtable, 1⟩ :: rest from rfl)
  have hkeep : ∀ a ∈ v.kept rest, core3.mem a = s.mem a := by
    intro a ha
    have ha' : a ∈ v.kept ([⟨(s.ptls p).pgtable, 1⟩] ++ rest) := v.kept_append _ rest ha
    exact (hkeep3 a ha).trans ((hkeep2 a ha').trans (hkeep1 a ha'))
  have hpages : ∀ a ∈ cover (v.pages.map blk), core3.mem a = s.heap.mem a := by
    intro a ha
    refine hkeep a ?_
    unfold HeapView.kept
    rw [map_append, cover_append]
    exact .inl ha
  have huse3 : InUse { s.heap with core := core3 } { v with others := rest } (p :: ps) := by
    intro q hq
    have hused := h.used_congr hpages
    obtain ⟨b, hb, hbq⟩ := huse q hq
    refine ⟨b, ?_, hbq⟩
    show b ∈ v.used.map (nodeBlk core3.mem)
    rw [show v.used.map (nodeBlk core3.mem) = v.used.map (nodeBlk s.heap.mem) from hused]
    exact hb
  obtain ⟨heap, v', hkfree, hok, hl', hoth, huse', hkeep4⟩ := hok3.kfreeNode hl huse3 hp
  refine ⟨core1, r, log, core2, core3, heap, v', hframes, ?_, hfree, hkfree, ?_, hok, hl', hoth, huse',
    fun a ha => ?_⟩
  · rw [frameEnd_eq]
    exact hend
  · rw [hlog]
    rfl
  · refine (hkeep4 a ?_).trans (hkeep a ?_)
    · rw [map_append, cover_append]
      exact .inr ha
    · unfold HeapView.kept
      rw [map_append, map_append, cover_append, cover_append]
      exact .inr (.inr ha)

theorem tableCalls_congr {heap : HeapState}
    (h : ∀ k < 1024, heap.mem ((s.ptls p).pgtable + 4 * k) = s.mem ((s.ptls p).pgtable + 4 * k)) :
    tableCalls { s with heap := heap } p = tableCalls s p := by
  have hentries : entriesFrom heap.mem (s.ptls p).pgtable 1024 0 =
      entriesFrom s.mem (s.ptls p).pgtable 1024 0 :=
    entriesFrom_congr fun k hk => h k (by omega)
  unfold tableCalls
  rw [← hentries]
  rfl

/-- **The loop over the page tables.** -/
theorem destroyTablesLog_spec {C : Set Nat} {rest : List CoreHeader} {mseg : Nat} :
    ∀ {ps : List Nat} {fuel ptl : Nat} {s : VmState} {v : HeapView}, ps.length < fuel →
    Linked (fun p => (s.ptls p).next) (· = 0) ptl ps → mseg ∉ ps →
    HeapOk C s.heap { v with others := ps.flatMap (tableCalls s) ++ rest } → v.loose = [] →
    InUse s.heap v (ps ++ [mseg]) →
    ∃ t v', destroyTablesLog fuel ptl s = some (t, ps.flatMap (tableCalls s)) ∧
      HeapOk C t.heap v' ∧ v'.loose = [] ∧ v'.others = rest ∧ InUse t.heap v' [mseg] := by
  intro ps
  induction ps with
  | nil =>
    intro fuel ptl s v hfuel hlink _ h hl huse
    obtain rfl : ptl = 0 := hlink
    cases fuel with
    | zero => exact absurd hfuel (Nat.lt_irrefl 0)
    | succ fuel =>
      refine ⟨s, _, ?_, h, hl, rfl, huse⟩
      unfold destroyTablesLog
      rfl
  | cons p ps ih =>
    intro fuel ptl s v hfuel hlink hmseg h hl huse
    have hnd := hlink.nodup
    obtain ⟨rfl, hp0, hrest⟩ := hlink
    cases fuel with
    | zero => exact absurd hfuel (Nat.not_lt_zero _)
    | succ fuel =>
      rw [flatMap_cons, append_assoc] at h
      have hp : ptl ∉ ps ++ [mseg] := by
        intro hmem
        rcases mem_append.mp hmem with hmem | hmem
        · exact (nodup_cons.mp hnd).1 hmem
        · exact hmseg (by rw [mem_singleton.mp hmem]; exact mem_cons_self)
      obtain ⟨core1, r, log, core2, core3, heap, v', hframes, hend, hfree, hkfree, hlog, hok, hl',
        hoth, huse', hkeep⟩ := destroyTable_spec h hl huse hp
      -- The tables that are left are as they were.
      have hsame : ∀ q ∈ ps, tableCalls { s with heap := heap } q = tableCalls s q := by
        intro q hq
        refine tableCalls_congr fun k hk => hkeep _ ?_
        rw [map_append, cover_append]
        refine .inl ⟨blk ⟨(s.ptls q).pgtable, 1⟩, mem_map_of_mem ?_, ?_, ?_⟩
        · exact mem_flatMap.mpr ⟨q, hq, by simp [tableCalls]⟩
        · show (s.ptls q).pgtable ≤ _
          omega
        · show _ < (s.ptls q).pgtable + 1 * 4096
          omega
      have hcalls : ps.flatMap (tableCalls { s with heap := heap }) = ps.flatMap (tableCalls s) := by
        rw [flatMap_def, flatMap_def, map_congr_left hsame]
      have hok' : HeapOk C heap
          { v' with others := ps.flatMap (tableCalls { s with heap := heap }) ++ rest } := by
        rw [hcalls, ← hoth]
        exact hok
      obtain ⟨t, v'', hrun, hdone, hl'', hoth'', huse''⟩ := ih (s := { s with heap := heap })
        (by simpa using hfuel) hrest (fun hm => hmseg (mem_cons_of_mem _ hm)) hok' hl' huse'
      refine ⟨t, v'', ?_, hdone, hl'', hoth'', huse''⟩
      unfold destroyTablesLog
      rw [if_neg hp0]
      dsimp only
      rw [hframes]
      dsimp only
      rw [hend]
      dsimp only
      rw [hfree]
      dsimp only
      rw [hkfree]
      dsimp only
      rw [hrun, Option.map_some, hcalls, flatMap_cons, ← hlog]
      simp

/-! ## The segment -/

/-- A segment as `vm_creatememsegment` and `vm_expandpagetables` build it: `ps` are the nodes of its
    page table list, and its page tables and the frames in them are out of the page allocator for
    no other purpose. -/
structure SegmentOk (C : Set Nat) (s : VmState) (v : HeapView) (mseg : Nat) (ps : List Nat) :
    Prop where
  heap : HeapOk C s.heap v
  settled : v.loose = []
  chain : Linked (fun p => (s.ptls p).next) (· = 0) (s.segs mseg).pgtable ps
  nodes : InUse s.heap v (ps ++ [mseg])
  notNode : mseg ∉ ps
  tables : ∀ p ∈ ps, (s.ptls p).pgtable % 4096 = 0
  owned : ∀ f ∈ ps.flatMap (tablePages s), f * 4096 ∈ v.owned

theorem pages_tableCalls (hal : (s.ptls p).pgtable % 4096 = 0) (hnd : (tablePages s p).Nodup) :
    (tableCalls s p).flatMap pages = tablePages s p ∧
      ∀ ch ∈ tableCalls s p, ch.physAddr % 4096 = 0 ∧ ch.noBlocks ≠ 0 := by
  obtain ⟨hpages, hall⟩ := @pages_runCalls (entriesFrom s.mem (s.ptls p).pgtable 1024 0) ⟨0, 0, 0⟩
    (.inl rfl) (fun e he => entriesFrom_lt he) (nodup_append.mp hnd).1
  refine ⟨?_, forall_mem_append.mpr ⟨hall, forall_mem_singleton.mpr ⟨hal, Nat.one_ne_zero⟩⟩⟩
  unfold tableCalls tablePages
  rw [flatMap_append, hpages]
  simp [FrameRun.pages, pages]

theorem pages_segmentCalls : ∀ {ps : List Nat},
    (∀ p ∈ ps, (s.ptls p).pgtable % 4096 = 0) → (ps.flatMap (tablePages s)).Nodup →
    (ps.flatMap (tableCalls s)).flatMap pages = ps.flatMap (tablePages s) ∧
      ∀ ch ∈ ps.flatMap (tableCalls s), ch.physAddr % 4096 = 0 ∧ ch.noBlocks ≠ 0 := by
  intro ps
  induction ps with
  | nil => exact fun _ _ => ⟨rfl, by simp⟩
  | cons p ps ih =>
    intro hal hnd
    obtain ⟨hnd1, hnd2, -⟩ := nodup_append.mp hnd
    obtain ⟨hone, hall⟩ := pages_tableCalls (hal p mem_cons_self) hnd1
    obtain ⟨hrest, hall'⟩ := ih (forall_mem_cons.mp hal).2 hnd2
    refine ⟨?_, fun ch hch => ?_⟩
    · rw [flatMap_cons, flatMap_append, hone, hrest, flatMap_cons]
    · rw [flatMap_cons, mem_append] at hch
      exact hch.elim (hall ch) (hall' ch)

section segment

variable {C : Set Nat} {s : VmState} {v : HeapView} {mseg : Nat} {ps : List Nat}

theorem SegmentOk.length_lt (h : SegmentOk C s v mseg ps) : ps.length < nodeFuel := by
  have hnd : (ps ++ [mseg]).Nodup := by
    rw [nodup_append]
    refine ⟨h.chain.nodup, nodup_singleton _, fun a ha b hb => ?_⟩
    rw [mem_singleton.mp hb]
    rintro rfl
    exact h.notNode ha
  have hsub : ps ++ [mseg] ⊆ (v.used.map (nodeBlk s.heap.mem)).map Blk.addr := by
    intro p hp
    obtain ⟨b, hb, rfl⟩ := h.nodes p hp
    exact mem_map_of_mem hb
  have hle := (hnd.subperm hsub).length_le
  simp only [length_append, length_singleton, length_map] at hle
  have hused := h.heap.nodes.used_length
  omega

theorem SegmentOk.calls (h : SegmentOk C s v mseg ps) (hd : (ps.flatMap (tablePages s)).Nodup) :
    ∃ rest, HeapOk C s.heap { v with others := ps.flatMap (tableCalls s) ++ rest } := by
  obtain ⟨hpages, hall⟩ := pages_segmentCalls h.tables hd
  obtain ⟨F, hsys⟩ := h.heap.sys
  have hin : ∀ ch ∈ v.others, ch ∈ v.pages ++ (v.given ++ v.others) := fun ch hch =>
    mem_append_right _ (mem_append_right _ hch)
  have hal : ∀ ch ∈ v.others, ch.physAddr % 4096 = 0 := fun ch hch =>
    (hsys.outRam ch (hin ch hch)).aligned
  have hpos : ∀ ch ∈ v.others, ch.noBlocks ≠ 0 := by
    intro ch hch h0
    have hlen : 0 < ch.noBlocks * 4096 := hsys.pool.outPos ch.blk (mem_map_of_mem (hin ch hch))
    omega
  have hap : (v.others.map blk).Pairwise Blk.Apart := by
    have hout := hsys.pool.outApart
    rw [CoreSys.out, map_append, map_append] at hout
    exact (pairwise_append.mp (pairwise_append.mp hout).2.1).2.1
  have hndo := (apart_iff_nodup hal hpos).mp hap
  -- What is left: the other pages, one by one.
  let left := (v.others.flatMap pages).filter (· ∉ ps.flatMap (tablePages s))
  have hperm : ((ps.flatMap (tableCalls s) ++ left.map pageHeader).flatMap pages).Perm
      (v.others.flatMap pages) := by
    rw [flatMap_append, hpages, flatMap_pages_pageHeader]
    refine (perm_ext_iff_of_nodup ?_ hndo).mpr fun f => ?_
    · rw [nodup_append]
      refine ⟨hd, hndo.filter _, fun a ha b hb hab => ?_⟩
      have hb' := (mem_filter.mp hb).2
      rw [← hab] at hb'
      exact (of_decide_eq_true hb') ha
    · rw [mem_append, mem_filter, decide_eq_true_iff]
      have howned : f ∈ ps.flatMap (tablePages s) → f ∈ v.others.flatMap pages := by
        intro hf
        have hcov := (mem_cover_iff hal).mp (h.owned f hf)
        rwa [Nat.mul_div_cancel _ (by decide)] at hcov
      by_cases hf : f ∈ ps.flatMap (tablePages s)
      · exact ⟨fun _ => howned hf, fun _ => .inl hf⟩
      · exact ⟨fun hor => (hor.resolve_left hf).1, fun hm => .inr ⟨hm, hf⟩⟩
  have hB : ∀ ch ∈ ps.flatMap (tableCalls s) ++ left.map pageHeader,
      ch.physAddr % 4096 = 0 ∧ ch.noBlocks ≠ 0 := by
    refine forall_mem_append.mpr ⟨hall, fun ch hch => ?_⟩
    obtain ⟨f, -, rfl⟩ := mem_map.mp hch
    exact ⟨Nat.mul_mod_left f 4096, Nat.one_ne_zero⟩
  have hheap : HeapOk C s.heap { v with others := v.others ++ [] } := by
    rw [append_nil]
    exact h.heap
  have hre := hheap.regroup (fun ch hch => (hB ch hch).1) (fun ch hch => (hB ch hch).2) hperm
  rw [append_nil] at hre
  exact ⟨left.map pageHeader, hre⟩

/-- **`vm_destroysegment` frees each frame once.** If the frames of a segment and its page tables
    are all different, then it comes back, the runs it gives to `core_free` lie apart, and together
    they are exactly these pages. -/
theorem vmDestroySegment_frees_each_once (h : SegmentOk C s v mseg ps)
    (hd : (ps.flatMap (tablePages s)).Nodup) :
    ∃ t log, vmDestroySegmentLog s mseg = some (t, log) ∧ vmDestroySegment s mseg = some t ∧
      (log.map CoreHeader.blk).Pairwise Blk.Apart ∧
      cover (log.map CoreHeader.blk) = {a | a / 4096 ∈ ps.flatMap (tablePages s)} := by
  obtain ⟨hpages, hall⟩ := pages_segmentCalls h.tables hd
  obtain ⟨rest, hheap⟩ := h.calls hd
  obtain ⟨t, v', hrun, hok, hl, -, huse⟩ := destroyTablesLog_spec h.length_lt h.chain h.notNode hheap
    h.settled h.nodes
  obtain ⟨heap, v'', hfree, -⟩ := hok.kfreeNode hl huse not_mem_nil
  have hlog : vmDestroySegmentLog s mseg =
      some ({ t with heap := heap }, ps.flatMap (tableCalls s)) := by
    unfold vmDestroySegmentLog
    rw [hrun]
    dsimp only
    rw [hfree]
    rfl
  refine ⟨{ t with heap := heap }, ps.flatMap (tableCalls s), hlog, ?_, ?_, ?_⟩
  · rw [← vmDestroySegmentLog_forget, hlog]
    rfl
  · rw [apart_iff_nodup (fun ch hch => (hall ch hch).1) (fun ch hch => (hall ch hch).2), hpages]
    exact hd
  · ext a
    rw [mem_cover_iff (fun ch hch => (hall ch hch).1), hpages]
    rfl

end segment

/-- Two blocks of the kernel heap for a segment and its only node, and three pages: a page table
    with the two pages behind it in its first entries. -/
def oneTable (heap : HeapState) : VmState where
  heap := (heap.put 0x103000 0x104001).put 0x103004 0x105001
  segs := fun q => if q = 0x101000 then ⟨1, 2, 0x101010⟩ else ⟨0, 0, 0⟩
  ptls := fun q => if q = 0x101010 then ⟨0x103000, 0⟩ else ⟨0, 0⟩
  pgdir := 0x100000
  regions := []

theorem oneTable_mem (heap : HeapState) {a : Nat} (h : ¬ (0x103000 ≤ a ∧ a < 0x106000)) :
    (oneTable heap).mem a = heap.mem a := by
  have h1 : a ≠ 0x103000 := by omega
  have h2 : a ≠ 0x103004 := by omega
  show (if a = 0x103004 then _ else if a = 0x103000 then _ else heap.mem a) = _
  rw [if_neg h2, if_neg h1]

/-- The theorem at a segment of one page table with two frames. -/
theorem vmDestroySegment_oneTable : ∃ heap v,
    SegmentOk {x | 0x100000 ≤ x ∧ x < 0x121000} (oneTable heap) v 0x101000 [0x101010] ∧
    tablePages (oneTable heap) 0x101010 = [0x104, 0x105, 0x103] ∧
    ∃ t log, vmDestroySegmentLog (oneTable heap) 0x101000 = some (t, log) ∧
      vmDestroySegment (oneTable heap) 0x101000 = some t ∧
      (log.map CoreHeader.blk).Pairwise Blk.Apart ∧
      cover (log.map CoreHeader.blk) =
        {a | a / 4096 ∈ [0x101010].flatMap (tablePages (oneTable heap))} := by
  obtain ⟨mseg, heap1, v1, hrun1, hk1⟩ := kmalloc_spec bareSpace_heap rfl (show 0 < 16 by decide)
  obtain ⟨p, heap2, v2, hrun2, hk2⟩ := kmalloc_spec hk1.ok hk1.loose (show 0 < 8 by decide)
  obtain ⟨ch, core, hrun3, -, -, hsome, hkeep⟩ := hk2.ok.alloc (n := 3) (by decide)
  have hval : ((kmalloc bareSpace.heap 16).bind fun (mseg, heap1) => (kmalloc heap1 8).bind
      fun (p, heap2) => (coreAlloc heap2.core 3).map fun (ch, core) => (mseg, p, ch.physAddr,
        ch.noBlocks, tablePages (oneTable { heap2 with core := core }) 0x101010)) =
        some (0x101000, 0x101010, 0x103000, 3, [0x104, 0x105, 0x103]) := by
    decide +kernel
  have hrun3 : coreAlloc heap2.core 3 = some (ch, core) := hrun3
  rw [hrun1, Option.bind_some] at hval
  dsimp only at hval
  rw [hrun2, Option.bind_some] at hval
  rw [hrun3, Option.map_some] at hval
  simp only [Option.some.injEq, Prod.mk.injEq] at hval
  obtain ⟨rfl, rfl, haddr, hblocks, htable⟩ := hval
  have hin : ∀ a, 0x103000 ≤ a ∧ a < 0x106000 →
      a ∈ HeapView.owned { v2 with others := ch :: v2.others } := by
    rintro a ⟨h1, h2⟩
    refine ⟨ch.blk, mem_map_of_mem mem_cons_self, ?_, ?_⟩
    · show ch.physAddr ≤ a
      omega
    · show a < ch.physAddr + ch.noBlocks * 4096
      omega
  have hheap := hsome (by omega)
  have hok : HeapOk {x | 0x100000 ≤ x ∧ x < 0x121000} (oneTable { heap2 with core := core }).heap
      { v2 with others := ch :: v2.others } :=
    hheap.of_owned rfl rfl rfl rfl rfl fun a ha => oneTable_mem _ fun hab => ha (hin a hab)
  -- The entries lie in none of the heap's pages, so the heap has the two blocks it gave.
  have hused : v2.used.map (nodeBlk (oneTable { heap2 with core := core }).mem) =
      [⟨0x101010, 8⟩, ⟨0x101000, 16⟩] := by
    rw [hk2.ok.used_congr fun a ha => (oneTable_mem { heap2 with core := core } fun hab => ?_).trans
      (hkeep a (v2.pages_sub_held ha))]
    · rw [(hk2.used.resolve_left fun h => absurd h.1 (by decide)).2,
        (hk1.used.resolve_left fun h => absurd h.1 (by decide)).2]
      rfl
    · refine hheap.pages_apart ?_ ha
      rw [map_append, cover_append]
      exact .inr (hin a hab)
  have hseg : SegmentOk {x | 0x100000 ≤ x ∧ x < 0x121000} (oneTable { heap2 with core := core })
      { v2 with others := ch :: v2.others } 0x101000 [0x101010] := by
    refine ⟨hok, hk2.loose, ⟨rfl, by decide, rfl⟩, ?_, by decide, ?_, ?_⟩
    · intro q hq
      show ∃ b ∈ v2.used.map (nodeBlk (oneTable { heap2 with core := core }).mem), b.addr = q
      rw [hused]
      simp only [cons_append, nil_append, mem_cons, not_mem_nil, or_false] at hq
      rcases hq with rfl | rfl <;> simp
    · intro q hq
      rw [mem_singleton.mp hq]
      show 0x103000 % 4096 = 0
      decide
    · rw [flatMap_singleton, htable]
      intro f hf
      simp only [mem_cons, not_mem_nil, or_false] at hf
      exact hin _ (by omega)
  have hd : ([0x101010].flatMap (tablePages (oneTable { heap2 with core := core }))).Nodup := by
    rw [flatMap_singleton, htable]
    decide
  exact ⟨_, _, hseg, htable, vmDestroySegment_frees_each_once hseg hd⟩

end AtomOs
