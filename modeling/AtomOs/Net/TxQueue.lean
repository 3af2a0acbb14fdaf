import Mathlib.Data.BitVec
import Mathlib.Logic.Function.Basic
import AtomOs.Lib.Linked

/-!
# Removing frames from the transmit queue

`remove_frames_fromtxq` walks the queue with a pointer `f1` and, one frame behind it, a pointer `f2`,
and takes out the frames of a packet below an offset. The loop invariant splits the queue at `f1`: the
frames before it were kept, the last of them is `f2`, and the frames from it on are as they were
(`removeLoop_spec`). **`remove_frames_exact`** is the loop from the head on.
-/

namespace AtomOs.Net

open Lib List Function

/-- What is compared of a `struct eth_frame_snd`. -/
structure EthFrameSnd where
  pktType : BitVec 16
  srcType : BitVec 32
  srcPort : BitVec 32
  pktOffset : BitVec 32
  pktId : BitVec 32

/-- The queue and the fields of the frame buffers, by address; `0` is `NULL`. -/
structure TxQueue where
  next : Nat → Nat
  status : Nat → Int
  completed : Nat → Int
  txQHead : Nat
  txQTail : Nat

/-- The condition under which a frame is deleted. An `int` is compared with an `unsigned` field as
    `unsigned`. -/
def shouldDelete (pktId offset srcport srctype pkttype : BitVec 32) (ethfr : EthFrameSnd) : Bool :=
  ethfr.pktType.setWidth 32 == pkttype && ethfr.pktId == pktId && decide (ethfr.pktOffset < offset) &&
    ethfr.srcPort == srcport && ethfr.srcType == srctype

/-- Frame `f` is marked and its link cleared, where `next` are the links so far. -/
def TxQueue.removed (s : TxQueue) (next : Nat → Nat) (f : Nat) : TxQueue :=
  { s with
    next := update next f 0, status := update s.status f 1, completed := update s.completed f 1 }

def TxQueue.removeFirst (s : TxQueue) (f1 : Nat) : TxQueue :=
  { s.removed s.next f1 with
    txQHead := s.next f1, txQTail := if s.next f1 = 0 then 0 else s.txQTail }

def TxQueue.removeBehind (s : TxQueue) (f2 f1 : Nat) : TxQueue :=
  { s.removed (update s.next f2 (s.next f1)) f1 with
    txQTail := if f1 = s.txQTail then f2 else s.txQTail }

/-- The loop over `f1` with `f2` behind it. -/
def removeLoop (delete : Nat → Bool) : Nat → Nat → Nat → Nat → TxQueue → Option (Nat × TxQueue)
  | 0, _, _, _, _ => none
  | fuel + 1, f2, f1, count, s =>
    if f1 = 0 then some (count, s)
    else if delete f1 then
      if f1 = s.txQHead then
        let s := s.removeFirst f1
        removeLoop delete fuel f2 s.txQHead (count + 1) s
      else
        let s := s.removeBehind f2 f1
        removeLoop delete fuel f2 (s.next f2) (count + 1) s
    else removeLoop delete fuel f1 (s.next f1) count s

/-- `remove_frames_fromtxq`; `buf1` are the headers of the frame buffers. -/
def removeFramesFromtxq (buf1 : Nat → EthFrameSnd) (fuel : Nat)
    (pktId offset srcport srctype pkttype : BitVec 32) (s : TxQueue) : Option (Nat × TxQueue) :=
  removeLoop (fun f => shouldDelete pktId offset srcport srctype pkttype (buf1 f)) fuel 0 s.txQHead 0 s

/-- The queue is linked from its head to its tail, and holds the frames `l`. -/
structure TxQueue.Holds (s : TxQueue) (l : List Nat) : Prop where
  linked : Linked s.next (· = 0) s.txQHead l
  tail : s.txQTail = l.getLast?.getD 0

/-- The frames `rs` from `f1` on are done: those to delete are out of the queue and marked, and the
    buffers outside of the queue are as before. -/
structure TxQueue.Pruned (delete : Nat → Bool) (ks rs : List Nat) (s t : TxQueue) : Prop where
  holds : t.Holds (ks ++ rs.filter (!delete ·))
  cleared : ∀ f ∈ rs, delete f → t.next f = 0
  others : ∀ f ∉ ks ++ rs, t.next f = s.next f
  status : ∀ f, t.status f = if f ∈ rs ∧ delete f then 1 else s.status f
  completed : ∀ f, t.completed f = if f ∈ rs ∧ delete f then 1 else s.completed f

variable {delete : Nat → Bool} {ks rs : List Nat} {x a : Nat} {s t u : TxQueue}

namespace TxQueue

/-! ## One frame -/

theorem Holds.removeFirst (h : s.Holds (x :: rs)) : (s.removeFirst x).Holds rs := by
  have hrs : x ∉ rs := (nodup_cons.mp h.linked.nodup).1
  obtain ⟨⟨-, -, hrest⟩, htail⟩ := h
  refine ⟨hrest.congr fun z hz => update_of_ne (ne_of_mem_of_not_mem hz hrs) _ _, ?_⟩
  cases rs with
  | nil => exact if_pos hrest
  | cons y rs =>
    have h0 : s.next x ≠ 0 := hrest.1 ▸ hrest.2.1
    exact (if_neg h0).trans htail

theorem Holds.removeBehind (h : s.Holds (ks ++ a :: x :: rs)) :
    (s.removeBehind a x).Holds (ks ++ a :: rs) := by
  obtain ⟨-, hx, -, -⟩ := h.linked.behind
  have hnd := h.linked.nodup
  simp only [nodup_append, nodup_cons, mem_cons, not_or] at hnd
  obtain ⟨-, ⟨⟨hax, har⟩, hxr, -⟩, hapart⟩ := hnd
  have hkept : ∀ z, z ≠ a → z ≠ x → (s.removeBehind a x).next z = s.next z := fun z hza hzx =>
    (update_of_ne hzx _ _).trans (update_of_ne hza _ _)
  have ha : (s.removeBehind a x).next a = s.next x :=
    (update_of_ne hax _ _).trans (update_self _ _ _)
  refine ⟨h.linked.splice (fun z hz => ?_) ?_, ?_⟩
  · exact hkept z (hapart z hz a (.inl rfl)) (hapart z hz x (.inr (.inl rfl)))
  · rw [ha]
    exact hx.2.2.congr fun z hz =>
      hkept z (ne_of_mem_of_not_mem hz har) (ne_of_mem_of_not_mem hz hxr)
  · have htail := h.tail
    cases rs with
    | nil =>
      rw [getLast?_append] at htail ⊢
      exact if_pos htail.symm
    | cons y rs =>
      have hlast : x ≠ (y :: rs).getLast (cons_ne_nil y rs) := fun he =>
        hxr (he ▸ getLast_mem _)
      simp only [getLast?_append, getLast?_cons_cons, getLast?_eq_some_getLast (cons_ne_nil y rs),
        Option.some_or, Option.getD_some] at htail ⊢
      exact (if_neg (htail ▸ hlast)).trans htail

/-! ## The loop -/

/-- A frame that is kept moves to the frames before `f1`. -/
theorem Pruned.keep (hx : delete x = false) (h : Pruned delete (ks ++ [x]) rs s t) :
    Pruned delete ks (x :: rs) s t := by
  have hmark : ∀ f, f ∈ x :: rs ∧ delete f ↔ f ∈ rs ∧ delete f := by
    intro f
    rw [mem_cons]
    exact ⟨fun ⟨hf, hd⟩ => ⟨hf.resolve_left (by rintro rfl; simp [hx] at hd), hd⟩,
      fun ⟨hf, hd⟩ => ⟨.inr hf, hd⟩⟩
  refine ⟨?_, fun f hf hd => h.cleared f ((hmark f).mp ⟨hf, hd⟩).1 hd, ?_, ?_, ?_⟩
  · simpa [hx] using h.holds
  · simpa using h.others
  · simpa only [hmark] using h.status
  · simpa only [hmark] using h.completed

/-- A frame that is deleted is not met again. -/
theorem Pruned.cons (hx : delete x = true) (hks : x ∉ ks) (hrs : x ∉ rs)
    (hnext : ∀ f ∉ ks, u.next f = update s.next x 0 f) (hstatus : u.status = update s.status x 1)
    (hcompleted : u.completed = update s.completed x 1) (h : Pruned delete ks rs u t) :
    Pruned delete ks (x :: rs) s t := by
  have hmark : ∀ (m : Nat → Int) f, (if f ∈ rs ∧ delete f then 1 else update m x 1 f) =
      if f ∈ x :: rs ∧ delete f then 1 else m f := by
    intro m f
    by_cases hf : f = x <;> simp [hf, hx]
  refine ⟨by simpa [hx] using h.holds, forall_mem_cons.mpr ⟨fun _ => ?_, h.cleared⟩, ?_, ?_, ?_⟩
  · rw [h.others x (by simp [hks, hrs]), hnext x hks, update_self]
  · intro f hf
    simp only [mem_append, mem_cons, not_or] at hf
    rw [h.others f (by simp [hf.1, hf.2.2]), hnext f hf.1, update_of_ne hf.2.1]
  · exact fun f => (h.status f).trans (hstatus ▸ hmark s.status f)
  · exact fun f => (h.completed f).trans (hcompleted ▸ hmark s.completed f)

end TxQueue

theorem removeLoop_spec : ∀ {rs ks : List Nat} {f2 f1 fuel : Nat} {s : TxQueue} (count : Nat),
    s.Holds (ks ++ rs) → Linked s.next (· = 0) f1 rs → (∀ k a, ks = k ++ [a] → f2 = a) →
    rs.length < fuel →
    ∃ t, removeLoop delete fuel f2 f1 count s = some (count + rs.countP delete, t) ∧
      TxQueue.Pruned delete ks rs s t
  | _, _, _, _, 0, _, _, _, _, _, hfuel => absurd hfuel (Nat.not_lt_zero _)
  | [], ks, f2, f1, fuel + 1, s, count, h, hf1, _, _ => by
    exact ⟨s, if_pos hf1, h, by simp, by simp, by simp, by simp⟩
  | x :: rs, ks, f2, f1, fuel + 1, s, count, h, hcell, hf2, hfuel => by
    obtain ⟨rfl, hx, hrest⟩ := hcell
    have hfuel' : rs.length < fuel := Nat.lt_of_succ_lt_succ hfuel
    have hnd := h.linked.nodup
    simp only [nodup_append, nodup_cons] at hnd
    obtain ⟨-, ⟨hrs, -⟩, hapart⟩ := hnd
    have hks : f1 ∉ ks := fun hmem => hapart f1 hmem f1 mem_cons_self rfl
    rw [removeLoop, if_neg hx]
    cases hdel : delete f1 with
    | false =>
      have h' : s.Holds ((ks ++ [f1]) ++ rs) := by simpa using h
      obtain ⟨t, hrun, ht⟩ := removeLoop_spec count h' hrest
        (fun k a he => (List.cons.inj (append_inj' he rfl).2).1) hfuel'
      exact ⟨t, by simpa [countP_cons, hdel] using hrun, ht.keep hdel⟩
    | true =>
      have hcount : count + countP delete (f1 :: rs) = count + 1 + countP delete rs := by
        rw [countP_cons_of_pos hdel]
        omega
      rw [if_pos rfl, hcount]
      obtain rfl | ⟨k, a, rfl⟩ := eq_nil_or_concat' ks
      · rw [if_pos h.linked.1.symm]
        have h' : (s.removeFirst f1).Holds ([] ++ rs) := h.removeFirst
        obtain ⟨t, hrun, ht⟩ := removeLoop_spec (count + 1) h' h'.linked hf2 hfuel'
        exact ⟨t, hrun, ht.cons hdel hks hrs (fun _ _ => rfl) rfl rfl⟩
      · obtain rfl := hf2 k a rfl
        rw [append_assoc, singleton_append] at h
        have hb := h.removeBehind
        have h' : (s.removeBehind f2 f1).Holds ((k ++ [f2]) ++ rs) := by simpa using hb
        obtain ⟨t, hrun, ht⟩ := removeLoop_spec (count + 1) h' hb.linked.drop.2.2 hf2 hfuel'
        rw [if_neg h.linked.behind.1]
        refine ⟨t, hrun, ht.cons hdel hks hrs (fun f hf => ?_) rfl rfl⟩
        have hne : f ≠ f2 := fun he => hf (by simp [he])
        by_cases hfx : f = f1
        · rw [hfx, update_self]
          exact update_self _ _ _
        · rw [update_of_ne hfx]
          exact (update_of_ne hfx _ _).trans (update_of_ne hne _ _)

/-- **Exactly the frames of the packet below the offset are removed**, from any queue that is linked
    from its head to its tail. The loop ends, and returns their number; the others stay in order, with
    the head and the tail at the first and the last of them. -/
theorem remove_frames_exact (buf1 : Nat → EthFrameSnd) (s : TxQueue) (l : List Nat)
    (h : s.Holds l) (fuel : Nat) (hfuel : l.length < fuel)
    (pktId offset srcport srctype pkttype : BitVec 32) :
    let delete f := shouldDelete pktId offset srcport srctype pkttype (buf1 f)
    ∃ t, removeFramesFromtxq buf1 fuel pktId offset srcport srctype pkttype s =
        some (l.countP delete, t) ∧ TxQueue.Pruned delete [] l s t := by
  intro delete
  obtain ⟨t, hrun, ht⟩ := removeLoop_spec 0 (show s.Holds ([] ++ l) from h) h.linked
    (fun k a he => absurd he (by simp)) hfuel
  rw [Nat.zero_add] at hrun
  exact ⟨t, hrun, ht⟩

/-- Frames `1`, `2`, `3` of one packet, at offsets `0`, `1438` and `2876`; the first two are
    acknowledged. -/
theorem remove_frames_exact_two :
    let buf1 : Nat → EthFrameSnd := fun f => ⟨1, 2, 7, 1438 * (f - 1), 5⟩
    let s : TxQueue := ⟨fun f => if f = 3 then 0 else f + 1, fun _ => 0, fun _ => 0, 1, 3⟩
    ∃ t, removeFramesFromtxq buf1 4 5 2876 7 2 1 s = some (2, t) ∧ t.Holds [3] := by
  intro buf1 s
  have h : s.Holds [1, 2, 3] := ⟨by simp [s], rfl⟩
  obtain ⟨t, hrun, ht⟩ := remove_frames_exact buf1 s [1, 2, 3] h 4 (by decide) 5 2876 7 2 1
  exact ⟨t, hrun, ht.holds⟩

end AtomOs.Net
