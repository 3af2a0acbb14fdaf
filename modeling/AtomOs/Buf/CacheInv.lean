import Mathlib.Data.Finset.Card
import AtomOs.Buf.Buffers

/-!
# The invariant of the buffer cache

`CacheInv c blocks q free` says that the cache `c` stands for the array `blocks`: the headers of hash
queue `h` are `q h`, the free list is `free`, every valid buffer holds its block, and the disk holds
every block of which no buffer has delayed data.

Each change the functions make is one lemma here: a header leaves the free list or comes back to it,
moves to another hash queue, or gets other data (`CacheInv.setData`).
-/

namespace AtomOs

open Lib Prog List

variable {b h i : Nat} {l : List Nat}

variable {β : Type}

structure FreeBuffers (c : Cache β) (free : List Nat) : Prop where
  links : DList (fun i => (c.buffers i).freeNext) (fun i => (c.buffers i).freePrev) c.freeHead none
    free
  nodup : free.Nodup
  tail : c.freeTail = free.getLast?

structure HashQueue (c : Cache β) (h : Nat) (l : List Nat) : Prop where
  links : DList (fun i => (c.buffers i).hashNext) (fun i => (c.buffers i).hashPrev)
    (c.hashQueue h) none l
  nodup : l.Nodup

/-- The hash queues are `q`, and a header on none of them has no neighbours. -/
structure Hashed (c : Cache β) (q : Nat → List Nat) : Prop where
  queues : ∀ h < buffHashNumber, HashQueue c h (q h)
  queued : ∀ h < buffHashNumber, ∀ i ∈ q h,
    i < maxBuffers ∧ (c.buffers i).blockno % buffHashNumber = h
  loose : ∀ i < maxBuffers, (∀ h < buffHashNumber, i ∉ q h) →
    (c.buffers i).hashNext = none ∧ (c.buffers i).hashPrev = none

/-- The cache stands for `blocks`. -/
structure CacheInv (c : Cache β) (blocks : Nat → β) (q : Nat → List Nat) (free : List Nat) :
    Prop where
  freeBuffers : FreeBuffers c free
  queues : ∀ h < buffHashNumber, HashQueue c h (q h)
  queued : ∀ h < buffHashNumber, ∀ i ∈ q h,
    i < maxBuffers ∧ (c.buffers i).blockno % buffHashNumber = h ∧ (c.buffers i).device = floppy
  keys : ∀ h < buffHashNumber, ∀ i ∈ q h, ∀ j ∈ q h,
    (c.buffers i).blockno = (c.buffers j).blockno → i = j
  loose : ∀ i < maxBuffers, (∀ h < buffHashNumber, i ∉ q h) →
    (c.buffers i).hashNext = none ∧ (c.buffers i).hashPrev = none ∧
      (c.buffers i).busy = false ∧ (c.buffers i).valid = false
  free_iff : ∀ i, i ∈ free ↔ i < maxBuffers ∧ (c.buffers i).busy = false
  noWrites : c.writeHead = none
  delayed : ∀ i < maxBuffers, (c.buffers i).delay = true → (c.buffers i).valid = true
  content : ∀ i < maxBuffers, (c.buffers i).valid = true →
    (c.buffers i).buff = blocks (c.buffers i).blockno
  clean : ∀ k, (∀ i < maxBuffers, (c.buffers i).delay = true → (c.buffers i).blockno ≠ k) →
    c.disk k = blocks k

theorem Cache.upd_buffers (c : Cache β) (p : Option Nat) (f : Buffer β → Buffer β) (i : Nat) :
    (c.upd p f).buffers i = if some i = p then f (c.buffers i) else c.buffers i := rfl

variable {f : Buffer β → Buffer β} {blk : Nat} {c' c₁ : Cache β} {blocks' : Nat → β}
  {x y z : Buffer β}

theorem upd_some_ne {c : Cache β} (h : i ≠ b) :
    (c.upd (some b) f).buffers i = c.buffers i := if_neg fun he => h (Option.some.inj he)

theorem upd_some_same (c : Cache β) (b : Nat) (f : Buffer β → Buffer β) :
    (c.upd (some b) f).buffers b = f (c.buffers b) := if_pos rfl

theorem upd_field {γ : Type} (g : Buffer β → γ) (c : Cache β) (p : Option Nat)
    (hf : ∀ x, g (f x) = g x) (i : Nat) : g ((c.upd p f).buffers i) = g (c.buffers i) := by
  rw [Cache.upd_buffers]
  split
  · exact hf _
  · rfl

theorem upd_upd (c : Cache β) (p : Option Nat) (f g : Buffer β → Buffer β) :
    (c.upd p f).upd p g = c.upd p fun h => g (f h) := by
  unfold Cache.upd
  congr 1
  funext i
  by_cases hi : some i = p
  · simp only [if_pos hi]
  · simp only [if_neg hi]

/-! ## Searching -/

theorem searchQueue_dlist {c : Cache β} {device : Nat} :
    ∀ {l : List Nat} {fuel : Nat} {p before : Option Nat},
    DList (fun i => (c.buffers i).hashNext) (fun i => (c.buffers i).hashPrev) p before l →
    l.length ≤ fuel → searchQueue c device blk fuel p =
      some (l.find? fun b => (c.buffers b).device = device ∧ (c.buffers b).blockno = blk)
  | [], fuel, p, _, h, _ => by
    rw [show p = none from h]
    cases fuel <;> rfl
  | b :: l, fuel, p, _, h, hlen => by
    cases fuel with
    | zero => exact absurd hlen (by simp)
    | succ fuel =>
      rw [h.1, searchQueue, find?_cons]
      by_cases hb : (c.buffers b).device = device ∧ (c.buffers b).blockno = blk
      · rw [if_pos hb, decide_eq_true hb]
      · rw [if_neg hb, decide_eq_false hb]
        exact searchQueue_dlist h.2.2 (Nat.le_of_succ_le_succ hlen)

theorem hash_lt (blk : Nat) : blk % buffHashNumber < buffHashNumber := Nat.mod_lt _ (by decide)

section invariant

variable {c : Cache β} {blocks : Nat → β} {q : Nat → List Nat} {free : List Nat}

theorem HashQueue.congr (hq : HashQueue c h l) (hqueue : c'.hashQueue h = c.hashQueue h)
    (hn : ∀ i ∈ l, (c'.buffers i).hashNext = (c.buffers i).hashNext)
    (hp : ∀ i ∈ l, (c'.buffers i).hashPrev = (c.buffers i).hashPrev) : HashQueue c' h l := by
  refine ⟨?_, hq.nodup⟩
  rw [hqueue]
  exact hq.links.congr hn hp

theorem CacheInv.hashed (h : CacheInv c blocks q free) : Hashed c q where
  queues := h.queues
  queued := fun i hi j hj => ⟨(h.queued i hi j hj).1, (h.queued i hi j hj).2.1⟩
  loose := fun i hi hnot => ⟨(h.loose i hi hnot).1, (h.loose i hi hnot).2.1⟩

theorem Hashed.length_le (h : Hashed c q) (hi : i < buffHashNumber) :
    (q i).length ≤ maxBuffers := by
  have hsub : (q i).toFinset ⊆ Finset.range maxBuffers := by
    intro b hb
    exact Finset.mem_range.mpr (h.queued i hi b (mem_toFinset.mp hb)).1
  have hcard := Finset.card_le_card hsub
  rw [toFinset_card_of_nodup (h.queues i hi).nodup, Finset.card_range] at hcard
  exact hcard

theorem CacheInv.lookup (h : CacheInv c blocks q free) (blk : Nat) :
    (∃ b, lookupBlock c floppy blk = some (some b) ∧ b ∈ q (blk % buffHashNumber) ∧
      (c.buffers b).blockno = blk) ∨
    lookupBlock c floppy blk = some none ∧
      ∀ i < buffHashNumber, ∀ b ∈ q i, (c.buffers b).blockno ≠ blk := by
  have hq := hash_lt blk
  unfold lookupBlock
  rw [searchQueue_dlist (h.queues _ hq).links (h.hashed.length_le hq)]
  cases hfind : (q (blk % buffHashNumber)).find? fun b =>
      (c.buffers b).device = floppy ∧ (c.buffers b).blockno = blk with
  | some b =>
    refine .inl ⟨b, rfl, mem_of_find?_eq_some hfind, ?_⟩
    have := find?_some hfind
    simp only [decide_eq_true_eq] at this
    exact this.2
  | none =>
    refine .inr ⟨rfl, fun i hi b hb hblk => ?_⟩
    obtain ⟨-, hhash, hdev⟩ := h.queued i hi b hb
    rw [hblk] at hhash
    subst hhash
    have := find?_eq_none.mp hfind b hb
    simp [hdev, hblk] at this

theorem CacheInv.exists_queue (h : CacheInv c blocks q free) (hb : b < maxBuffers)
    (huse : (c.buffers b).busy = true ∨ (c.buffers b).valid = true) :
    b ∈ q ((c.buffers b).blockno % buffHashNumber) := by
  by_contra hnot
  have hloose : ∀ i < buffHashNumber, b ∉ q i := by
    intro i hi hmem
    have hhash := (h.queued i hi b hmem).2.1
    rw [hhash] at hnot
    exact hnot hmem
  obtain ⟨-, -, hbusy, hvalid⟩ := h.loose b hb hloose
  rcases huse with hc | hc
  · exact absurd hc (by simp [hbusy])
  · exact absurd hc (by simp [hvalid])

theorem CacheInv.unique (h : CacheInv c blocks q free) (hb : b < maxBuffers)
    (hi : i < maxBuffers) (huseb : (c.buffers b).busy = true ∨ (c.buffers b).valid = true)
    (husei : (c.buffers i).busy = true ∨ (c.buffers i).valid = true)
    (hblk : (c.buffers i).blockno = (c.buffers b).blockno) : i = b := by
  have hmb := h.exists_queue hb huseb
  have hmi := h.exists_queue hi husei
  rw [hblk] at hmi
  exact h.keys _ (hash_lt _) i hmi b hmb hblk

/-! ## Data -/

/-- A header's data, its flags and its status may change; links, block and holder do not. -/
structure DataOnly (x y : Buffer β) : Prop where
  blockno : y.blockno = x.blockno
  device : y.device = x.device
  hashNext : y.hashNext = x.hashNext
  hashPrev : y.hashPrev = x.hashPrev
  freeNext : y.freeNext = x.freeNext
  freePrev : y.freePrev = x.freePrev
  busy : y.busy = x.busy

theorem DataOnly.upd (hf : DataOnly (c.buffers b) (f (c.buffers b))) (i : Nat) :
    DataOnly (c.buffers i) ((c.upd (some b) f).buffers i) := by
  by_cases hi : i = b
  · rw [hi, upd_some_same]
    exact hf
  · rw [upd_some_ne hi]
    exact ⟨rfl, rfl, rfl, rfl, rfl, rfl, rfl⟩

/-- The header `b`, which is busy, gets other data, and its block is written. -/
theorem CacheInv.setData (h : CacheInv c blocks q free)
    {disk' : Nat → β} (hb : b < maxBuffers) (hbusy : (c.buffers b).busy = true)
    (hf : DataOnly (c.buffers b) (f (c.buffers b)))
    (hdelay : (f (c.buffers b)).delay = true → (f (c.buffers b)).valid = true)
    (hvalid : (f (c.buffers b)).valid = true →
      (f (c.buffers b)).buff = blocks' (c.buffers b).blockno)
    (hothers : ∀ k, k ≠ (c.buffers b).blockno → blocks' k = blocks k ∧ disk' k = c.disk k)
    (hclean : (f (c.buffers b)).delay = false →
      disk' (c.buffers b).blockno = blocks' (c.buffers b).blockno) :
    CacheInv { c.upd (some b) f with disk := disk' } blocks' q free := by
  have hbuf := hf.upd
  refine ⟨⟨?_, h.freeBuffers.nodup, h.freeBuffers.tail⟩, fun i hi => ?_, ?_, ?_, fun i hi hnot => ?_,
    fun i => ?_, h.noWrites, fun i hi hd => ?_, fun i hi hv => ?_,
    fun k hk => ?_⟩
  · exact h.freeBuffers.links.congr (fun z _ => (hbuf z).freeNext) fun z _ => (hbuf z).freePrev
  · exact (h.queues i hi).congr rfl (fun z _ => (hbuf z).hashNext) fun z _ => (hbuf z).hashPrev
  · intro i hi j hj
    rw [(hbuf j).blockno, (hbuf j).device]
    exact h.queued i hi j hj
  · intro i hi j hj k hk heq
    rw [(hbuf j).blockno, (hbuf k).blockno] at heq
    exact h.keys i hi j hj k hk heq
  · obtain ⟨hn, hp, hbusy', hvalid'⟩ := h.loose i hi hnot
    have hib : i ≠ b := fun he => absurd hbusy (by rw [← he, hbusy']; simp)
    rw [upd_some_ne hib]
    exact ⟨hn, hp, hbusy', hvalid'⟩
  · rw [h.free_iff]
    rw [(hbuf i).busy]
  · by_cases hib : i = b
    · rw [hib, upd_some_same] at hd ⊢
      exact hdelay hd
    · rw [upd_some_ne hib] at hd ⊢
      exact h.delayed i hi hd
  · by_cases hib : i = b
    · rw [hib, upd_some_same] at hv ⊢
      rw [hf.blockno]
      exact hvalid hv
    rw [upd_some_ne hib] at hv ⊢
    have hblk : (c.buffers i).blockno ≠ (c.buffers b).blockno := fun he =>
      hib (h.unique hb hi (.inl hbusy) (.inr hv) he)
    rw [(hothers _ hblk).1]
    exact h.content i hi hv
  · change disk' k = blocks' k
    by_cases hkb : k = (c.buffers b).blockno
    · rw [hkb]
      refine hclean ?_
      have hkb' := hk b hb
      rw [upd_some_same, hf.blockno] at hkb'
      exact Bool.eq_false_iff.mpr fun hd => hkb' hd hkb.symm
    · rw [(hothers k hkb).1, (hothers k hkb).2]
      refine h.clean k fun i hi hd => ?_
      by_cases hib : i = b
      · rw [hib]
        exact Ne.symm hkb
      · have := hk i hi
        rw [upd_some_ne hib] at this
        exact this hd

theorem CacheInv.disk_eq (h : CacheInv c blocks q free) (hb : b < maxBuffers)
    (huse : (c.buffers b).busy = true ∨ (c.buffers b).valid = true)
    (hdelay : (c.buffers b).delay = false) :
    c.disk (c.buffers b).blockno = blocks (c.buffers b).blockno := by
  refine h.clean _ fun i hi hd he => ?_
  have hib := h.unique hb hi huse (.inr (h.delayed i hi hd)) he
  rw [hib, hdelay] at hd
  exact absurd hd (by simp)

theorem CacheInv.delay_of_invalid (h : CacheInv c blocks q free) (hb : b < maxBuffers)
    (hvalid : (c.buffers b).valid = false) : (c.buffers b).delay = false :=
  Bool.eq_false_iff.mpr fun hd => absurd (h.delayed b hb hd) (by simp [hvalid])

/-! ## The free list -/

/-- All but the links of the free list and the holder is the same. -/
structure SameBuffer (x y : Buffer β) : Prop where
  blockno : y.blockno = x.blockno
  device : y.device = x.device
  hashNext : y.hashNext = x.hashNext
  hashPrev : y.hashPrev = x.hashPrev
  valid : y.valid = x.valid
  delay : y.delay = x.delay
  ioStatus : y.ioStatus = x.ioStatus
  buff : y.buff = x.buff

structure FreeFrame (c c' : Cache β) : Prop where
  same : ∀ i, SameBuffer (c.buffers i) (c'.buffers i)
  busy : ∀ i, (c'.buffers i).busy = (c.buffers i).busy
  hashQueue : c'.hashQueue = c.hashQueue
  writeHead : c'.writeHead = c.writeHead
  disk : c'.disk = c.disk

theorem upd_freeNext (c : Cache β) (p v : Option Nat) :
    c.upd p (fun h => { h with freeNext := v }) = { c with buffers := fun i =>
      { c.buffers i with freeNext := store (fun j => (c.buffers j).freeNext) p v i } } := by
  unfold Cache.upd store
  congr 1
  funext i
  split <;> rfl

theorem upd_freePrev (c : Cache β) (p v : Option Nat) :
    c.upd p (fun h => { h with freePrev := v }) = { c with buffers := fun i =>
      { c.buffers i with freePrev := store (fun j => (c.buffers j).freePrev) p v i } } := by
  unfold Cache.upd store
  congr 1
  funext i
  split <;> rfl

theorem upd_free (c : Cache β) (p n v : Option Nat) :
    c.upd p (fun h => { h with freeNext := n, freePrev := v }) = { c with buffers := fun i =>
      { c.buffers i with
        freeNext := store (fun j => (c.buffers j).freeNext) p n i
        freePrev := store (fun j => (c.buffers j).freePrev) p v i } } := by
  rw [← upd_upd c p (fun h => { h with freeNext := n }) fun h => { h with freePrev := v }, upd_freeNext,
    upd_freePrev]

theorem FreeBuffers.initial (blank : β) (disk : Nat → β) :
    FreeBuffers (initializeBufferCache blank disk) (List.range maxBuffers) := by
  refine ⟨?_, nodup_range, rfl⟩
  change DList (fun i => if i < maxBuffers - 1 then some (i + 1) else none)
    (fun i => if 0 < i then some (i - 1) else none) (some 0) none (List.range maxBuffers)
  decide

theorem deleteFromFreelist_spec (hf : FreeBuffers c free) (hb : b ∈ free) :
    FreeBuffers (deleteFromFreelist c b) (free.erase b) ∧ FreeFrame c (deleteFromFreelist c b) := by
  have hprev : c.freeHead = some b ↔ (c.buffers b).freePrev = none := (hf.links.prev_none hb).symm
  have hnext : c.freeTail = some b ↔ (c.buffers b).freeNext = none := by
    rw [hf.tail]
    exact (hf.links.next_none hf.nodup hb).symm
  have heq : deleteFromFreelist c b = { c with
      buffers := fun i => { c.buffers i with
        freeNext := store (fun j => (c.buffers j).freeNext) (c.buffers b).freePrev
          (c.buffers b).freeNext i
        freePrev := store (fun j => (c.buffers j).freePrev) (c.buffers b).freeNext
          (c.buffers b).freePrev i }
      freeHead := if c.freeHead = some b then (c.buffers b).freeNext else c.freeHead
      freeTail := if c.freeTail = some b then (c.buffers b).freePrev else c.freeTail } := by
    unfold deleteFromFreelist
    simp only [upd_freeNext, upd_freePrev, ne_eq, ite_not]
    by_cases hh : c.freeHead = some b
    · by_cases ht : c.freeTail = some b
      · simp [hh, ht, hprev.mp hh, hnext.mp ht]
      · simp [hh, ht, hprev.mp hh]
    · by_cases ht : c.freeTail = some b
      · simp [hh, ht, hnext.mp ht]
      · simp [hh, ht]
  rw [heq]
  refine ⟨⟨?_, hf.nodup.erase b, ?_⟩, fun i => ⟨rfl, rfl, rfl, rfl, rfl, rfl, rfl, rfl⟩,
    fun _ => rfl, rfl, rfl, rfl⟩
  · exact hf.links.remove hf.nodup (by simp) hb
  · have hlast := hf.links.getLast?_erase hf.nodup hb
    rw [Option.or_none, Option.or_none, ← hf.tail] at hlast
    exact hlast.symm

theorem appendToFreelist_spec (hf : FreeBuffers c free) (hb : b ∉ free) :
    FreeBuffers (appendToFreelist c b) (free ++ [b]) ∧ FreeFrame c (appendToFreelist c b) := by
  have hempty : c.freeTail = none ↔ free = [] := by
    rw [hf.tail]
    exact getLast?_eq_none_iff
  have heq : appendToFreelist c b = { c with
      buffers := fun i => { c.buffers i with
        freeNext := store (store (fun j => (c.buffers j).freeNext) (some b) none) c.freeTail
          (some b) i
        freePrev := store (fun j => (c.buffers j).freePrev) (some b) c.freeTail i }
      freeHead := if free = [] then some b else c.freeHead
      freeTail := some b } := by
    unfold appendToFreelist
    simp only [upd_free, upd_freeNext, ne_eq, ite_not]
    by_cases ht : c.freeTail = none
    · simp [ht, hempty.mp ht]
    · have hne : free ≠ [] := ht ∘ hempty.mpr
      simp [ht, hne]
  rw [heq]
  refine ⟨⟨?_, ?_, by simp⟩, fun i => ⟨rfl, rfl, rfl, rfl, rfl, rfl, rfl, rfl⟩,
    fun _ => rfl, rfl, rfl, rfl⟩
  · have happ := hf.links.append hb hf.nodup (by simp)
    rw [Option.or_none, ← hf.tail] at happ
    exact happ
  · exact List.Nodup.append hf.nodup (nodup_singleton b) (by simpa using hb)

/-- `prepend_to_freelist` of a header that is not on the list, which is not empty. -/
theorem prependToFreelist_spec (hf : FreeBuffers c free) (hb : b ∉ free) (hne : free ≠ []) :
    FreeBuffers (prependToFreelist c b) (b :: free) ∧ FreeFrame c (prependToFreelist c b) := by
  have heq : prependToFreelist c b = { c with
      buffers := fun i => { c.buffers i with
        freeNext := store (fun j => (c.buffers j).freeNext) (some b) c.freeHead i
        freePrev := store (store (fun j => (c.buffers j).freePrev) (some b) none) c.freeHead
          (some b) i }
      freeHead := some b } := by
    unfold prependToFreelist
    simp only [upd_free, upd_freePrev]
  rw [heq]
  refine ⟨⟨hf.links.push hf.nodup hb, nodup_cons.mpr ⟨hb, hf.nodup⟩, ?_⟩,
    fun i => ⟨rfl, rfl, rfl, rfl, rfl, rfl, rfl, rfl⟩, fun _ => rfl, rfl, rfl, rfl⟩
  rw [hf.tail, getLast?_cons]
  cases hlast : free.getLast? with
  | none => exact absurd (getLast?_eq_none_iff.mp hlast) hne
  | some z => rfl

theorem CacheInv.refree {free' : List Nat} (h : CacheInv c blocks q free)
    (hfree : FreeBuffers c' free') (hsame : ∀ i, SameBuffer (c.buffers i) (c'.buffers i))
    (hqueue : c'.hashQueue = c.hashQueue) (hwrite : c'.writeHead = c.writeHead)
    (hdisk : c'.disk = c.disk)
    (hiff : ∀ i, i ∈ free' ↔ i < maxBuffers ∧ (c'.buffers i).busy = false)
    (hloose : ∀ i < maxBuffers, (∀ h < buffHashNumber, i ∉ q h) → (c'.buffers i).busy = false) :
    CacheInv c' blocks q free' := by
  refine ⟨hfree, fun i hi => ?_, fun i hi j hj => ?_, fun i hi j hj k hk heq => ?_,
    fun i hi hnot => ?_, hiff, hwrite.trans h.noWrites,
    fun i hi hd => ?_, fun i hi hv => ?_, fun k hk => ?_⟩
  · exact (h.queues i hi).congr (congrFun hqueue i) (fun z _ => (hsame z).hashNext)
      fun z _ => (hsame z).hashPrev
  · rw [(hsame j).blockno, (hsame j).device]
    exact h.queued i hi j hj
  · rw [(hsame j).blockno, (hsame k).blockno] at heq
    exact h.keys i hi j hj k hk heq
  · obtain ⟨hn, hp, -, hvalid⟩ := h.loose i hi hnot
    rw [(hsame i).hashNext, (hsame i).hashPrev, (hsame i).valid]
    exact ⟨hn, hp, hloose i hi hnot, hvalid⟩
  · rw [(hsame i).delay] at hd
    rw [(hsame i).valid]
    exact h.delayed i hi hd
  · rw [(hsame i).valid] at hv
    rw [(hsame i).buff, (hsame i).blockno]
    exact h.content i hi hv
  · rw [hdisk]
    refine h.clean k fun i hi hd => ?_
    rw [← (hsame i).blockno]
    exact hk i hi (by rw [(hsame i).delay]; exact hd)

theorem SameBuffer.trans (h : SameBuffer x y) (k : SameBuffer y z) : SameBuffer x z :=
  ⟨k.blockno.trans h.blockno, k.device.trans h.device, k.hashNext.trans h.hashNext,
    k.hashPrev.trans h.hashPrev, k.valid.trans h.valid, k.delay.trans h.delay,
    k.ioStatus.trans h.ioStatus, k.buff.trans h.buff⟩

theorem upd_busy_same (c : Cache β) (b : Nat) (v : Bool) (i : Nat) :
    SameBuffer (c.buffers i) ((c.upd (some b) fun h => { h with busy := v }).buffers i) := by
  rw [Cache.upd_buffers]
  split <;> exact ⟨rfl, rfl, rfl, rfl, rfl, rfl, rfl, rfl⟩

theorem FreeBuffers.upd_busy (hf : FreeBuffers c free) (b : Nat) (v : Bool) :
    FreeBuffers (c.upd (some b) fun h => { h with busy := v }) free := by
  refine ⟨hf.links.congr (fun z _ => ?_) fun z _ => ?_, hf.nodup, hf.tail⟩
  all_goals
    rw [Cache.upd_buffers]
    split <;> rfl

theorem HashQueue.upd (hq : HashQueue c h l) (p : Option Nat)
    (hn : ∀ x, (f x).hashNext = x.hashNext)
    (hp : ∀ x, (f x).hashPrev = x.hashPrev) : HashQueue (c.upd p f) h l :=
  hq.congr rfl (fun z _ => upd_field _ c p hn z) fun z _ => upd_field _ c p hp z

def Cache.hold (c : Cache β) (b : Nat) : Cache β :=
  deleteFromFreelist (c.upd (some b) fun h => { h with busy := true }) b

theorem hold_busy (hf : FreeBuffers c free) (hb : b ∈ free) (i : Nat) :
    ((c.hold b).buffers i).busy = if i = b then true else (c.buffers i).busy := by
  rw [Cache.hold, (deleteFromFreelist_spec (hf.upd_busy b true) hb).2.busy i, Cache.upd_buffers]
  by_cases hi : i = b
  · rw [if_pos hi, if_pos (congrArg some hi)]
  · rw [if_neg hi, if_neg fun he => hi (Option.some.inj he)]

theorem hold_same (hf : FreeBuffers c free) (hb : b ∈ free) (i : Nat) :
    SameBuffer (c.buffers i) ((c.hold b).buffers i) :=
  (upd_busy_same c b true i).trans ((deleteFromFreelist_spec (hf.upd_busy b true) hb).2.same i)

theorem FreeBuffers.mem_erase (hf : FreeBuffers c free)
    (hiff : ∀ i, i ∈ free ↔ i < maxBuffers ∧ (c.buffers i).busy = false) (b i : Nat) :
    i ∈ free.erase b ↔ i < maxBuffers ∧ (if i = b then true else (c.buffers i).busy) = false := by
  rw [hf.nodup.mem_erase_iff, hiff]
  by_cases hi : i = b
  · simp [hi]
  · simp [hi]

/-- **Taking a buffer of a queue.** -/
theorem CacheInv.hold (h : CacheInv c blocks q free) (hi : i < buffHashNumber)
    (hq : b ∈ q i) (hbusy : (c.buffers b).busy = false) :
    CacheInv (c.hold b) blocks q (free.erase b) := by
  have hb : b < maxBuffers := (h.queued i hi b hq).1
  have hmem : b ∈ free := (h.free_iff b).mpr ⟨hb, hbusy⟩
  obtain ⟨hfree, hframe⟩ := deleteFromFreelist_spec (h.freeBuffers.upd_busy b true) hmem
  refine h.refree hfree (hold_same h.freeBuffers hmem) hframe.hashQueue hframe.writeHead hframe.disk
    (fun j => ?_) fun j hj hnot => ?_
  · rw [hold_busy h.freeBuffers hmem]
    exact h.freeBuffers.mem_erase h.free_iff b j
  · have hjb : j ≠ b := fun he => hnot i hi (he ▸ hq)
    rw [hold_busy h.freeBuffers hmem, if_neg hjb]
    exact (h.loose j hj hnot).2.2.1

/-- `brelease` of a header that is held: it goes to the end of the free list if it is valid, to the front
    if not, and then the list must not be empty. -/
theorem brelease_spec (hf : FreeBuffers c free)
    (hiff : ∀ i, i ∈ free ↔ i < maxBuffers ∧ (c.buffers i).busy = false) (hb : b < maxBuffers)
    (hbusy : (c.buffers b).busy = true) (hok : (c.buffers b).valid = true ∨ free ≠ []) :
    ∃ c' free', (brelease b : Prog (Cache β) Unit) c = some ((), c') ∧ FreeBuffers c' free' ∧
      (∀ i, i ∈ free' ↔ i < maxBuffers ∧ (c'.buffers i).busy = false) ∧
      (∀ i, SameBuffer (c.buffers i) (c'.buffers i)) ∧
      (∀ i, (c'.buffers i).busy = if i = b then false else (c.buffers i).busy) ∧
      c'.hashQueue = c.hashQueue ∧ c'.writeHead = c.writeHead ∧ c'.disk = c.disk := by
  have hmem : b ∉ free := fun hc => absurd ((hiff b).mp hc).2 (by simp [hbusy])
  obtain ⟨c₁, free', heq, hfree, hframe, hperm⟩ : ∃ c₁ free',
      (if (c.buffers b).valid then appendToFreelist c b else prependToFreelist c b) = c₁ ∧
        FreeBuffers c₁ free' ∧ FreeFrame c c₁ ∧ ∀ i, i ∈ free' ↔ i = b ∨ i ∈ free := by
    by_cases hv : (c.buffers b).valid = true
    · obtain ⟨hfree, hframe⟩ := appendToFreelist_spec hf hmem
      exact ⟨_, free ++ [b], if_pos hv, hfree, hframe, fun i => by simp [or_comm]⟩
    · obtain ⟨hfree, hframe⟩ := prependToFreelist_spec hf hmem (hok.resolve_left hv)
      exact ⟨_, b :: free, if_neg hv, hfree, hframe, fun i => by simp⟩
  have hfreed : ∀ i, ((c₁.upd (some b) fun h => { h with busy := false }).buffers i).busy =
      if i = b then false else (c.buffers i).busy := fun i => by
    rw [Cache.upd_buffers]
    by_cases hi : i = b
    · rw [if_pos hi, if_pos (congrArg some hi)]
    · rw [if_neg hi, if_neg fun he => hi (Option.some.inj he), hframe.busy]
  refine ⟨_, free', ?_, hfree.upd_busy b false, fun i => ?_,
    fun i => (hframe.same i).trans (upd_busy_same c₁ b false i), hfreed, hframe.hashQueue,
    hframe.writeHead, hframe.disk⟩
  · change some ((), (if (c.buffers b).valid then appendToFreelist c b
      else prependToFreelist c b).upd (some b) fun h => { h with busy := false }) = _
    rw [heq]
  · rw [hperm, hfreed, hiff]
    by_cases hib : i = b
    · simp [hib, hb]
    · simp [hib]

/-- **Giving a buffer back.** -/
theorem CacheInv.release (h : CacheInv c blocks q free) (hb : b < maxBuffers)
    (hbusy : (c.buffers b).busy = true) (hok : (c.buffers b).valid = true ∨ free ≠ []) :
    ∃ c' free', (brelease b : Prog (Cache β) Unit) c = some ((), c') ∧
      CacheInv c' blocks q free' ∧ (∀ i, SameBuffer (c.buffers i) (c'.buffers i)) ∧
      (∀ i, (c'.buffers i).busy = if i = b then false else (c.buffers i).busy) ∧
        c'.disk = c.disk := by
  obtain ⟨c', free', hrun, hfree, hiff, hsame, hbusy', hqueue, hwrite, hdisk⟩ :=
    brelease_spec h.freeBuffers h.free_iff hb hbusy hok
  refine ⟨c', free', hrun, ?_, hsame, hbusy', hdisk⟩
  refine h.refree hfree hsame hqueue hwrite hdisk hiff fun i hi hnot => ?_
  rw [hbusy']
  split
  · rfl
  · exact (h.loose i hi hnot).2.2.1

/-! ## The hash queues -/

/-- All but the links is the same. -/
structure SameContent (x y : Buffer β) : Prop where
  blockno : y.blockno = x.blockno
  device : y.device = x.device
  busy : y.busy = x.busy
  valid : y.valid = x.valid
  delay : y.delay = x.delay
  ioStatus : y.ioStatus = x.ioStatus
  buff : y.buff = x.buff

theorem SameContent.trans (h : SameContent x y) (k : SameContent y z) : SameContent x z :=
  ⟨k.blockno.trans h.blockno, k.device.trans h.device, k.busy.trans h.busy, k.valid.trans h.valid,
    k.delay.trans h.delay, k.ioStatus.trans h.ioStatus, k.buff.trans h.buff⟩

theorem FreeFrame.content (hf : FreeFrame c c') (i : Nat) :
    SameContent (c.buffers i) (c'.buffers i) :=
  ⟨(hf.same i).blockno, (hf.same i).device, hf.busy i, (hf.same i).valid, (hf.same i).delay,
    (hf.same i).ioStatus, (hf.same i).buff⟩

/-- Only the hash queue `h` with the headers in `l` has changed. -/
structure HashFrame (c c' : Cache β) (h : Nat) (l : List Nat) : Prop where
  data : ∀ i, SameContent (c.buffers i) (c'.buffers i)
  free : ∀ i, (c'.buffers i).freeNext = (c.buffers i).freeNext ∧
    (c'.buffers i).freePrev = (c.buffers i).freePrev
  links : ∀ i, i ∉ l → (c'.buffers i).hashNext = (c.buffers i).hashNext ∧
    (c'.buffers i).hashPrev = (c.buffers i).hashPrev
  queues : ∀ h', h' ≠ h → c'.hashQueue h' = c.hashQueue h'
  rest : c'.freeHead = c.freeHead ∧ c'.freeTail = c.freeTail ∧ c'.writeHead = c.writeHead ∧
    c'.disk = c.disk

theorem HashFrame.hashQueue {h' : Nat} {l' : List Nat} (hf : HashFrame c c' h l)
    (hq : HashQueue c h' l') (hne : h' ≠ h) (hdisj : ∀ i ∈ l', i ∉ l) : HashQueue c' h' l' :=
  hq.congr (hf.queues h' hne) (fun z hz => (hf.links z (hdisj z hz)).1)
    fun z hz => (hf.links z (hdisj z hz)).2

theorem upd_hashNext (c : Cache β) (p v : Option Nat) :
    c.upd p (fun h => { h with hashNext := v }) = { c with buffers := fun i =>
      { c.buffers i with hashNext := store (fun j => (c.buffers j).hashNext) p v i } } := by
  unfold Cache.upd store
  congr 1
  funext i
  split <;> rfl

theorem upd_hashPrev (c : Cache β) (p v : Option Nat) :
    c.upd p (fun h => { h with hashPrev := v }) = { c with buffers := fun i =>
      { c.buffers i with hashPrev := store (fun j => (c.buffers j).hashPrev) p v i } } := by
  unfold Cache.upd store
  congr 1
  funext i
  split <;> rfl

theorem upd_hash (c : Cache β) (p n v : Option Nat) :
    c.upd p (fun h => { h with hashNext := n, hashPrev := v }) = { c with buffers := fun i =>
      { c.buffers i with
        hashNext := store (fun j => (c.buffers j).hashNext) p n i
        hashPrev := store (fun j => (c.buffers j).hashPrev) p v i } } := by
  rw [← upd_upd c p (fun h => { h with hashNext := n }) fun h => { h with hashPrev := v }, upd_hashNext,
    upd_hashPrev]

/-- `delete_from_hashlist` of a header that is on the queue and not alone there. -/
theorem deleteFromHashlist_spec (hq : HashQueue c h l) (hb : b ∈ l)
    (hsole : ¬ (c.hashQueue h = some b ∧ (c.buffers b).hashNext = none)) :
    HashQueue (deleteFromHashlist c h b) h (l.erase b) ∧
      HashFrame c (deleteFromHashlist c h b) h l := by
  have hprev : (c.buffers b).hashPrev = none ↔ c.hashQueue h = some b := hq.links.prev_none hb
  have heq : deleteFromHashlist c h b = { c with
      buffers := fun i => { c.buffers i with
        hashNext := store (fun j => (c.buffers j).hashNext) (c.buffers b).hashPrev
          (c.buffers b).hashNext i
        hashPrev := store (fun j => (c.buffers j).hashPrev) (c.buffers b).hashNext
          (c.buffers b).hashPrev i }
      hashQueue := fun h' => if h' = h then
        (if c.hashQueue h = some b then (c.buffers b).hashNext else c.hashQueue h)
        else c.hashQueue h' } := by
    unfold deleteFromHashlist
    rw [if_neg fun hc => hsole ⟨hprev.mp hc.1, hc.2⟩]
    simp only [upd_hashNext, upd_hashPrev, ne_eq, ite_not]
    by_cases hp : (c.buffers b).hashPrev = none
    · simp only [hp, hprev.mp hp, if_true, store_null, Cache.setQueue]
    rw [if_neg hp, if_neg (hp ∘ hprev.mpr)]
    congr 1
    funext h'
    split
    · rename_i hh
      rw [hh]
    · rfl
  rw [heq]
  refine ⟨⟨?_, hq.nodup.erase b⟩, ?_⟩
  · change DList _ _ (if h = h then _ else _) none _
    rw [if_pos rfl]
    exact hq.links.remove hq.nodup (by simp) hb
  · refine ⟨fun i => ⟨rfl, rfl, rfl, rfl, rfl, rfl, rfl⟩, fun i => ⟨rfl, rfl⟩, fun i hi => ⟨?_, ?_⟩,
      fun h' hh => if_neg hh, ⟨rfl, rfl, rfl, rfl⟩⟩
    · refine store_of_ne (f := fun j => (c.buffers j).hashNext) fun he => hi ?_
      rcases hq.links.prev_mem hb with ⟨hp, -⟩ | ⟨y, hy, hp⟩
      · exact absurd (he.trans hp) (by simp)
      · rw [Option.some.inj (he.trans hp)]
        exact hy
    · refine store_of_ne (f := fun j => (c.buffers j).hashPrev) fun he => hi ?_
      exact mem_of_mem_tail (hq.links.next_mem hb he.symm)

theorem enqueueToHashlist_spec (hq : HashQueue c h l) (hb : b ∉ l) :
    HashQueue (enqueueToHashlist c h b) h (b :: l) ∧
      HashFrame c (enqueueToHashlist c h b) h (b :: l) := by
  have heq : enqueueToHashlist c h b = { c with
      buffers := fun i => { c.buffers i with
        hashNext := store (fun j => (c.buffers j).hashNext) (some b) (c.hashQueue h) i
        hashPrev := store (store (fun j => (c.buffers j).hashPrev) (some b) none) (c.hashQueue h)
          (some b) i }
      hashQueue := fun h' => if h' = h then some b else c.hashQueue h' } := by
    unfold enqueueToHashlist
    simp only [upd_hash, upd_hashPrev, Cache.setQueue]
  rw [heq]
  refine ⟨⟨?_, nodup_cons.mpr ⟨hb, hq.nodup⟩⟩, ?_⟩
  · change DList _ _ (if h = h then _ else _) none _
    rw [if_pos rfl]
    exact hq.links.push hq.nodup hb
  · refine ⟨fun i => ⟨rfl, rfl, rfl, rfl, rfl, rfl, rfl⟩, fun i => ⟨rfl, rfl⟩, fun i hi => ?_,
      fun h' hh => if_neg hh, ⟨rfl, rfl, rfl, rfl⟩⟩
    have hib : some i ≠ some b := fun he => hi (Option.some.inj he ▸ mem_cons_self)
    have hhead : some i ≠ c.hashQueue h := fun he => by
      rw [hq.links.head_eq] at he
      exact hi (mem_cons_of_mem _ (mem_of_head? he.symm))
    exact ⟨store_of_ne (f := fun j => (c.buffers j).hashNext) hib,
      (store_of_ne hhead).trans (store_of_ne (f := fun j => (c.buffers j).hashPrev) hib)⟩

/-- The header `b` is alone on its queue. -/
def Cache.Sole (c : Cache β) (b : Nat) : Prop :=
  c.hashQueue ((c.buffers b).blockno % buffHashNumber) = some b ∧ (c.buffers b).hashNext = none

theorem Hashed.unhash (h : Hashed c q) (hframe : FreeFrame c c₁) (hb : b < maxBuffers)
    (hsole : ¬ c.Sole b) :
    let c2 := deleteFromHashlist c₁ ((c.buffers b).blockno % buffHashNumber) b
    (∀ i < buffHashNumber, HashQueue c2 i ((q i).erase b)) ∧
      HashFrame c₁ c2 ((c.buffers b).blockno % buffHashNumber)
        (q ((c.buffers b).blockno % buffHashNumber)) := by
  intro c2
  have hh := hash_lt (c.buffers b).blockno
  have hq1 : ∀ i < buffHashNumber, HashQueue c₁ i (q i) := fun i hi =>
    (h.queues i hi).congr (congrFun hframe.hashQueue i) (fun z _ => (hframe.same z).hashNext)
      fun z _ => (hframe.same z).hashPrev
  have hother : ∀ i < buffHashNumber, i ≠ (c.buffers b).blockno % buffHashNumber → b ∉ q i :=
    fun i hi hne hmem => hne (h.queued i hi b hmem).2.symm
  by_cases hmem : b ∈ q ((c.buffers b).blockno % buffHashNumber)
  · obtain ⟨hqueue, hf⟩ := deleteFromHashlist_spec (hq1 _ hh) hmem (by
      rw [hframe.hashQueue, (hframe.same b).hashNext]
      exact hsole)
    refine ⟨fun i hi => ?_, hf⟩
    by_cases hi' : i = (c.buffers b).blockno % buffHashNumber
    · rw [hi']
      exact hqueue
    · rw [erase_of_not_mem (hother i hi hi')]
      refine hf.hashQueue (hq1 i hi) hi' fun j hj hj' => hi' ?_
      rw [← (h.queued i hi j hj).2]
      exact (h.queued _ hh j hj').2
  · have hnot : ∀ i < buffHashNumber, b ∉ q i := by
      intro i hi
      by_cases hi' : i = (c.buffers b).blockno % buffHashNumber
      · rw [hi']
        exact hmem
      · exact hother i hi hi'
    obtain ⟨hn, hp⟩ := h.loose b hb hnot
    have hc2 : c2 = c₁ := by
      change deleteFromHashlist c₁ _ b = c₁
      unfold deleteFromHashlist
      rw [if_pos ⟨by rw [(hframe.same b).hashPrev]; exact hp, by rw [(hframe.same b).hashNext]; exact hn⟩]
    rw [hc2]
    refine ⟨fun i hi => ?_, fun i => ⟨rfl, rfl, rfl, rfl, rfl, rfl, rfl⟩, fun i => ⟨rfl, rfl⟩,
      fun i _ => ⟨rfl, rfl⟩, fun _ _ => rfl, ⟨rfl, rfl, rfl, rfl⟩⟩
    rw [erase_of_not_mem (hnot i hi)]
    exact hq1 i hi

/-- The header `b`, which is off the free list, becomes that of block `blk`, which its data is not
    yet. -/
def Cache.rehash (c : Cache β) (b device blk : Nat) : Cache β :=
  let c := deleteFromHashlist c ((c.buffers b).blockno % buffHashNumber) b
  let c := c.upd (some b) fun h =>
    { h with blockno := blk, device := device, busy := true, valid := false }
  enqueueToHashlist c (blk % buffHashNumber) b

/-- What rehashing a header does to the headers. -/
structure Recycled (c c' : Cache β) (b device blk : Nat) : Prop where
  others : ∀ i, i ≠ b → SameContent (c.buffers i) (c'.buffers i)
  blockno : (c'.buffers b).blockno = blk
  device : (c'.buffers b).device = device
  busy : (c'.buffers b).busy = true
  valid : (c'.buffers b).valid = false
  delay : (c'.buffers b).delay = (c.buffers b).delay

/-- The hash queues after the header `b` was moved to the queue of block `blk`. -/
def requeue (q : Nat → List Nat) (b blk : Nat) : Nat → List Nat := fun i =>
  if i = blk % buffHashNumber then b :: (q i).erase b else (q i).erase b

theorem mem_requeue {j : Nat} (hnd : (q i).Nodup) :
    j ∈ requeue q b blk i ↔ j = b ∧ i = blk % buffHashNumber ∨ j ≠ b ∧ j ∈ q i := by
  unfold requeue
  split
  · rename_i hi
    by_cases hj : j = b <;> simp [hj, hi]
  · rename_i hi
    rw [hnd.mem_erase_iff]
    by_cases hj : j = b <;> simp [hj, hi]

/-- **Rehashing a header** that is not alone on its queue. -/
theorem Hashed.rehash (h : Hashed c q) (hframe : FreeFrame c c₁) (hb : b < maxBuffers)
    (device blk : Nat) (hsole : ¬ c.Sole b) :
    Hashed (c₁.rehash b device blk) (requeue q b blk) ∧ Recycled c (c₁.rehash b device blk) b device blk ∧
      (∀ i, ((c₁.rehash b device blk).buffers i).freeNext = (c₁.buffers i).freeNext ∧
        ((c₁.rehash b device blk).buffers i).freePrev = (c₁.buffers i).freePrev) ∧
      (c₁.rehash b device blk).freeHead = c₁.freeHead ∧
      (c₁.rehash b device blk).freeTail = c₁.freeTail ∧
      (c₁.rehash b device blk).writeHead = c₁.writeHead ∧ (c₁.rehash b device blk).disk = c₁.disk := by
  have hk := hash_lt blk
  obtain ⟨hqueues, hout⟩ := h.unhash hframe hb hsole
  rw [← (hframe.same b).blockno] at hqueues hout
  obtain ⟨hqueue, hin⟩ := enqueueToHashlist_spec ((hqueues _ hk).upd (some b)
    (f := fun x => { x with blockno := blk, device := device, busy := true, valid := false })
    (fun _ => rfl) fun _ => rfl) (h.queues _ hk).nodup.not_mem_erase
  have hnd : ∀ i < buffHashNumber, (q i).Nodup := fun i hi => (h.queues i hi).nodup
  have hrec : Recycled c (c₁.rehash b device blk) b device blk := by
    refine ⟨fun i hi => ?_, ?_, ?_, ?_, ?_, ?_⟩
    · have hupd := hin.data i
      rw [upd_some_ne hi] at hupd
      exact (hframe.content i).trans ((hout.data i).trans hupd)
    · exact (hin.data b).blockno.trans (by rw [upd_some_same])
    · exact (hin.data b).device.trans (by rw [upd_some_same])
    · exact (hin.data b).busy.trans (by rw [upd_some_same])
    · exact (hin.data b).valid.trans (by rw [upd_some_same])
    · refine (hin.data b).delay.trans ?_
      rw [upd_some_same]
      exact (hout.data b).delay.trans (hframe.same b).delay
  refine ⟨⟨fun i hi => ?_, fun i hi j hj => ?_, fun j hj hnot => ?_⟩, hrec, fun i => ?_,
    hin.rest.1.trans hout.rest.1, hin.rest.2.1.trans hout.rest.2.1,
    hin.rest.2.2.1.trans hout.rest.2.2.1, hin.rest.2.2.2.trans hout.rest.2.2.2⟩
  · unfold requeue
    split
    · rename_i he
      rw [he]
      exact hqueue
    rename_i hne
    refine hin.hashQueue ((hqueues i hi).upd _ (fun _ => rfl) fun _ => rfl) hne fun j hj hj' => ?_
    obtain ⟨hjb, hji⟩ := (hnd i hi).mem_erase_iff.mp hj
    have hjk := mem_of_mem_erase ((mem_cons.mp hj').resolve_left hjb)
    exact hne ((h.queued i hi j hji).2.symm.trans (h.queued _ hk j hjk).2)
  · rcases (mem_requeue (hnd i hi)).mp hj with ⟨rfl, rfl⟩ | ⟨hjb, hji⟩
    · exact ⟨hb, by rw [hrec.blockno]⟩
    · rw [(hrec.others j hjb).blockno]
      exact h.queued i hi j hji
  · have hjb : j ≠ b := fun he => hnot _ hk ((mem_requeue (hnd _ hk)).mpr (.inl ⟨he, rfl⟩))
    have hjq : ∀ i < buffHashNumber, j ∉ q i := fun i hi hc =>
      hnot i hi ((mem_requeue (hnd i hi)).mpr (.inr ⟨hjb, hc⟩))
    have hl := hin.links j fun hc => hjq _ hk
      (mem_of_mem_erase ((mem_cons.mp hc).resolve_left hjb))
    rw [upd_some_ne hjb] at hl
    have hl' := hout.links j (hjq _ (hash_lt _))
    obtain ⟨hn, hp⟩ := h.loose j hj hjq
    exact ⟨hl.1.trans (hl'.1.trans ((hframe.same j).hashNext.trans hn)),
      hl.2.trans (hl'.2.trans ((hframe.same j).hashPrev.trans hp))⟩
  · refine ⟨(hin.free i).1.trans ?_, (hin.free i).2.trans ?_⟩
    · rw [Cache.upd_buffers]
      split <;> exact (hout.free i).1
    · rw [Cache.upd_buffers]
      split <;> exact (hout.free i).2

/-- The header `b` becomes that of block `blk`, which its data is not yet. -/
def Cache.recycle (c : Cache β) (b blk : Nat) : Cache β := (deleteFromFreelist c b).rehash b floppy blk

theorem CacheInv.recycle_spec (h : CacheInv c blocks q free) (hb : b ∈ free) (blk : Nat)
    (hsole : ¬ c.Sole b) :
    FreeBuffers (c.recycle b blk) (free.erase b) ∧ Hashed (c.recycle b blk) (requeue q b blk) ∧
      Recycled c (c.recycle b blk) b floppy blk ∧
      (c.recycle b blk).writeHead = c.writeHead ∧ (c.recycle b blk).disk = c.disk := by
  obtain ⟨hfree, hframe⟩ := deleteFromFreelist_spec h.freeBuffers hb
  obtain ⟨hhashed, hrec, hlinks, hhead, htail, hwrite, hdisk⟩ :=
    h.hashed.rehash hframe ((h.free_iff b).mp hb).1 floppy blk hsole
  refine ⟨⟨?_, hfree.nodup, htail.trans hfree.tail⟩, hhashed, hrec, hwrite.trans hframe.writeHead,
    hdisk.trans hframe.disk⟩
  rw [Cache.recycle, hhead]
  exact hfree.links.congr (fun z _ => (hlinks z).1) fun z _ => (hlinks z).2

/-- **Recycling a buffer** with no delayed data that is not alone on its queue, for a block that is
    not in the cache. -/
theorem CacheInv.recycle (h : CacheInv c blocks q free) (hb : b ∈ free)
    (hdelay : (c.buffers b).delay = false) (hsole : ¬ c.Sole b)
    (hmiss : ∀ i < buffHashNumber, ∀ j ∈ q i, (c.buffers j).blockno ≠ blk) :
    CacheInv (c.recycle b blk) blocks (requeue q b blk) (free.erase b) := by
  obtain ⟨hfree, hhashed, hrec, hwrite, hdisk⟩ := h.recycle_spec hb blk hsole
  have hnd : ∀ i < buffHashNumber, (q i).Nodup := fun i hi => (h.queues i hi).nodup
  have hlt : b < maxBuffers := ((h.free_iff b).mp hb).1
  refine ⟨hfree, hhashed.queues, fun i hi j hj => ?_, fun i hi j hj k hk heq => ?_,
    fun i hi hnot => ?_, fun i => ?_, hwrite.trans h.noWrites, fun i hi hd => ?_,
    fun i hi hv => ?_, fun k hk => ?_⟩
  · rcases (mem_requeue (hnd i hi)).mp hj with ⟨rfl, rfl⟩ | ⟨hjb, hji⟩
    · exact ⟨hlt, by rw [hrec.blockno], hrec.device⟩
    · rw [(hrec.others j hjb).blockno, (hrec.others j hjb).device]
      exact h.queued i hi j hji
  · rcases (mem_requeue (hnd i hi)).mp hj with ⟨rfl, -⟩ | ⟨hjb, hji⟩
    · rcases (mem_requeue (hnd i hi)).mp hk with ⟨rfl, -⟩ | ⟨hkb, hki⟩
      · rfl
      · rw [hrec.blockno, (hrec.others k hkb).blockno] at heq
        exact absurd heq.symm (hmiss i hi k hki)
    rcases (mem_requeue (hnd i hi)).mp hk with ⟨rfl, -⟩ | ⟨hkb, hki⟩
    · rw [hrec.blockno, (hrec.others j hjb).blockno] at heq
      exact absurd heq (hmiss i hi j hji)
    · rw [(hrec.others j hjb).blockno, (hrec.others k hkb).blockno] at heq
      exact h.keys i hi j hji k hki heq
  · have hib : i ≠ b := fun he =>
      hnot _ (hash_lt blk) ((mem_requeue (hnd _ (hash_lt blk))).mpr (.inl ⟨he, rfl⟩))
    obtain ⟨-, -, hbusy, hvalid⟩ := h.loose i hi fun l hl hc =>
      hnot l hl ((mem_requeue (hnd l hl)).mpr (.inr ⟨hib, hc⟩))
    obtain ⟨hn, hp⟩ := hhashed.loose i hi hnot
    rw [(hrec.others i hib).busy, (hrec.others i hib).valid]
    exact ⟨hn, hp, hbusy, hvalid⟩
  · rw [h.freeBuffers.mem_erase h.free_iff]
    by_cases hib : i = b
    · rw [if_pos hib, hib, hrec.busy]
    · rw [if_neg hib, (hrec.others i hib).busy]
  · by_cases hib : i = b
    · rw [hib, hrec.delay, hdelay] at hd
      exact absurd hd (by simp)
    · rw [(hrec.others i hib).delay] at hd
      rw [(hrec.others i hib).valid]
      exact h.delayed i hi hd
  · by_cases hib : i = b
    · rw [hib, hrec.valid] at hv
      exact absurd hv (by simp)
    · rw [(hrec.others i hib).valid] at hv
      rw [(hrec.others i hib).buff, (hrec.others i hib).blockno]
      exact h.content i hi hv
  · rw [hdisk]
    refine h.clean k fun i hi hd => ?_
    have hib : i ≠ b := fun he => absurd hd (by rw [he, hdelay]; simp)
    rw [← (hrec.others i hib).blockno]
    exact hk i hi (by rw [(hrec.others i hib).delay]; exact hd)

end invariant

end AtomOs
