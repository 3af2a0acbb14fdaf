import AtomOs.Lib.Run
import AtomOs.Buf.CacheInv

/-!
# The hash queues of the buffer cache

What `getblk` and `brelease` alone do to the hash queues, in any order, for any blocks and devices,
and whoever holds the buffers: `brelease` may even be called for a buffer that is free.

`delete_from_hashlist` takes a header with no neighbours for one that is on no queue. For a header
that is alone on its queue that is wrong: it stays on its old queue when it is put on the next one
(`sole_header_on_two_queues`). In every run in which `getblk` takes no such header, the queues are
what they should be (**`hash_queues_sound`**).
-/

namespace AtomOs

open Lib Prog

variable {β : Type}

/-! ## Runs -/

inductive HashOp where
  | getblk (device blk : Nat)
  | brelease (b : Nat)

/-- The cache, and the headers that were ever assigned to a block. -/
structure Tracked (β : Type) where
  cache : Cache β
  assigned : Finset Nat

def hashStep (s : Tracked β) : HashOp → Option (Tracked β)
  | .getblk device blk =>
    (getblk device blk s.cache).map fun (b, c) => ⟨c, insert b s.assigned⟩
  | .brelease b => (brelease b s.cache).map fun (_, c) => ⟨c, s.assigned⟩

/-- `getblk` does not take a header that is alone on its queue; `brelease` is called for a header. -/
def HashOpOk (s : Tracked β) : HashOp → Prop
  | .getblk device blk => lookupBlock s.cache device blk = some none →
      ∀ b ∈ s.cache.freeHead,
        ¬ (s.cache.hashQueue ((s.cache.buffers b).blockno % buffHashNumber) = some b ∧
          (s.cache.buffers b).hashNext = none)
  | .brelease b => b < maxBuffers

/-- The queues are doubly linked lists without a cycle; each header that was assigned is on the
    queue of its block and on no other, and is the only one of its block; every search ends. -/
structure QueuesSound (s : Tracked β) (q : Nat → List Nat) : Prop where
  lists : ∀ h < buffHashNumber,
    DList (fun i => (s.cache.buffers i).hashNext) (fun i => (s.cache.buffers i).hashPrev)
      (s.cache.hashQueue h) none (q h) ∧ (q h).Nodup
  one : ∀ b ∈ s.assigned, ∀ h < buffHashNumber,
    b ∈ q h ↔ h = (s.cache.buffers b).blockno % buffHashNumber
  keys : ∀ b ∈ s.assigned, ∀ b' ∈ s.assigned,
    (s.cache.buffers b).device = (s.cache.buffers b').device →
      (s.cache.buffers b).blockno = (s.cache.buffers b').blockno → b = b'
  ends : ∀ device blk, (lookupBlock s.cache device blk).isSome = true

/-! ## The invariant -/

/-- The free list leads to headers only, and no header has delayed data. -/
structure FreeOk (c : Cache β) : Prop where
  head : ∀ b ∈ c.freeHead, b < maxBuffers
  next : ∀ i, ∀ b ∈ (c.buffers i).freeNext, b < maxBuffers
  delay : ∀ i, (c.buffers i).delay = false

/-- What every allowed call preserves. -/
structure QueuesInv (s : Tracked β) (q : Nat → List Nat) : Prop where
  hashed : Hashed s.cache q
  assigned : ∀ b, b ∈ s.assigned ↔ ∃ h < buffHashNumber, b ∈ q h
  keys : ∀ h < buffHashNumber, ∀ i ∈ q h, ∀ j ∈ q h,
    (s.cache.buffers i).device = (s.cache.buffers j).device →
      (s.cache.buffers i).blockno = (s.cache.buffers j).blockno → i = j
  free : FreeOk s.cache

variable {b device blk : Nat}

section frames

variable {c c' : Cache β} {q : Nat → List Nat}

theorem deleteFromFreelist_frame (c : Cache β) (b : Nat) : FreeFrame c (deleteFromFreelist c b) := by
  unfold deleteFromFreelist
  simp only [upd_freeNext, upd_freePrev]
  split <;> split <;>
    exact ⟨fun i => ⟨rfl, rfl, rfl, rfl, rfl, rfl, rfl, rfl⟩, fun _ => rfl, rfl, rfl, rfl⟩

theorem appendToFreelist_frame (c : Cache β) (b : Nat) : FreeFrame c (appendToFreelist c b) := by
  unfold appendToFreelist
  simp only [upd_free, upd_freeNext]
  split <;> exact ⟨fun i => ⟨rfl, rfl, rfl, rfl, rfl, rfl, rfl, rfl⟩, fun _ => rfl, rfl, rfl, rfl⟩

theorem prependToFreelist_frame (c : Cache β) (b : Nat) : FreeFrame c (prependToFreelist c b) := by
  unfold prependToFreelist
  simp only [upd_free, upd_freePrev]
  exact ⟨fun i => ⟨rfl, rfl, rfl, rfl, rfl, rfl, rfl, rfl⟩, fun _ => rfl, rfl, rfl, rfl⟩

theorem Hashed.congr (h : Hashed c q) (hsame : ∀ i, SameBuffer (c.buffers i) (c'.buffers i))
    (hqueue : c'.hashQueue = c.hashQueue) : Hashed c' q := by
  refine ⟨fun i hi => ?_, fun i hi j hj => ?_, fun i hi hnot => ?_⟩
  · exact (h.queues i hi).congr (congrFun hqueue i) (fun z _ => (hsame z).hashNext)
      fun z _ => (hsame z).hashPrev
  · rw [(hsame j).blockno]
    exact h.queued i hi j hj
  · rw [(hsame i).hashNext, (hsame i).hashPrev]
    exact h.loose i hi hnot

theorem store_lt {f : Nat → Option Nat} (hf : ∀ i, ∀ b ∈ f i, b < maxBuffers) {p v : Option Nat}
    (hv : ∀ b ∈ v, b < maxBuffers) (i : Nat) : ∀ b ∈ store f p v i, b < maxBuffers := by
  unfold store
  split
  · exact hv
  · exact hf i

theorem FreeOk.delete (h : FreeOk c) (b : Nat) : FreeOk (deleteFromFreelist c b) := by
  have hdelay : ∀ i, ((deleteFromFreelist c b).buffers i).delay = false := fun i =>
    ((deleteFromFreelist_frame c b).same i).delay.trans (h.delay i)
  refine ⟨fun x hx => ?_, fun i x hx => ?_, hdelay⟩
  · have hhead : (deleteFromFreelist c b).freeHead = c.freeHead ∨
        (deleteFromFreelist c b).freeHead = (c.buffers b).freeNext := by
      unfold deleteFromFreelist
      simp only [upd_freeNext, upd_freePrev]
      split <;> split <;> simp
    rcases hhead with he | he
    · exact h.head x (he ▸ hx)
    · exact h.next b x (he ▸ hx)
  · have hnext : ((deleteFromFreelist c b).buffers i).freeNext =
          store (fun j => (c.buffers j).freeNext) (c.buffers b).freePrev (c.buffers b).freeNext i ∨
        ((deleteFromFreelist c b).buffers i).freeNext = (c.buffers i).freeNext := by
      unfold deleteFromFreelist
      simp only [upd_freeNext, upd_freePrev]
      split <;> split <;> simp
    rcases hnext with he | he
    · exact store_lt h.next (h.next b) i x (he ▸ hx)
    · exact h.next i x (he ▸ hx)

theorem FreeOk.append (h : FreeOk c) (hb : b < maxBuffers) : FreeOk (appendToFreelist c b) := by
  have hsome : ∀ x ∈ some b, x < maxBuffers := by
    rintro x ⟨⟩
    exact hb
  have hdelay : ∀ i, ((appendToFreelist c b).buffers i).delay = false := fun i =>
    ((appendToFreelist_frame c b).same i).delay.trans (h.delay i)
  have hnone : ∀ i, ∀ x ∈ store (fun j => (c.buffers j).freeNext) (some b) none i, x < maxBuffers :=
    store_lt h.next (by simp)
  refine ⟨fun x hx => ?_, fun i x hx => ?_, hdelay⟩
  · unfold appendToFreelist at hx
    simp only [upd_free, upd_freeNext] at hx
    split at hx
    · exact h.head x hx
    · exact hsome x hx
  · unfold appendToFreelist at hx
    simp only [upd_free, upd_freeNext] at hx
    split at hx
    · exact store_lt hnone hsome i x hx
    · exact hnone i x hx

theorem FreeOk.prepend (h : FreeOk c) (hb : b < maxBuffers) : FreeOk (prependToFreelist c b) := by
  have hdelay : ∀ i, ((prependToFreelist c b).buffers i).delay = false := fun i =>
    ((prependToFreelist_frame c b).same i).delay.trans (h.delay i)
  refine ⟨fun x hx => ?_, fun i x hx => ?_, hdelay⟩
  · obtain rfl : b = x := by simpa [prependToFreelist] using hx
    exact hb
  · unfold prependToFreelist at hx
    simp only [upd_free, upd_freePrev] at hx
    exact store_lt h.next h.head i x hx

theorem FreeOk.upd_busy (h : FreeOk c) (b : Nat) (v : Bool) :
    FreeOk (c.upd (some b) fun h => { h with busy := v }) := by
  refine ⟨h.head, fun i x hx => ?_, fun i => ?_⟩
  · rw [Cache.upd_buffers] at hx
    split at hx <;> exact h.next i x hx
  · rw [Cache.upd_buffers]
    split <;> exact h.delay i

end frames

/-! ## One call -/

section calls

variable {s : Tracked β} {q : Nat → List Nat}

theorem Hashed.lookup {c : Cache β} (h : Hashed c q) (device blk : Nat) :
    lookupBlock c device blk = some ((q (blk % buffHashNumber)).find? fun b =>
      (c.buffers b).device = device ∧ (c.buffers b).blockno = blk) :=
  searchQueue_dlist (h.queues _ (hash_lt blk)).links (h.length_le (hash_lt blk))

section

variable (h : QueuesInv s q)
include h

theorem QueuesInv.congr {c' : Cache β} (hsame : ∀ i, SameBuffer (s.cache.buffers i) (c'.buffers i))
    (hqueue : c'.hashQueue = s.cache.hashQueue) (hfree : FreeOk c') :
    QueuesInv ⟨c', s.assigned⟩ q := by
  refine ⟨h.hashed.congr hsame hqueue, h.assigned, fun i hi j hj k hk => ?_, hfree⟩
  simp only [(hsame j).device, (hsame k).device, (hsame j).blockno, (hsame k).blockno]
  exact h.keys i hi j hj k hk

theorem QueuesInv.brelease (hb : b < maxBuffers) {u : Unit} {c' : Cache β}
    (hrun : brelease b s.cache = some (u, c')) : QueuesInv ⟨c', s.assigned⟩ q := by
  obtain ⟨c1, hframe, hfree, hc'⟩ : ∃ c1, FreeFrame s.cache c1 ∧ FreeOk c1 ∧
      c' = c1.upd (some b) fun h => { h with busy := false } := by
    cases hrun
    by_cases hv : (s.cache.buffers b).valid = true
    · refine ⟨appendToFreelist s.cache b, appendToFreelist_frame _ b, h.free.append hb, ?_⟩
      simp only [hv, if_true]
    · refine ⟨prependToFreelist s.cache b, prependToFreelist_frame _ b, h.free.prepend hb, ?_⟩
      simp only [hv]
      rfl
  rw [hc']
  exact h.congr (fun i => (hframe.same i).trans (upd_busy_same c1 b false i)) hframe.hashQueue
    (hfree.upd_busy b false)

theorem QueuesInv.hold {i : Nat} (hi : i < buffHashNumber) (hb : b ∈ q i) :
    QueuesInv ⟨s.cache.hold b, insert b s.assigned⟩ q := by
  have hframe := deleteFromFreelist_frame (s.cache.upd (some b) fun h => { h with busy := true }) b
  have hassigned : insert b s.assigned = s.assigned :=
    Finset.insert_eq_self.mpr ((h.assigned b).mpr ⟨i, hi, hb⟩)
  rw [hassigned]
  exact h.congr (fun j => (upd_busy_same s.cache b true j).trans (hframe.same j)) hframe.hashQueue
    ((h.free.upd_busy b true).delete b)

theorem QueuesInv.recycle (hb : b < maxBuffers) (hmiss : ∀ j ∈ q (blk % buffHashNumber),
      ¬ ((s.cache.buffers j).device = device ∧ (s.cache.buffers j).blockno = blk))
    (hsole : ¬ s.cache.Sole b) :
    QueuesInv ⟨(deleteFromFreelist s.cache b).rehash b device blk, insert b s.assigned⟩
      (requeue q b blk) := by
  have hframe := deleteFromFreelist_frame s.cache b
  have hfree := h.free.delete b
  obtain ⟨hhashed, hrec, hlinks, hhead, -⟩ := h.hashed.rehash hframe hb device blk hsole
  have hnd : ∀ i < buffHashNumber, (q i).Nodup := fun i hi => (h.hashed.queues i hi).nodup
  refine ⟨hhashed, fun j => ?_, fun i hi j hj k hk hdev hblk => ?_,
    ⟨fun x hx => hfree.head x (hhead ▸ hx), fun i x hx => hfree.next i x ((hlinks i).1 ▸ hx), fun i => ?_⟩⟩
  · rw [Finset.mem_insert, h.assigned]
    constructor
    · rintro (rfl | ⟨i, hi, hj⟩)
      · exact ⟨_, hash_lt blk, (mem_requeue (hnd _ (hash_lt blk))).mpr (.inl ⟨rfl, rfl⟩)⟩
      · by_cases hjb : j = b
        · exact ⟨_, hash_lt blk, (mem_requeue (hnd _ (hash_lt blk))).mpr (.inl ⟨hjb, rfl⟩)⟩
        · exact ⟨i, hi, (mem_requeue (hnd i hi)).mpr (.inr ⟨hjb, hj⟩)⟩
    · rintro ⟨i, hi, hj⟩
      rcases (mem_requeue (hnd i hi)).mp hj with ⟨rfl, -⟩ | ⟨-, hj⟩
      · exact .inl rfl
      · exact .inr ⟨i, hi, hj⟩
  · have hkey : ∀ m, m ∈ q i → m ≠ b → i = blk % buffHashNumber →
        ((deleteFromFreelist s.cache b).rehash b device blk |>.buffers m).device = device →
        ((deleteFromFreelist s.cache b).rehash b device blk |>.buffers m).blockno = blk → False := by
      rintro m hm hmb rfl hd hb
      rw [(hrec.others m hmb).device] at hd
      rw [(hrec.others m hmb).blockno] at hb
      exact hmiss m hm ⟨hd, hb⟩
    rcases (mem_requeue (hnd i hi)).mp hj with ⟨rfl, hib⟩ | ⟨hjb, hji⟩
    · rcases (mem_requeue (hnd i hi)).mp hk with ⟨rfl, -⟩ | ⟨hkb, hki⟩
      · rfl
      · exact absurd (hkey k hki hkb hib (hdev.symm.trans hrec.device) (hblk.symm.trans hrec.blockno)) id
    rcases (mem_requeue (hnd i hi)).mp hk with ⟨rfl, hib⟩ | ⟨hkb, hki⟩
    · exact absurd (hkey j hji hjb hib (hdev.trans hrec.device) (hblk.trans hrec.blockno)) id
    · rw [(hrec.others j hjb).device, (hrec.others k hkb).device] at hdev
      rw [(hrec.others j hjb).blockno, (hrec.others k hkb).blockno] at hblk
      exact h.keys i hi j hji k hki hdev hblk
  · by_cases hib : i = b
    · rw [hib]
      exact hrec.delay.trans (h.free.delay b)
    · exact (hrec.others i hib).delay.trans (h.free.delay i)

theorem QueuesInv.getblk {c' : Cache β}
    (hok : HashOpOk s (.getblk device blk)) (hrun : getblk device blk s.cache = some (b, c')) :
    ∃ q', QueuesInv ⟨c', insert b s.assigned⟩ q' := by
  have hlookup := h.hashed.lookup device blk
  rw [AtomOs.getblk, getblkFrom, get_bind] at hrun
  cases hfind : (q (blk % buffHashNumber)).find? fun b =>
      (s.cache.buffers b).device = device ∧ (s.cache.buffers b).blockno = blk with
  | some i =>
    rw [hfind] at hlookup
    rw [hlookup] at hrun
    simp only at hrun
    split at hrun
    · cases hrun
    · cases hrun
      exact ⟨q, h.hold (hash_lt blk) (List.mem_of_find?_eq_some hfind)⟩
  | none =>
    rw [hfind] at hlookup
    rw [hlookup] at hrun
    cases hhead : s.cache.freeHead with
    | none =>
      rw [hhead] at hrun
      cases hrun
    | some i =>
      rw [hhead] at hrun
      simp only at hrun
      have hdelay : ((deleteFromFreelist s.cache i).buffers i).delay = false :=
        (h.free.delete i).delay i
      rw [if_neg (by rw [hdelay]; simp)] at hrun
      cases hrun
      refine ⟨requeue q b blk, h.recycle (h.free.head b hhead) (fun j hj => ?_) (hok hlookup b hhead)⟩
      simpa using List.find?_eq_none.mp hfind j hj

end

end calls

/-! ## Runs -/

theorem initialize_queuesInv (blank : β) (disk : Nat → β) :
    QueuesInv ⟨initializeBufferCache blank disk, ∅⟩ fun _ => [] where
  hashed := ⟨fun _ _ => ⟨rfl, List.nodup_nil⟩, by simp, fun _ _ _ => ⟨rfl, rfl⟩⟩
  assigned := by simp
  keys := by simp
  free := by
    refine ⟨?_, fun i b hb => ?_, fun _ => rfl⟩
    · rintro b ⟨⟩
      decide
    · change b ∈ (if i < maxBuffers - 1 then some (i + 1) else none) at hb
      split at hb
      · cases hb
        omega
      · cases hb

theorem QueuesInv.sound {s : Tracked β} {q : Nat → List Nat} (h : QueuesInv s q) : QueuesSound s q where
  lists := fun i hi => ⟨(h.hashed.queues i hi).links, (h.hashed.queues i hi).nodup⟩
  one := fun b hb i hi => by
    obtain ⟨j, hj, hbj⟩ := (h.assigned b).mp hb
    have hhash := (h.hashed.queued j hj b hbj).2
    constructor
    · intro hbi
      exact (h.hashed.queued i hi b hbi).2.symm
    · intro he
      rw [he, hhash]
      exact hbj
  keys := fun b hb b' hb' hdev hblk => by
    obtain ⟨j, hj, hbj⟩ := (h.assigned b).mp hb
    obtain ⟨j', hj', hbj'⟩ := (h.assigned b').mp hb'
    have hhash := (h.hashed.queued j hj b hbj).2
    have hhash' := (h.hashed.queued j' hj' b' hbj').2
    rw [hblk, hhash'] at hhash
    subst hhash
    exact h.keys j' hj' b hbj b' hbj' hdev hblk
  ends := fun device blk => by
    rw [h.hashed.lookup]
    rfl

/-- **The hash queues stay sound** in every run of `getblk` and `brelease` in which `getblk` takes no
    header that is alone on its queue. -/
theorem hash_queues_sound (blank : β) (disk : Nat → β) (s : Tracked β)
    (h : Reaches hashStep HashOpOk ⟨initializeBufferCache blank disk, ∅⟩ s) :
    ∃ q, QueuesSound s q := by
  have hinv : ∃ q, QueuesInv s q := by
    refine h.invariant (fun s => ∃ q, QueuesInv s q) ⟨_, initialize_queuesInv blank disk⟩ ?_
    rintro s t op ⟨q, hq⟩ hok hstep
    cases op with
    | getblk device blk =>
      obtain ⟨⟨b, c'⟩, hrun, rfl⟩ := Option.map_eq_some_iff.mp hstep
      exact hq.getblk hok hrun
    | brelease b =>
      rw [hashStep] at hstep
      obtain ⟨⟨u, c'⟩, hrun, rfl⟩ := Option.map_eq_some_iff.mp hstep
      exact ⟨q, hq.brelease hok hrun⟩
  obtain ⟨q, hq⟩ := hinv
  exact ⟨q, hq.sound⟩

instance (s : Tracked β) : ∀ op, Decidable (HashOpOk s op)
  | .getblk device blk => inferInstanceAs (Decidable (lookupBlock s.cache device blk = some none →
      ∀ b ∈ s.cache.freeHead,
        ¬ (s.cache.hashQueue ((s.cache.buffers b).blockno % buffHashNumber) = some b ∧
          (s.cache.buffers b).hashNext = none)))
  | .brelease b => inferInstanceAs (Decidable (b < maxBuffers))

/-- A cache in zeroed memory, with blocks of no content. -/
def emptyTracked : Tracked Unit := ⟨initializeBufferCache () fun _ => (), ∅⟩

/-- Blocks 0 and 7 of one device and block 0 of another: all on queue 0. -/
theorem hash_queues_sound_shared : ∃ s, Reaches hashStep HashOpOk emptyTracked s ∧
    s.assigned = {0, 1, 2} ∧ ∃ q, QueuesSound s q := by
  obtain ⟨s, hrun, hobs⟩ : ∃ s ∈ runOps hashStep HashOpOk emptyTracked
      [.getblk 0 0, .getblk 0 7, .getblk 1 0, .brelease 1, .getblk 0 7],
        s.assigned = {0, 1, 2} := by decide +kernel
  have hreach := reaches_of_runOps hrun
  exact ⟨s, hreach, hobs, hash_queues_sound () (fun _ => ()) s hreach⟩

/-- Block 0 is got and released, and block 1 is got: the header is on queue 1, and still on queue 0,
    where it has no business to be. -/
theorem sole_header_on_two_queues : ∃ s, runOps hashStep (fun _ _ => True) emptyTracked
      [.getblk 0 0, .brelease 0, .getblk 0 1] = some s ∧
    s.assigned = {0} ∧ (s.cache.buffers 0).blockno = 1 ∧
      s.cache.hashQueue 0 = some 0 ∧ s.cache.hashQueue 1 = some 0 ∧ ¬ ∃ q, QueuesSound s q := by
  obtain ⟨s, hrun, hassigned, hblk, h0, h1⟩ : ∃ s ∈ runOps hashStep (fun _ _ => True) emptyTracked
      [.getblk 0 0, .brelease 0, .getblk 0 1], s.assigned = {0} ∧ (s.cache.buffers 0).blockno = 1 ∧
        s.cache.hashQueue 0 = some 0 ∧ s.cache.hashQueue 1 = some 0 := by decide +kernel
  refine ⟨s, hrun, hassigned, hblk, h0, h1, ?_⟩
  rintro ⟨q, hq⟩
  have hmem : (0 : Nat) ∈ q 0 := by
    have := (hq.lists 0 (by decide)).1.head_eq
    rw [h0] at this
    exact List.mem_of_head? this.symm
  have := (hq.one 0 (by simp [hassigned]) 0 (by decide)).mp hmem
  rw [hblk] at this
  exact absurd this (by decide)

end AtomOs
