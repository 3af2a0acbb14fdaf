import AtomOs.Lib.Run
import AtomOs.Buf.CacheInv

/-!
# Transparency of the buffer cache

Beside the cache runs a plain array of blocks, which takes every write at once. **`cache_transparent`**
says that the cache is that array: in every run from the empty cache in which each operation meets
`CacheOpOk`, every allowed operation returns, a read that reports success gives the array's block, and
a flush leaves the array on the disk.

`CacheOpOk` keeps out what the cache does not survive: recycling a header with delayed data, or one
that is alone on its hash queue; waiting for a buffer the thread holds itself; and reading a block
whose header has an old error in `io_status`.
-/

namespace AtomOs

open Lib Prog

variable {β : Type}

/-! ## The conditions -/

/-- `getblk` comes back with the cache intact: the block is there and not held, or the oldest free
    header has no delayed data and is not alone on its queue. -/
def GetOk (c : Cache β) (blk : Nat) : Prop :=
  match lookupBlock c floppy blk, c.freeHead with
  | some (some b), _ => (c.buffers b).busy = false
  | some none, some b => (c.buffers b).delay = false ∧
      ¬ (c.hashQueue ((c.buffers b).blockno % buffHashNumber) = some b ∧
        (c.buffers b).hashNext = none)
  | _, _ => False

instance (c : Cache β) (blk : Nat) : Decidable (GetOk c blk) := by
  unfold GetOk
  split <;> infer_instance

/-- The block's data is in the cache. -/
def cachedValid (c : Cache β) (blk : Nat) : Bool :=
  match lookupBlock c floppy blk with
  | some (some b) => (c.buffers b).valid
  | _ => false

/-- No error is on record for data that is in the cache. -/
def StatusOk (c : Cache β) (blk : Nat) : Prop :=
  match lookupBlock c floppy blk with
  | some (some b) => (c.buffers b).valid = true → (c.buffers b).ioStatus = 0
  | _ => True

instance (c : Cache β) (blk : Nat) : Decidable (StatusOk c blk) := by
  unfold StatusOk
  split <;> infer_instance

def Outcome.isDone : Outcome β → Bool
  | .done => true
  | .failed _ _ => false

/-- What an operation needs of the state it is started in. -/
def CacheOpOk (c : Cache β) : CacheOp β → Prop
  | .bread blk _ => GetOk c blk ∧ StatusOk c blk
  | .brelease b => b < maxBuffers ∧ (c.buffers b).busy = true ∧
      ((c.buffers b).valid = true ∨ c.freeHead ≠ none)
  | .change b _ => b < maxBuffers ∧ (c.buffers b).busy = true ∧ (c.buffers b).valid = true
  | .readBlock blk outcome => GetOk c blk ∧ StatusOk c blk ∧
      (outcome.isDone = true ∨ cachedValid c blk = true ∨ c.freeHead ≠ c.freeTail)
  | .writeBlock blk _ => GetOk c blk
  | .flush => ∀ b < maxBuffers, (c.buffers b).delay = true → (c.buffers b).busy = false

instance (c : Cache β) (op : CacheOp β) : Decidable (CacheOpOk c op) := by
  cases op <;> unfold CacheOpOk <;> infer_instance

/-! ## The operations -/

variable {blk b : Nat}

section operations

variable {c : Cache β} {blocks : Nat → β} {q : Nat → List Nat} {free : List Nat}

/-- What `getblk` has done: the header `b` is held for block `blk`, and the data is there if it was
    in the cache. -/
structure Got (c c' : Cache β) (b blk : Nat) : Prop where
  lt : b < maxBuffers
  blockno : (c'.buffers b).blockno = blk
  busy : (c'.buffers b).busy = true
  others : ∀ i, i ≠ b → SameContent (c.buffers i) (c'.buffers i)
  found : lookupBlock c floppy blk = some (some b) ∧ SameBuffer (c.buffers b) (c'.buffers b) ∨
    lookupBlock c floppy blk = some none ∧ (c'.buffers b).valid = false ∧
      (c'.buffers b).delay = false

theorem CacheInv.getblk_spec (h : CacheInv c blocks q free) (hok : GetOk c blk) :
    ∃ b c' q', getblk floppy blk c = some (b, c') ∧ CacheInv c' blocks q' (free.erase b) ∧
      b ∈ free ∧ Got c c' b blk := by
  have hhash := hash_lt blk
  unfold GetOk at hok
  rcases h.lookup blk with ⟨b, hfind, hmem, hblk⟩ | ⟨hfind, hmiss⟩
  · rw [hfind] at hok
    have hbusy : (c.buffers b).busy = false := hok
    have hlt := (h.queued _ hhash b hmem).1
    have hfree : b ∈ free := (h.free_iff b).mpr ⟨hlt, hbusy⟩
    have hsame := hold_same h.freeBuffers hfree b
    refine ⟨b, c.hold b, q, ?_, h.hold hhash hmem hbusy, hfree, hlt, hsame.blockno.trans hblk, ?_,
      fun i hi => ?_, .inl ⟨hfind, hsame⟩⟩
    · unfold getblk getblkFrom
      rw [get_bind, hfind]
      simp only [hbusy]
      rfl
    · rw [hold_busy h.freeBuffers hfree, if_pos rfl]
    · obtain ⟨hblk', hdev, -, -, hvalid, hdelay, hio, hbuff⟩ := hold_same h.freeBuffers hfree i
      refine ⟨hblk', hdev, ?_, hvalid, hdelay, hio, hbuff⟩
      rw [hold_busy h.freeBuffers hfree, if_neg hi]
  · rw [hfind] at hok
    cases hhead : c.freeHead with
    | none =>
      rw [hhead] at hok
      exact hok.elim
    | some b =>
      rw [hhead] at hok
      obtain ⟨hdelay, hsole⟩ := hok
      have hfree : b ∈ free := List.mem_of_head? (h.freeBuffers.links.head_eq.symm.trans hhead)
      have hframe := (deleteFromFreelist_spec h.freeBuffers hfree).2
      have hrec := (h.recycle_spec hfree blk hsole).2.2.1
      refine ⟨b, c.recycle b blk, _, ?_, h.recycle hfree hdelay hsole hmiss, hfree,
        ((h.free_iff b).mp hfree).1, hrec.blockno, hrec.busy, hrec.others,
        .inr ⟨hfind, hrec.valid, hrec.delay.trans hdelay⟩⟩
      unfold getblk getblkFrom
      rw [get_bind, hfind]
      simp only [hhead]
      rw [(hframe.same b).delay, hdelay]
      rfl

/-- What `bread` has done: the header is held, and it holds the block unless the request has
    failed. -/
structure Fetched (c c' : Cache β) (blocks : Nat → β) (outcome : Outcome β) (b blk : Nat) :
    Prop where
  lt : b < maxBuffers
  blockno : (c'.buffers b).blockno = blk
  busy : (c'.buffers b).busy = true
  status : (c'.buffers b).valid = true ∧ (c'.buffers b).ioStatus = 0 ∧
      (c'.buffers b).buff = blocks blk ∨
    (c'.buffers b).valid = false ∧ (c'.buffers b).ioStatus ≠ 0 ∧ outcome.isDone = false ∧
      cachedValid c blk = false

theorem FdcStatus.code_ne (status : FdcStatus) : status.code ≠ 0 := by cases status <;> decide

theorem Got.cachedValid {c' : Cache β} (h : Got c c' b blk) :
    cachedValid c blk = (c'.buffers b).valid := by
  unfold AtomOs.cachedValid
  rcases h.found with ⟨hfind, hsame⟩ | ⟨hfind, hvalid, -⟩
  · rw [hfind]
    exact hsame.valid.symm
  · rw [hfind]
    exact hvalid.symm

theorem CacheInv.bread_spec (h : CacheInv c blocks q free) (hok : GetOk c blk)
    (hstatus : StatusOk c blk) (outcome : Outcome β) :
    ∃ b c' q', bread floppy blk outcome c = some (b, c') ∧ CacheInv c' blocks q' (free.erase b) ∧
      b ∈ free ∧ Fetched c c' blocks outcome b blk := by
  obtain ⟨b, c1, q', hget, hinv, hfree, hgot⟩ := h.getblk_spec hok
  have hcached := hgot.cachedValid
  unfold bread
  rw [bind_of_some hget, get_bind]
  cases hvalid : (c1.buffers b).valid with
  | true =>
    refine ⟨b, c1, q', rfl, hinv, hfree, hgot.lt, hgot.blockno, hgot.busy, .inl ⟨hvalid, ?_, ?_⟩⟩
    · rcases hgot.found with ⟨hfind, hsame⟩ | ⟨-, hinvalid, -⟩
      · unfold StatusOk at hstatus
        rw [hfind] at hstatus
        rw [hsame.ioStatus]
        exact hstatus (hsame.valid.symm.trans hvalid)
      · exact absurd hvalid (by simp [hinvalid])
    · rw [hinv.content b hgot.lt hvalid, hgot.blockno]
  | false =>
    rw [hvalid] at hcached
    have hdelay := hinv.delay_of_invalid hgot.lt hvalid
    have hdisk := hinv.disk_eq hgot.lt (.inl hgot.busy) hdelay
    rw [hgot.blockno] at hdisk
    cases outcome with
    | done =>
      refine ⟨b, c1.upd (some b) fun x => { x with buff := c1.disk blk, valid := true, ioStatus := 0 },
        q', rfl, ?_, hfree, hgot.lt, ?_, ?_, .inl ⟨?_, ?_, ?_⟩⟩
      · refine hinv.setData
          (f := fun x => { x with buff := c1.disk blk, valid := true, ioStatus := 0 }) hgot.lt hgot.busy
          ⟨rfl, rfl, rfl, rfl, rfl, rfl, rfl⟩ (fun _ => rfl) (fun _ => ?_) (fun _ _ => ⟨rfl, rfl⟩)
          fun _ => ?_
        · rw [hgot.blockno]
          exact hdisk
        · rw [hgot.blockno]
          exact hdisk
      all_goals rw [upd_some_same]
      · exact hgot.blockno
      · exact hgot.busy
      · exact hdisk
    | failed status junk =>
      refine ⟨b, c1.upd (some b) fun x => { x with buff := junk, ioStatus := status.code }, q', rfl,
        ?_, hfree, hgot.lt, ?_, ?_, .inr ⟨?_, ?_, rfl, hcached⟩⟩
      · refine hinv.setData (f := fun x => { x with buff := junk, ioStatus := status.code }) hgot.lt
          hgot.busy ⟨rfl, rfl, rfl, rfl, rfl, rfl, rfl⟩
          (fun hd => absurd hd (by simp [hdelay])) (fun hv => absurd hv (by simp [hvalid]))
          (fun _ _ => ⟨rfl, rfl⟩) fun _ => ?_
        rw [hgot.blockno]
        exact hdisk
      all_goals rw [upd_some_same]
      · exact hgot.blockno
      · exact hgot.busy
      · exact hvalid
      · exact status.code_ne

theorem FreeBuffers.erase_ne_nil (hf : FreeBuffers c free) (hb : b ∈ free)
    (hne : c.freeHead ≠ c.freeTail) : free.erase b ≠ [] := by
  intro hnil
  have hlen := List.length_erase_of_mem hb
  rw [hnil] at hlen
  cases free with
  | nil => exact absurd hb List.not_mem_nil
  | cons x l =>
    have hl : l = [] := List.eq_nil_of_length_eq_zero hlen.symm
    rw [hf.links.head_eq, hf.tail, hl] at hne
    exact hne rfl

theorem CacheInv.readBlock_spec (h : CacheInv c blocks q free) {outcome : Outcome β}
    (hok : CacheOpOk c (.readBlock blk outcome)) :
    ∃ d c' q' free', readBlock floppy blk outcome c = some (d, c') ∧ CacheInv c' blocks q' free' ∧
      (∀ v, d = some v → v = blocks blk) ∧
      (outcome.isDone = true ∨ cachedValid c blk = true → d ≠ none) := by
  obtain ⟨hget, hstatus, hroom⟩ := hok
  obtain ⟨b, c1, q', hread, hinv, hfree, hf⟩ := h.bread_spec hget hstatus outcome
  have hrel : (c1.buffers b).valid = true ∨ free.erase b ≠ [] := by
    rcases hf.status with ⟨hvalid, -⟩ | ⟨-, -, hdone, hcached⟩
    · exact .inl hvalid
    · rcases hroom with hc | hc | hne
      · exact absurd hc (by simp [hdone])
      · exact absurd hc (by simp [hcached])
      · exact .inr (h.freeBuffers.erase_ne_nil hfree hne)
  obtain ⟨c', free', hrelease, hinv', -⟩ := hinv.release hf.lt hf.busy hrel
  refine ⟨if (c1.buffers b).ioStatus ≠ 0 then none else some (c1.buffers b).buff, c', q', free', ?_,
    hinv', ?_, ?_⟩
  · unfold readBlock
    rw [bind_of_some hread, get_bind, bind_of_some hrelease]
    rfl
  · intro v hv
    rcases hf.status with ⟨-, hzero, hbuff⟩ | ⟨-, herr, -⟩
    · rw [if_neg (by simp [hzero])] at hv
      exact (Option.some.inj hv).symm.trans hbuff
    · rw [if_pos herr] at hv
      exact absurd hv (by simp)
  · intro hsome
    rcases hf.status with ⟨-, hzero, -⟩ | ⟨-, -, hdone, hcached⟩
    · rw [if_neg (by simp [hzero])]
      simp
    · simp [hdone, hcached] at hsome

def writeTo (blocks : Nat → β) (blk : Nat) (data : β) : Nat → β :=
  fun k => if k = blk then data else blocks k

section

variable (h : CacheInv c blocks q free)
include h

theorem CacheInv.write {f : Buffer β → Buffer β}
    (hb : b < maxBuffers) (hbusy : (c.buffers b).busy = true) (hblk : (c.buffers b).blockno = blk)
    (hf : DataOnly (c.buffers b) (f (c.buffers b))) (hdelay : (f (c.buffers b)).delay = true)
    (hvalid : (f (c.buffers b)).valid = true) :
    CacheInv (c.upd (some b) f) (writeTo blocks blk (f (c.buffers b)).buff) q free := by
  subst hblk
  exact h.setData hb hbusy hf (fun _ => hvalid) (fun _ => (if_pos rfl).symm)
    (fun _ hk => ⟨if_neg hk, rfl⟩) fun hd => absurd hd (by simp [hdelay])

theorem CacheInv.writeBlock_spec (hok : GetOk c blk) (data : β) :
    ∃ c' q' free', writeBlock floppy blk data c = some ((), c') ∧
      CacheInv c' (writeTo blocks blk data) q' free' := by
  obtain ⟨b, c1, q', hget, hinv, -, hgot⟩ := h.getblk_spec hok
  have hw := hinv.write (f := fun x => { x with buff := data, delay := true, valid := true }) hgot.lt
    hgot.busy hgot.blockno ⟨rfl, rfl, rfl, rfl, rfl, rfl, rfl⟩ rfl rfl
  obtain ⟨c', free', hrelease, hinv', -⟩ := hw.release hgot.lt
    (by rw [upd_some_same]; exact hgot.busy) (.inl (by rw [upd_some_same]))
  refine ⟨c', q', free', ?_, hinv'⟩
  unfold writeBlock
  rw [bind_of_some hget]
  exact hrelease

/-! ## Flushing -/

/-- A header with delayed data that nobody holds is the one `getblk` finds for its block. -/
theorem CacheInv.lookup_self (hb : b < maxBuffers) (hvalid : (c.buffers b).valid = true) :
    lookupBlock c floppy (c.buffers b).blockno = some (some b) := by
  have hmem := h.exists_queue hb (.inr hvalid)
  rcases h.lookup (c.buffers b).blockno with ⟨b', hfind, hmem', hblk⟩ | ⟨-, hmiss⟩
  · rw [hfind, h.keys _ (hash_lt _) b' hmem' b hmem hblk]
  · exact absurd rfl (hmiss _ (hash_lt _) b hmem)

/-- **Writing one header back.** -/
theorem CacheInv.flushHeader_spec (hb : b < maxBuffers)
    (hdelay : (c.buffers b).delay = true) (hbusy : (c.buffers b).busy = false) :
    ∃ c' q' free', flushHeader b c = some ((), c') ∧ CacheInv c' blocks q' free' ∧
      (∀ i, (c'.buffers i).busy = (c.buffers i).busy) ∧ (c'.buffers b).delay = false ∧
      ∀ i, i ≠ b → (c'.buffers i).delay = (c.buffers i).delay := by
  have hvalid := h.delayed b hb hdelay
  have hself := h.lookup_self hb hvalid
  have hok : GetOk c (c.buffers b).blockno := by
    unfold GetOk
    rw [hself]
    exact hbusy
  obtain ⟨b', c1, q', hget, hinv, -, hgot⟩ := h.getblk_spec hok
  -- The header found is `b`, as it was, but held.
  obtain ⟨rfl, hsame⟩ : b' = b ∧ SameBuffer (c.buffers b) (c1.buffers b) := by
    rcases hgot.found with ⟨hfind, hsame⟩ | ⟨hfind, -⟩
    · rw [hself] at hfind
      obtain rfl : b = b' := by simpa using hfind
      exact ⟨rfl, hsame⟩
    · exact absurd (hself.symm.trans hfind) (by simp)
  have hvalid1 : (c1.buffers b').valid = true := hsame.valid.trans hvalid
  have hcontent := hinv.content b' hb hvalid1
  let disk' := writeTo c1.disk (c1.buffers b').blockno (c1.buffers b').buff
  obtain ⟨c2, hc2⟩ : ∃ c2, c2 = ({ c1 with disk := disk' } : Cache β).upd (some b') fun x =>
      { x with delay := false } := ⟨_, rfl⟩
  have hb2 : c2.buffers b' = { c1.buffers b' with delay := false } := by
    rw [hc2]
    exact upd_some_same _ _ _
  have hothers2 : ∀ i, i ≠ b' → c2.buffers i = c1.buffers i := fun i hi => by
    rw [hc2]
    exact upd_some_ne hi
  have hinv2 : CacheInv c2 blocks q' (free.erase b') := by
    rw [hc2]
    exact hinv.setData (f := fun x => { x with delay := false }) hb hgot.busy
      ⟨rfl, rfl, rfl, rfl, rfl, rfl, rfl⟩
      (fun hd => absurd hd (by simp)) (fun _ => hcontent) (fun k hk => ⟨rfl, if_neg hk⟩)
      fun _ => (if_pos rfl).trans hcontent
  obtain ⟨c', free', hrelease, hinv', hsame', hbusy', -⟩ := hinv2.release hb
    (by rw [hb2]; exact hgot.busy) (.inl (by rw [hb2]; exact hvalid1))
  refine ⟨c', q', free', ?_, hinv', fun i => ?_, ?_, fun i hi => ?_⟩
  · unfold flushHeader
    rw [get_bind,
      (h.queued _ (hash_lt _) b' (h.exists_queue hb (.inr hvalid))).2.2, bind_of_some hget]
    rw [hc2] at hrelease
    exact hrelease
  · rw [hbusy']
    split
    · rename_i hi
      rw [hi, hbusy]
    · rename_i hi
      rw [hothers2 i hi, (hgot.others i hi).busy]
  · rw [(hsame' b').delay, hb2]
  · rw [(hsame' i).delay, hothers2 i hi, (hgot.others i hi).delay]

end

theorem CacheInv.flushHeaders_spec : ∀ (n i : Nat) {c : Cache β} {q : Nat → List Nat}
    {free : List Nat}, CacheInv c blocks q free → i + n ≤ maxBuffers →
    (∀ b < maxBuffers, (c.buffers b).delay = true → (c.buffers b).busy = false) →
    ∃ c' q' free', flushHeaders n i c = some ((), c') ∧ CacheInv c' blocks q' free' ∧
      (∀ b, i ≤ b → b < i + n → (c'.buffers b).delay = false) ∧
      ∀ b, (c.buffers b).delay = false → (c'.buffers b).delay = false
  | 0, i, c, q, free, h, _, _ =>
    ⟨c, q, free, rfl, h, fun b hib hbi => absurd hbi (by omega), fun _ hd => hd⟩
  | n + 1, i, c, q, free, h, hi, hfree => by
    have hlt : i < maxBuffers := by omega
    rw [flushHeaders, get_bind]
    by_cases hd : (c.buffers i).delay = true
    · obtain ⟨c1, q1, free1, hrun, hinv, hbusy, hclean, hothers⟩ :=
        h.flushHeader_spec hlt hd (hfree i hlt hd)
      have hkeep : ∀ b, (c.buffers b).delay = false → (c1.buffers b).delay = false := by
        intro b hb
        by_cases hbi : b = i
        · rw [hbi]
          exact hclean
        · rw [hothers b hbi]
          exact hb
      have hfree1 : ∀ b < maxBuffers, (c1.buffers b).delay = true → (c1.buffers b).busy = false := by
        intro b hb hd
        rw [hbusy]
        refine hfree b hb (Bool.of_not_eq_false fun hc => ?_)
        exact absurd hd (by simp [hkeep b hc])
      obtain ⟨c', q', free', hrest, hinv', hrange, hkeep'⟩ :=
        CacheInv.flushHeaders_spec n (i + 1) hinv (by omega) hfree1
      refine ⟨c', q', free', ?_, hinv', fun b hib hbi => ?_, fun b hb => hkeep' b (hkeep b hb)⟩
      · rw [if_pos hd, bind_of_some hrun]
        exact hrest
      · rcases Nat.eq_or_lt_of_le hib with rfl | hib
        · exact hkeep' i hclean
        · exact hrange b hib (by omega)
    · obtain ⟨c', q', free', hrest, hinv', hrange, hkeep'⟩ :=
        CacheInv.flushHeaders_spec n (i + 1) h (by omega) hfree
      refine ⟨c', q', free', ?_, hinv', fun b hib hbi => ?_, hkeep'⟩
      · rw [if_neg hd]
        exact hrest
      · rcases Nat.eq_or_lt_of_le hib with rfl | hib
        · exact hkeep' i (Bool.eq_false_iff.mpr hd)
        · exact hrange b hib (by omega)

theorem CacheInv.flush_spec (h : CacheInv c blocks q free)
    (hok : ∀ b < maxBuffers, (c.buffers b).delay = true → (c.buffers b).busy = false) :
    ∃ c' q' free', flushBuffers c = some ((), c') ∧ CacheInv c' blocks q' free' ∧
      c'.disk = blocks := by
  have hcleared : CacheInv { c with writeHead := none, writeTail := none } blocks q free :=
    ⟨⟨h.freeBuffers.links, h.freeBuffers.nodup, h.freeBuffers.tail⟩,
      fun i hi => ⟨(h.queues i hi).links, (h.queues i hi).nodup⟩, h.queued, h.keys, h.loose,
      h.free_iff, rfl, h.delayed, h.content, h.clean⟩
  obtain ⟨c', q', free', hrun, hinv, hrange, -⟩ := hcleared.flushHeaders_spec maxBuffers 0
    (Nat.zero_add _).le hok
  refine ⟨c', q', free', ?_, hinv, funext fun k => ?_⟩
  · unfold flushBuffers
    rw [get_bind, h.noWrites]
    exact hrun
  · refine hinv.clean k fun i hi hd => ?_
    rw [hrange i (Nat.zero_le i) (by simpa using hi)] at hd
    exact absurd hd (by simp)

end operations

/-! ## Runs -/

/-- The blocks after an operation, in an array that takes every write at once. -/
def written (c : Cache β) (blocks : Nat → β) : CacheOp β → (Nat → β)
  | .change b f => writeTo blocks (c.buffers b).blockno (f (c.buffers b).buff)
  | .writeBlock blk data => writeTo blocks blk data
  | _ => blocks

/-- The cache and the array beside it. -/
def cacheStep (s : Cache β × (Nat → β)) (op : CacheOp β) : Option (Cache β × (Nat → β)) :=
  (op.run s.1).map fun r => (r.2, written s.1 s.2 op)

/-- What an operation has to give back, and to leave behind, if the cache is to be the array
    `blocks`. -/
def Answers (c c' : Cache β) (blocks : Nat → β) : CacheOp β → CacheResult β → Prop
  | .bread blk outcome, .buffer b => b < maxBuffers ∧ (c'.buffers b).busy = true ∧
      (c'.buffers b).blockno = blk ∧
      ((c'.buffers b).ioStatus = 0 → (c'.buffers b).buff = blocks blk) ∧
      (outcome.isDone = true ∨ cachedValid c blk = true → (c'.buffers b).ioStatus = 0)
  | .readBlock blk outcome, .data d => (∀ v, d = some v → v = blocks blk) ∧
      (outcome.isDone = true ∨ cachedValid c blk = true → d ≠ none)
  | .flush, .unit => c'.disk = blocks
  | .brelease _, .unit => True
  | .change _ _, .unit => True
  | .writeBlock _ _, .unit => True
  | _, _ => False

/-- **One operation**: it returns, answers as the array does, and leaves the cache standing for the
    array. -/
theorem CacheInv.op {c : Cache β} {blocks : Nat → β} {q : Nat → List Nat} {free : List Nat}
    (h : CacheInv c blocks q free) {op : CacheOp β} (hok : CacheOpOk c op) :
    ∃ r c' q' free', op.run c = some (r, c') ∧ Answers c c' blocks op r ∧
      CacheInv c' (written c blocks op) q' free' := by
  cases op with
  | bread blk outcome =>
    obtain ⟨b, c', q', hrun, hinv, -, hf⟩ := h.bread_spec hok.1 hok.2 outcome
    refine ⟨.buffer b, c', q', _, ?_, ⟨hf.lt, hf.busy, hf.blockno, fun hzero => ?_, fun hsome => ?_⟩,
      hinv⟩
    · exact (bind_of_some hrun).trans rfl
    · rcases hf.status with ⟨-, -, hbuff⟩ | ⟨-, herr, -⟩
      · exact hbuff
      · exact absurd hzero herr
    · rcases hf.status with ⟨-, hzero, -⟩ | ⟨-, -, hdone, hcached⟩
      · exact hzero
      · simp [hdone, hcached] at hsome
  | brelease b =>
    obtain ⟨hb, hbusy, hfree⟩ := hok
    have hroom : (c.buffers b).valid = true ∨ free ≠ [] := by
      refine hfree.imp id fun hhead hnil => hhead ?_
      rw [h.freeBuffers.links.head_eq, hnil]
      rfl
    obtain ⟨c', free', hrun, hinv, -⟩ := h.release hb hbusy hroom
    exact ⟨.unit, c', q, free', (bind_of_some hrun).trans rfl, trivial, hinv⟩
  | change b f =>
    obtain ⟨hb, hbusy, hvalid⟩ := hok
    exact ⟨.unit, _, q, free, rfl, trivial,
      h.write (f := fun x => { x with buff := f x.buff, delay := true }) hb hbusy rfl
        ⟨rfl, rfl, rfl, rfl, rfl, rfl, rfl⟩ rfl hvalid⟩
  | readBlock blk outcome =>
    obtain ⟨d, c', q', free', hrun, hinv, hdata, hsome⟩ := h.readBlock_spec hok
    exact ⟨.data d, c', q', free', (bind_of_some hrun).trans rfl, ⟨hdata, hsome⟩, hinv⟩
  | writeBlock blk data =>
    obtain ⟨c', q', free', hrun, hinv⟩ := h.writeBlock_spec hok data
    exact ⟨.unit, c', q', free', (bind_of_some hrun).trans rfl, trivial, hinv⟩
  | flush =>
    obtain ⟨c', q', free', hrun, hinv, hdisk⟩ := h.flush_spec hok
    exact ⟨.unit, c', q', free', (bind_of_some hrun).trans rfl, hdisk, hinv⟩

theorem CacheInv.initial (blank : β) (disk : Nat → β) :
    CacheInv (initializeBufferCache blank disk) disk (fun _ => []) (List.range maxBuffers) := by
  refine ⟨.initial blank disk, fun _ _ => ⟨rfl, List.nodup_nil⟩, ?_, ?_,
    fun _ _ _ => ⟨rfl, rfl, rfl, rfl⟩, fun i => ?_, rfl, ?_, ?_, fun _ _ => rfl⟩
  · exact fun _ _ i hi => absurd hi List.not_mem_nil
  · exact fun _ _ i hi => absurd hi List.not_mem_nil
  · rw [List.mem_range]
    exact (and_iff_left rfl).symm
  · exact fun i _ hd => absurd hd (by simp [initializeBufferCache])
  · exact fun i _ hv => absurd hv (by simp [initializeBufferCache])

theorem cacheInv_of_reaches {blank : β} {disk : Nat → β} {s : Cache β × (Nat → β)}
    (h : Reaches cacheStep (fun s op => CacheOpOk s.1 op) (initializeBufferCache blank disk, disk) s) :
    ∃ q free, CacheInv s.1 s.2 q free := by
  refine h.invariant (fun s => ∃ q free, CacheInv s.1 s.2 q free) ⟨_, _, CacheInv.initial blank disk⟩
    fun hinv hok hstep => ?_
  obtain ⟨q, free, hinv⟩ := hinv
  obtain ⟨r, c', q', free', hrun, -, hinv'⟩ := hinv.op hok
  rw [cacheStep, hrun] at hstep
  cases hstep
  exact ⟨q', free', hinv'⟩

/-- **Transparency.** In every run from the empty cache whose operations meet `CacheOpOk`, the next
    allowed operation returns, and answers as a plain array of blocks does. -/
theorem cache_transparent {blank : β} {disk blocks : Nat → β} {c : Cache β}
    (h : Reaches cacheStep (fun s op => CacheOpOk s.1 op) (initializeBufferCache blank disk, disk)
      (c, blocks)) {op : CacheOp β} (hok : CacheOpOk c op) :
    ∃ r c', op.run c = some (r, c') ∧ Answers c c' blocks op r := by
  obtain ⟨q, free, hinv⟩ := cacheInv_of_reaches h
  obtain ⟨r, c', _, _, hrun, hans, -⟩ := hinv.op hok
  exact ⟨r, c', hrun, hans⟩

/-- A block is read, written and flushed; then a read of it is answered though the disk would
    fail. -/
theorem cache_transparent_reread : ∃ (c : Cache Nat) (blocks : Nat → Nat),
    Reaches cacheStep (fun s op => CacheOpOk s.1 op) (initializeBufferCache 0 id, id) (c, blocks) ∧
    CacheOpOk c (.readBlock 5 (.failed .timeout 0)) ∧
    ∃ r c', (CacheOp.readBlock 5 (.failed .timeout 0)).run c = some (r, c') ∧
      Answers c c' blocks (.readBlock 5 (.failed .timeout 0)) r := by
  obtain ⟨⟨c, blocks⟩, hs, hok⟩ : ∃ s ∈ runOps cacheStep (fun s op => CacheOpOk s.1 op)
      (initializeBufferCache 0 id, (id : Nat → Nat)) [.readBlock 5 .done, .writeBlock 5 77, .flush],
        CacheOpOk s.1 (.readBlock 5 (.failed .timeout 0)) := by decide +kernel
  have hreach := reaches_of_runOps hs
  exact ⟨c, blocks, hreach, hok, cache_transparent hreach hok⟩

/-- The header of a block keeps the error of a failed read when the block is written, so the next
    read of it, which no request fails and no disk is asked for, reports that error. -/
theorem rewritten_block_unreadable : ∃ (c : Cache Nat) (blocks : Nat → Nat) (c' : Cache Nat),
    Reaches cacheStep (fun _ _ => True) (initializeBufferCache 0 id, id) (c, blocks) ∧
    (CacheOp.readBlock 5 .done).run c = some (.data none, c') ∧
    ¬ Answers c c' blocks (.readBlock 5 .done) (.data none) := by
  obtain ⟨⟨c, blocks⟩, hs, ⟨_, c'⟩, hread, rfl⟩ : ∃ s ∈ runOps cacheStep (fun _ _ => True)
      (initializeBufferCache 0 id, (id : Nat → Nat))
      [.readBlock 5 (.failed .error 9), .writeBlock 5 77],
        ∃ r ∈ (CacheOp.readBlock 5 .done).run s.1, r.1 = .data none := by decide +kernel
  exact ⟨c, blocks, c', reaches_of_runOps hs, hread, fun hans => hans.2 (.inl rfl) rfl⟩

end AtomOs
