import AtomOs.Sync.Inherit

/-!
# Mutual exclusion, and no lost wakeup

A run is watched from outside: `History` counts, for each lock and each thread, how often the thread
came back from `_lock`, `trylock` or `rlock` with the lock and has not given it back since. It also
keeps on which event a thread was put to sleep and not woken since, and which lock its `event_sleep`
was called with. Nothing in the kernel reads it.

**`mutual_exclusion`**: in every run in which no owner of a recursive lock takes it for the 65536th
time, one thread at most has a lock, which is its owner, `rl_level` is how often it has it, only locks
that are held have threads waiting, every `event_wakeup` makes all threads ready that were put to
sleep on the event before, and who comes back from `event_sleep` has the lock again.

`rl_level` is an `unsigned short`. After 65537 calls of `rlock` a single `runlock` gives the lock away
(`rlock_wraps`).
-/

namespace AtomOs

open Lib Threads Kernel Function Option

/-! ## What the threads have done -/

/-- How often a lock is held by a thread; the event that a thread sleeps on; and the lock that it has
    to take again before it returns from `event_sleep`. -/
structure History where
  depth : Addr → Addr → Nat
  event : Addr → Option Addr
  lck : Addr → Option Addr

namespace History

def start : History := ⟨fun _ _ => 0, fun _ => none, fun _ => none⟩

/-- Thread `t` has lock `l` `n` times. -/
def setDepth (h : History) (l t : Addr) (n : Nat) : History :=
  { h with depth := Function.update h.depth l (Function.update (h.depth l) t n) }

/-- Thread `t` comes back with lock `l`. -/
def enter (h : History) (l t : Addr) : History := h.setDepth l t (h.depth l t + 1)

/-- Thread `t` gives lock `l` back. -/
def leave (h : History) (l t : Addr) : History := h.setDepth l t (h.depth l t - 1)

theorem setDepth_depth (h : History) (l t l' t' : Addr) (n : Nat) :
    (h.setDepth l t n).depth l' t' = if l' = l ∧ t' = t then n else h.depth l' t' := by
  show update h.depth l (update (h.depth l) t n) l' t' = _
  by_cases hl : l' = l
  · subst hl
    rw [update_self, update_apply]
    simp
  · rw [update_of_ne hl, if_neg (fun hno => hl hno.1)]

end History

namespace System

/-- What a step adds to the history. -/
def note (s s' : System) (h : History) : Op → History
  | .lock l | .rlock l => if s'.pc s.current = .out then h.enter l s.current else h
  | .trylock l => if (s.kernel.trylock l).1 then h.enter l s.current else h
  | .unlock l | .unlockCut l | .runlock l => h.leave l s.current
  | .eventSleep e lck =>
    if s'.pc s.current = .out then h
    else
      { depth := (lck.elim h fun l => h.leave l s.current).depth
        event := Function.update h.event s.current (some e)
        lck := Function.update h.lck s.current lck }
  | .eventWakeup e => { h with event := fun t => if h.event t = some e then none else h.event t }
  | .goOn =>
    match s.pc s.current with
    | .locking l | .rlocking l | .eventSleeping (some l) =>
      if s'.pc s.current = .out then
        { h.enter l s.current with lck := Function.update h.lck s.current none }
      else h
    | .out | .unlocking | .eventSleeping none => h
  | .preempt | .tick | .recompute => h

def watch (w : System × History) (op : Op) : Option (System × History) :=
  (w.1.step op).map fun s' => (s', w.1.note s' w.2 op)

end System

/-! ## Owners -/

variable {k k' : Kernel} {q q' : Chan → List Addr} {o o' : Addr → List Addr} {l t : Addr}
  {s s' : System} {h : History}

/-- Owners and levels are what the history says. -/
structure Depths (k : Kernel) (h : History) : Prop where
  owner_iff : ∀ l t, k.ownerThread l = some t ↔ 0 < h.depth l t
  level : ∀ l t, k.slType l = .rlock → k.ownerThread l = some t → k.rlLevel l = h.depth l t
  unheld : ∀ l, k.slType l = .rlock → k.ownerThread l = none → k.rlLevel l = 0
  single : ∀ l t, k.slType l ≠ .rlock → h.depth l t ≤ 1
  short : ∀ l, k.rlLevel l < 65536

variable {h' : History} {pc again : Pc} {f : Addr → Nat} {r : Bool × Kernel} {e : Addr}
  {op : System.Op}

theorem Depths.congr (hd : Depths k h) (howner : k'.ownerThread = k.ownerThread)
    (htype : k'.slType = k.slType) (hlevel : k'.rlLevel = k.rlLevel) (hdepth : h'.depth = h.depth) :
    Depths k' h' := by
  refine ⟨fun l t => ?_, fun l t => ?_, fun l => ?_, fun l t => ?_, fun l => ?_⟩
  · rw [howner, hdepth]
    exact hd.owner_iff l t
  · rw [howner, htype, hlevel, hdepth]
    exact hd.level l t
  · rw [howner, htype, hlevel]
    exact hd.unheld l
  · rw [htype, hdepth]
    exact hd.single l t
  · rw [hlevel]
    exact hd.short l

theorem Depths.depth_zero (hd : Depths k h) (hno : k.ownerThread l ≠ some t) : h.depth l t = 0 := by
  by_contra hpos
  exact hno ((hd.owner_iff l t).mpr (Nat.pos_of_ne_zero hpos))

theorem Depths.leave_other (hd : Depths k h) (hno : k.ownerThread l ≠ some t) :
    (h.leave l t).depth = h.depth := by
  have hzero := hd.depth_zero hno
  show update h.depth l (update (h.depth l) t (h.depth l t - 1)) = h.depth
  rw [hzero, Nat.zero_sub, ← hzero, update_eq_self, update_eq_self]

/-- **A thread has lock `l` `n` times.** If it is 0, nobody has it. -/
theorem Depths.set (hd : Depths k h) {n : Nat}
    (hfree : k.ownerThread l = none ∨ k.ownerThread l = some t)
    (howner : k'.ownerThread = update k.ownerThread l (if n = 0 then none else some t))
    (htype : k'.slType = k.slType) (hother : ∀ l', l' ≠ l → k'.rlLevel l' = k.rlLevel l')
    (hlevel : k.slType l = .rlock → k'.rlLevel l = n) (hsingle : k.slType l ≠ .rlock → n ≤ 1)
    (hshort : k'.rlLevel l < 65536) : Depths k' (h.setDepth l t n) := by
  have hothers : ∀ t', t' ≠ t → h.depth l t' = 0 := fun t' ht' => hd.depth_zero fun he => by
    rcases hfree with hnone | hsome
    · rw [hnone] at he
      cases he
    · exact ht' (Option.some.inj (he.symm.trans hsome))
  refine ⟨fun l' t' => ?_, fun l' t' hl' ht' => ?_, fun l' hl' hnone => ?_, fun l' t' hl' => ?_,
    fun l' => ?_⟩
  · rw [h.setDepth_depth, howner]
    by_cases hl : l' = l
    · subst hl
      by_cases ht : t' = t
      · subst ht
        by_cases hn : n = 0 <;> simp [hn, Nat.pos_iff_ne_zero]
      · have ht'' : t ≠ t' := fun he => ht he.symm
        rw [if_neg (show ¬ (l' = l' ∧ t' = t) from fun hno => ht hno.2), hothers t' ht]
        by_cases hn : n = 0 <;> simp [hn, ht'']
    · rw [update_of_ne hl, if_neg fun hno => hl hno.1]
      exact hd.owner_iff l' t'
  · rw [h.setDepth_depth]
    rw [htype] at hl'
    rw [howner] at ht'
    by_cases hl : l' = l
    · subst hl
      rw [update_self] at ht'
      split at ht'
      · cases ht'
      · cases ht'
        rw [if_pos ⟨rfl, rfl⟩]
        exact hlevel hl'
    · rw [update_of_ne hl] at ht'
      rw [if_neg fun hno => hl hno.1, hother l' hl]
      exact hd.level l' t' hl' ht'
  · rw [htype] at hl'
    rw [howner] at hnone
    by_cases hl : l' = l
    · subst hl
      rw [update_self] at hnone
      split at hnone
      · rename_i hn
        rw [hlevel hl', hn]
      · cases hnone
    · rw [update_of_ne hl] at hnone
      rw [hother l' hl]
      exact hd.unheld l' hl' hnone
  · rw [htype] at hl'
    rw [h.setDepth_depth]
    split
    · rename_i heq
      exact hsingle (heq.1 ▸ hl')
    · exact hd.single l' t' hl'
  · by_cases hl : l' = l
    · rw [hl]
      exact hshort
    · rw [hother l' hl]
      exact hd.short l'

/-! ## Where threads are -/

/-- Threads inside of a function are not idle threads, and wait for what the function waits for. A
    thread that was put to sleep on an event is in its queue, and who is in `event_sleep` has not come
    further than the lock. -/
structure Places (s : System) (h : History) (q : Chan → List Addr) : Prop where
  busy : ∀ t, s.pc t ≠ .out → s.kernel.threads.scCid t ≠ .idle
  locking : ∀ t l, s.pc t = .locking l ∨ s.pc t = .eventSleeping (some l) →
    s.kernel.slType l = .lock
  rlocking : ∀ t l, s.pc t = .rlocking l →
    s.kernel.slType l = .rlock ∧ s.kernel.ownerThread l ≠ some t
  event : ∀ t e, h.event t = some e → s.kernel.slType e = .event ∧ t ∈ q (.obj e)
  back : ∀ t l, h.lck t = some l → s.pc t = .eventSleeping (some l) ∨ s.pc t = .locking l

/-- What a segment of the current thread leaves alone. -/
structure Segment (k k' : Kernel) : Prop where
  type : k'.slType = k.slType
  cid : k'.threads.scCid = k.threads.scCid
  owner : ∀ l t, t ≠ k.current → k'.ownerThread l = some t → k.ownerThread l = some t

/-- The queues of events lose nothing. -/
def EventsKept (k : Kernel) (q q' : Chan → List Addr) : Prop :=
  ∀ e t, k.slType e = .event → t ∈ q (.obj e) → t ∈ q' (.obj e)

theorem EventsKept.of_eq (hobj : ∀ c, q' (.obj c) = q (.obj c)) : EventsKept k q q' :=
  fun e t _ ht => by
    rw [hobj]
    exact ht

theorem EventsKept.of_append {x : Addr}
    (hobj : ∀ c, q' (.obj c) = update q (.obj l) (q (.obj l) ++ [x]) (.obj c)) :
    EventsKept k q q' := by
  intro e t _ ht
  rw [hobj]
  by_cases he : e = l
  · rw [he] at ht ⊢
    rw [update_self]
    exact List.mem_append_left _ ht
  · rw [update_of_ne (by simpa using he)]
    exact ht

theorem EventsKept.of_empty (htype : k.slType l ≠ .event)
    (hobj : ∀ c, q' (.obj c) = update q (.obj l) [] (.obj c)) : EventsKept k q q' := by
  intro e t hev ht
  have he : e ≠ l := fun he => htype (he ▸ hev)
  rw [hobj, update_of_ne (by simpa using he)]
  exact ht

theorem Places.events (hp : Places s h q) (hkept : EventsKept s.kernel q q')
    (htype : k'.slType = s.kernel.slType) :
    ∀ t e, h.event t = some e → k'.slType e = .event ∧ t ∈ q' (.obj e) := by
  intro t e he
  obtain ⟨hev, hmem⟩ := hp.event t e he
  rw [htype]
  exact ⟨hev, hkept e t hev hmem⟩

/-- **After a segment** only the place of the current thread is a new one. -/
theorem Places.after (hp : Places s h q) (hseg : Segment s.kernel k')
    (hbusy : pc ≠ .out → s.kernel.threads.scCid s.current ≠ .idle)
    (hlocking : ∀ l, pc = .locking l ∨ pc = .eventSleeping (some l) → s.kernel.slType l = .lock)
    (hrlocking : ∀ l, pc = .rlocking l →
      s.kernel.slType l = .rlock ∧ k'.ownerThread l ≠ some s.current)
    (hevent : ∀ t e, h'.event t = some e → k'.slType e = .event ∧ t ∈ q' (.obj e))
    (hlck : ∀ t, t ≠ s.current → h'.lck t = h.lck t)
    (hback : ∀ l, h'.lck s.current = some l → pc = .eventSleeping (some l) ∨ pc = .locking l) :
    Places (s.after pc k') h' q' := by
  have hself : (s.after pc k').pc s.current = pc := update_self _ _ _
  have hother : ∀ t, t ≠ s.current → (s.after pc k').pc t = s.pc t := fun t ht =>
    update_of_ne ht _ _
  refine ⟨fun t ht => ?_, fun t l hl => ?_, fun t l hl => ?_, hevent, fun t l hl => ?_⟩
  · show k'.threads.scCid t ≠ .idle
    rw [hseg.cid]
    by_cases he : t = s.current
    · rw [he, hself] at ht
      rw [he]
      exact hbusy ht
    · rw [hother t he] at ht
      exact hp.busy t ht
  · show k'.slType l = .lock
    rw [hseg.type]
    by_cases he : t = s.current
    · rw [he, hself] at hl
      exact hlocking l hl
    · rw [hother t he] at hl
      exact hp.locking t l hl
  · show k'.slType l = .rlock ∧ k'.ownerThread l ≠ some t
    rw [hseg.type]
    by_cases he : t = s.current
    · rw [he, hself] at hl
      rw [he]
      exact hrlocking l hl
    · rw [hother t he] at hl
      obtain ⟨htype, hno⟩ := hp.rlocking t l hl
      exact ⟨htype, fun hyes => hno (hseg.owner l t he hyes)⟩
  · by_cases he : t = s.current
    · rw [he, hself]
      rw [he] at hl
      exact hback l hl
    · rw [hother t he]
      rw [hlck t he] at hl
      exact hp.back t l hl

theorem Places.clock (hp : Places s h q) (hseg : Segment s.kernel k')
    (howner : k'.ownerThread = s.kernel.ownerThread) (hkept : EventsKept s.kernel q q') :
    Places { s with kernel := k' } h q' := by
  refine ⟨fun t ht => ?_, fun t l hl => ?_, fun t l hl => ?_, hp.events hkept hseg.type, hp.back⟩
  · show k'.threads.scCid t ≠ .idle
    rw [hseg.cid]
    exact hp.busy t ht
  · show k'.slType l = .lock
    rw [hseg.type]
    exact hp.locking t l hl
  · show k'.slType l = .rlock ∧ k'.ownerThread l ≠ some t
    rw [hseg.type, howner]
    exact hp.rlocking t l hl

/-! ## Segments -/

theorem Segment.of_eq (htype : k'.slType = k.slType)
    (hcid : k'.threads.scCid = k.threads.scCid) (howner : k'.ownerThread = k.ownerThread) :
    Segment k k' :=
  ⟨htype, hcid, fun l t _ ht => by rwa [howner] at ht⟩

theorem Segment.trans {k'' : Kernel} (h1 : Segment k k') (h2 : Segment k' k'')
    (hcur : k'.current = k.current) : Segment k k'' :=
  ⟨h2.type.trans h1.type, h2.cid.trans h1.cid, fun l t ht hyes =>
    h1.owner l t ht (h2.owner l t (by rw [hcur]; exact ht) hyes)⟩

theorem Segment.of_update {x : Option Addr} (hx : ∀ t, x = some t → t = k.current)
    (htype : k'.slType = k.slType) (hcid : k'.threads.scCid = k.threads.scCid)
    (howner : k'.ownerThread = update k.ownerThread l x) : Segment k k' := by
  refine ⟨htype, hcid, fun l' t ht hyes => ?_⟩
  rw [howner] at hyes
  by_cases hl : l' = l
  · rw [hl, update_self] at hyes
    exact absurd (hx t hyes) ht
  · rwa [update_of_ne hl] at hyes

theorem segment_dropInherited (k : Kernel) : Segment k k.dropInherited :=
  .of_eq (by unfold Kernel.dropInherited; split <;> rfl) (dropInherited_cid k)
    (by unfold Kernel.dropInherited; split <;> rfl)

theorem Depths.dropInherited (hd : Depths k h) : Depths k.dropInherited h := by
  unfold Kernel.dropInherited
  split
  · exact hd.congr rfl rfl rfl rfl
  · exact hd

/-- The kernel after a segment in which the current thread gave something back. -/
structure Gave (k : Kernel) (q : Chan → List Addr) (h' : History) (k' : Kernel) : Prop where
  ok : ∃ q' o', LockOk k' q' o' ∧ EventsKept k q q'
  depths : Depths k' h'
  segment : Segment k k'
  current : k'.current = k.current

theorem Gave.of_release (hok : LockOk k q o) (hd : Depths k h)
    (howner : k.ownerThread l = some k.current) (htype : k.slType l ≠ .event)
    (hone : h.depth l k.current = 1) (hf : ∀ l', l' ≠ l → f l' = k.rlLevel l')
    (hzero : k.slType l = .rlock → f l = 0) (hshort : f l < 65536) {k' : Kernel}
    (hrun : Kernel.release l { k with rlLevel := f } = some k') : Gave k q (h.leave l k.current) k' := by
  obtain ⟨k1, q', hrun', hok', hr⟩ := (hok.level f).release (l := l) howner
  cases hrun'.symm.trans hrun
  refine ⟨⟨q', _, hok', EventsKept.of_empty htype hr.queues⟩, ?_,
    Segment.of_update (fun t ht => by cases ht) hr.type hr.cid hr.owner, hr.current⟩
  have hset : h.leave l k.current = h.setDepth l k.current 0 := by
    unfold History.leave
    rw [hone]
  rw [hset]
  refine hd.set (.inr howner) hr.owner hr.type (fun l' hl' => ?_) (fun hrlock => ?_)
    (fun _ => Nat.zero_le 1) ?_
  · rw [hr.level]
    exact hf l' hl'
  · rw [hr.level]
    exact hzero hrlock
  · rw [hr.level]
    exact hshort

theorem Gave.nothing (hok : LockOk k q o) (hd : Depths k h) : Gave k q h k :=
  ⟨⟨q, o, hok, EventsKept.of_eq fun _ => rfl⟩, hd, .of_eq rfl rfl rfl, rfl⟩

theorem Gave.of_other (hok : LockOk k q o) (hd : Depths k h)
    (hno : k.ownerThread l ≠ some k.current) : Gave k q (h.leave l k.current) k :=
  .nothing hok (hd.congr rfl rfl rfl (hd.leave_other hno))

theorem Gave.dropInherited (hg : Gave k q h' k') : Gave k q h' k'.dropInherited := by
  obtain ⟨q', o', hok, hkept⟩ := hg.ok
  refine ⟨⟨q', o', hok.dropInherited.1, hkept⟩, hg.depths.dropInherited,
    hg.segment.trans (segment_dropInherited k') hg.current, ?_⟩
  rw [← hg.current]
  unfold Kernel.dropInherited
  split <;> rfl

theorem Depths.depth_one (hd : Depths k h) (htype : k.slType l ≠ .rlock)
    (howner : k.ownerThread l = some t) : h.depth l t = 1 := by
  have hpos := (hd.owner_iff l t).mp howner
  have hle := hd.single l t htype
  omega

/-- **`unlock`**, up to `STI`. -/
theorem Gave.unlockOwned (hok : LockOk k q o) (hd : Depths k h) (htype : k.slType l = .lock)
    (hrun : k.unlockOwned l = some k') : Gave k q (h.leave l k.current) k' := by
  unfold Kernel.unlockOwned at hrun
  split at hrun
  · rename_i howner
    refine Gave.of_release hok hd howner (by rw [htype]; simp)
      (hd.depth_one (by rw [htype]; simp) howner) (f := k.rlLevel) (fun _ _ => rfl) (fun hr => ?_)
      (hd.short l) hrun
    rw [htype] at hr
    cases hr
  · rename_i hno
    cases hrun
    exact Gave.of_other hok hd hno

theorem Gave.runlock (hok : LockOk k q o) (hd : Depths k h) (htype : k.slType l = .rlock)
    (hrun : k.runlock l = some k') : Gave k q (h.leave l k.current) k' := by
  unfold Kernel.runlock at hrun
  obtain ⟨k1, hk1, rfl⟩ := map_eq_some_iff.mp hrun
  refine Gave.dropInherited ?_
  split at hk1
  · rename_i howner
    have hpos := (hd.owner_iff l _).mp howner
    have hdepth := hd.level l _ htype howner
    have hshort := hd.short l
    have hmod : (k.rlLevel l + 65535) % 65536 = h.depth l k.current - 1 := by omega
    have hother : ∀ l', l' ≠ l →
        update k.rlLevel l (h.depth l k.current - 1) l' = k.rlLevel l' :=
      fun l' hl' => update_of_ne hl' _ _
    have hself : update k.rlLevel l (h.depth l k.current - 1) l = h.depth l k.current - 1 :=
      update_self _ _ _
    rw [hmod] at hk1
    split at hk1
    · rename_i hlast
      refine Gave.of_release hok hd howner (by rw [htype]; simp) (by omega) hother (fun _ => ?_) ?_ hk1
      · omega
      · omega
    rename_i hmore
    cases hk1
    refine ⟨⟨q, o, hok.level _, EventsKept.of_eq fun _ => rfl⟩, ?_, .of_eq rfl rfl rfl, rfl⟩
    refine hd.set (.inr howner) ?_ rfl hother (fun _ => hself) (fun hno => absurd htype hno) ?_
    · rw [if_neg (by omega), ← howner, update_eq_self]
    · show update k.rlLevel l (h.depth l k.current - 1) l < 65536
      omega
  · rename_i hno
    cases hk1
    exact Gave.of_other hok hd hno

/-! ## The invariant of a watched run -/

structure Watched (s : System) (h : History) : Prop where
  depths : Depths s.kernel h
  places : ∃ q o, LockOk s.kernel q o ∧ Places s h q

/-- The history of a thread that came back with a lock. -/
def History.back (h : History) (l t : Addr) : History :=
  { h.enter l t with lck := Function.update h.lck t none }

theorem History.back_of_none (hnone : h.lck t = none) : h.back l t = h.enter l t := by
  unfold History.back
  rw [← hnone, update_eq_self]
  rfl

theorem Places.cameBack (hp : Places s h q) (hseg : Segment s.kernel k')
    (hkept : EventsKept s.kernel q q') : Places (s.after .out k') (h.back l s.current) q' := by
  refine hp.after hseg (fun hno => absurd rfl hno) (fun _ hno => ?_) (fun _ hno => by cases hno)
    (hp.events hkept hseg.type) (fun t ht => update_of_ne ht _ _) fun l' hl' => ?_
  · rcases hno with hno | hno <;> cases hno
  · have hnone : (h.back l s.current).lck s.current = none := update_self _ _ _
    rw [hnone] at hl'
    cases hl'

theorem Segment.take (k : Kernel) (l : Addr) : Segment k (k.take l) :=
  Segment.of_update (fun _ ht => (Option.some.inj ht).symm) rfl rfl rfl

/-- **The current thread takes a lock that is free.** -/
theorem Watched.take (hw : Watched s h) (hval : s.kernel.lVal l ≠ true)
    (hf : ∀ l', l' ≠ l → f l' = s.kernel.rlLevel l')
    (hone : s.kernel.slType l = .rlock → f l = 1) (hshort : f l < 65536) :
    Watched (s.after .out (Kernel.take l { s.kernel with rlLevel := f })) (h.back l s.current) := by
  obtain ⟨hd, q, o, hok, hp⟩ := hw
  have hnone := (hok.free hval).1
  refine ⟨?_, q, _, (hok.level f).take hval, hp.cameBack ?_ (EventsKept.of_eq fun _ => rfl)⟩
  · have hzero : h.depth l s.current = 0 := hd.depth_zero (by rw [hnone]; simp)
    have hset : Depths (Kernel.take l { s.kernel with rlLevel := f }) (h.setDepth l s.current 1) :=
      hd.set (.inl hnone) rfl rfl hf hone (fun _ => Nat.le_refl 1) hshort
    refine hset.congr rfl rfl rfl ?_
    show (h.setDepth l s.current (h.depth l s.current + 1)).depth = _
    rw [hzero]
  · exact (Segment.of_eq rfl rfl rfl : Segment s.kernel { s.kernel with rlLevel := f }).trans
      (Segment.take _ l) rfl

/-- **The current thread has to wait for a lock.** -/
theorem Watched.block (hw : Watched s h) (hcid : s.kernel.threads.scCid s.current ≠ .idle)
    (hval : s.kernel.lVal l = true)
    (hlocking : ∀ l', pc = .locking l' ∨ pc = .eventSleeping (some l') → s.kernel.slType l' = .lock)
    (hrlocking : ∀ l', pc = .rlocking l' →
      s.kernel.slType l' = .rlock ∧ s.kernel.ownerThread l' ≠ some s.current)
    (hback : ∀ l', h.lck s.current = some l' → pc = .eventSleeping (some l') ∨ pc = .locking l') :
    ∃ k', s.kernel.block l = some k' ∧ Watched (s.after pc k') h := by
  obtain ⟨hd, q, o, hok, hp⟩ := hw
  obtain ⟨t, q', hrun, hok', hobj, -, hcid', -⟩ := hok.block hcid hval
  have hseg : Segment s.kernel { s.kernel with threads := t } := .of_eq rfl hcid' rfl
  refine ⟨_, hrun, hd.congr rfl rfl rfl rfl, q', o, hok', ?_⟩
  exact hp.after hseg (fun _ => hcid) hlocking hrlocking
    (hp.events (EventsKept.of_append hobj) rfl) (fun _ _ => rfl) hback

def History.tried (h : History) (l t : Addr) (taken : Bool) : History :=
  if taken then h.back l t else h

theorem Watched.lock (hw : Watched s h) (hcid : s.kernel.threads.scCid s.current ≠ .idle)
    (htype : s.kernel.slType l = .lock) (hback : ∀ l', h.lck s.current = some l' → l' = l)
    (hrun : s.kernel.lock l = some r) :
    Watched (s.afterTry (.locking l) r) (h.tried l s.current r.1) := by
  unfold Kernel.lock at hrun
  split at hrun
  · rename_i hval
    obtain ⟨k', hblock, hw'⟩ : ∃ k', s.kernel.block l = some k' ∧
        Watched (s.after (.locking l) k') h := by
      refine hw.block hcid hval (fun l' hl' => ?_) (fun l' hl' => by cases hl')
        fun l' hl' => .inr (by rw [hback l' hl'])
      rcases hl' with hl' | hl'
      · cases hl'
        exact htype
      · cases hl'
    rw [hblock] at hrun
    cases hrun
    exact hw'
  · rename_i hval
    cases hrun
    refine hw.take (f := s.kernel.rlLevel) hval (fun _ _ => rfl) (fun hr => ?_) (hw.depths.short l)
    rw [htype] at hr
    cases hr

/-- **`rlock`**, by an owner that has the lock less than 65535 times. -/
theorem Watched.rlock (hw : Watched s h) (hcid : s.kernel.threads.scCid s.current ≠ .idle)
    (htype : s.kernel.slType l = .rlock) (hback : h.lck s.current = none)
    (hlevel : s.kernel.ownerThread l = some s.current → s.kernel.rlLevel l < 65535)
    (hrun : s.kernel.rlock l = some r) :
    Watched (s.afterTry (.rlocking l) r) (h.tried l s.current r.1) := by
  unfold Kernel.rlock at hrun
  split at hrun
  · rename_i hval
    split at hrun
    · rename_i howner
      cases hrun
      obtain ⟨hd, q, o, hok, hp⟩ := hw
      have hlt := hlevel howner
      have hdepth : s.kernel.rlLevel l = h.depth l s.current := hd.level l _ htype howner
      have hmod : (s.kernel.rlLevel l + 1) % 65536 = h.depth l s.current + 1 := by
        omega
      refine ⟨?_, q, o, hok.level _, hp.cameBack (.of_eq rfl rfl rfl) (EventsKept.of_eq fun _ => rfl)⟩
      have hset : Depths { s.kernel with
          rlLevel := update s.kernel.rlLevel l ((s.kernel.rlLevel l + 1) % 65536) }
          (h.setDepth l s.current (h.depth l s.current + 1)) := by
        refine hd.set (.inr howner) ?_ rfl (fun l' hl' => update_of_ne hl' _ _)
          (fun _ => (update_self _ _ _).trans hmod) (fun hno => absurd htype hno) ?_
        · exact (update_eq_self_iff.mpr howner.symm).symm
        · show update s.kernel.rlLevel l _ l < 65536
          rw [update_self]
          exact Nat.mod_lt _ (by decide)
      exact hset.congr rfl rfl rfl rfl
    · rename_i hno
      obtain ⟨k', hblock, hw'⟩ : ∃ k', s.kernel.block l = some k' ∧
          Watched (s.after (.rlocking l) k') h := by
        refine hw.block hcid hval (fun l' hl' => ?_) (fun l' hl' => ?_) fun l' hl' => ?_
        · rcases hl' with hl' | hl' <;> cases hl'
        · cases hl'
          exact ⟨htype, hno⟩
        · rw [hback] at hl'
          cases hl'
      rw [hblock] at hrun
      cases hrun
      exact hw'
  · rename_i hval
    cases hrun
    obtain ⟨q, o, hok, -⟩ := hw.places
    have hzero := hw.depths.unheld l htype (hok.free hval).1
    have hself : update s.kernel.rlLevel l ((s.kernel.rlLevel l + 1) % 65536) l = 1 := by
      rw [update_self, hzero]
    refine hw.take hval (fun l' hl' => update_of_ne hl' _ _) (fun _ => hself) ?_
    rw [hself]
    decide

/-- A thread that is not inside of `_lock` or `event_sleep` has no lock to take again. -/
theorem Places.lck_none (hp : Places s h q)
    (hpc : ∀ l, s.pc t ≠ .eventSleeping (some l) ∧ s.pc t ≠ .locking l) : h.lck t = none := by
  cases hl : h.lck t with
  | none => rfl
  | some l =>
    rcases hp.back t l hl with hno | hno
    · exact absurd hno (hpc l).1
    · exact absurd hno (hpc l).2

theorem Places.lck_none_of_out (hp : Places s h q) (hpc : s.pc t = .out) : h.lck t = none :=
  hp.lck_none fun l => by
    rw [hpc]
    exact ⟨by simp, by simp⟩

/-- **The current thread gave a lock back** and is where it was before, or at the end of `unlock`. -/
theorem Watched.gave (hp : Places s h q) (hg : Gave s.kernel q h' k') (hevent : h'.event = h.event)
    (hlck : h'.lck = h.lck) (hnone : h.lck s.current = none) (hpc : pc = .out ∨ pc = .unlocking)
    (hcid : pc ≠ .out → s.kernel.threads.scCid s.current ≠ .idle) : Watched (s.after pc k') h' := by
  obtain ⟨q', o', hok, hkept⟩ := hg.ok
  refine ⟨hg.depths, q', o', hok, hp.after hg.segment hcid (fun l hl => ?_) (fun l hl => ?_) ?_
    (fun t _ => by rw [hlck]) fun l hl => ?_⟩
  · rcases hpc with rfl | rfl <;> rcases hl with hl | hl <;> cases hl
  · rcases hpc with rfl | rfl <;> cases hl
  · rw [hevent]
    exact hp.events hkept hg.segment.type
  · rw [hlck, hnone] at hl
    cases hl

theorem EventsKept.trans {q'' : Chan → List Addr} (h1 : EventsKept k q q')
    (h2 : EventsKept k' q' q'') (htype : k'.slType = k.slType) : EventsKept k q q'' :=
  fun e t he ht => h2 e t (by rw [htype]; exact he) (h1 e t he ht)

/-- **The current thread goes to sleep on an event**, after it gave the lock back if it had one. -/
theorem Watched.sleep {lck : Option Addr} (hp : Places s h q)
    (hg : Gave s.kernel q h' k') (hcid : s.kernel.threads.scCid s.current ≠ .idle)
    (htype : s.kernel.slType e = .event) (hlck : ∀ l, lck = some l → s.kernel.slType l = .lock) :
    Watched (s.after (.eventSleeping lck) { k' with threads := (sleepOn e k'.threads).scheduler })
      { depth := h'.depth
        event := update h.event s.current (some e)
        lck := update h.lck s.current lck } := by
  obtain ⟨q1, o', hok, hkept⟩ := hg.ok
  have htype' : k'.slType e = .event := by rw [hg.segment.type]; exact htype
  have hcid' : k'.threads.scCid k'.current ≠ .idle := by
    rw [hg.segment.cid, hg.current]
    exact hcid
  obtain ⟨q', hok', hobj⟩ := hok.sleep hcid' (l := e) (by unfold IsLock; rw [htype']; simp)
  have hall : EventsKept s.kernel q q' :=
    hkept.trans (EventsKept.of_append hobj : EventsKept k' q1 q') hg.segment.type
  have hsame := sameThreads_scheduler (sleepOn e k'.threads)
  have hseg : Segment s.kernel { k' with threads := (sleepOn e k'.threads).scheduler } :=
    hg.segment.trans (.of_eq rfl hsame.cid rfl) hg.current
  refine ⟨hg.depths.congr rfl rfl rfl rfl, q', o', hok', hp.after hseg (fun _ => hcid)
    (fun l hl => ?_) (fun l hl => by cases hl) (fun t e' he' => ?_)
    (fun t ht => update_of_ne ht _ _) fun l hl => ?_⟩
  · rcases hl with hl | hl
    · cases hl
    · cases hl
      exact hlck l rfl
  · have hset : update h.event s.current (some e) t = some e' := he'
    by_cases ht : t = s.current
    · rw [ht, update_self] at hset
      cases hset
      refine ⟨htype', ?_⟩
      rw [hobj, update_self, ht, show s.current = k'.current from hg.current.symm]
      exact List.mem_append_right _ (List.mem_singleton.mpr rfl)
    · rw [update_of_ne ht] at hset
      obtain ⟨hev, hmem⟩ := hp.event t e' hset
      exact ⟨by rw [← hev]; exact congrFun hg.segment.type e', hall e' t hev hmem⟩
  · have hset : update h.lck s.current lck s.current = some l := hl
    rw [update_self] at hset
    rw [hset]
    exact .inl rfl

/-- **`event_wakeup`**: all threads that were put to sleep on the event are ready. -/
theorem Watched.wakeup (hw : Watched s h) (hpc : s.pc s.current = .out) :
    ∃ k', s.kernel.eventWakeup e = some k' ∧
      Watched (s.after .out k')
        { h with event := fun t => if h.event t = some e then none else h.event t } ∧
      ∀ t, h.event t = some e → k'.threads.scState t = .ready := by
  obtain ⟨hd, q, o, hok, hp⟩ := hw
  obtain ⟨t, q', hrun, hok', hw⟩ := hok.wake e
  have hseg : Segment s.kernel { s.kernel with threads := t } := .of_eq rfl hw.cid rfl
  refine ⟨_, hrun, ⟨hd.congr rfl rfl rfl rfl, q', o, hok', hp.after hseg (fun hno => absurd rfl hno)
    (fun l hl => ?_) (fun l hl => by cases hl) (fun x e' hx => ?_) (fun _ _ => rfl) fun l hl => ?_⟩,
    fun x hx => ?_⟩
  · rcases hl with hl | hl <;> cases hl
  · have hx' : (if h.event x = some e then none else h.event x) = some e' := hx
    split at hx'
    · cases hx'
    rename_i hne
    obtain ⟨hev, hmem⟩ := hp.event x e' hx'
    refine ⟨hev, ?_⟩
    have he : e' ≠ e := fun he => hne (he ▸ hx')
    rw [hw.queues, update_of_ne (by simpa using he)]
    exact hmem
  · have hnone := hp.lck_none_of_out hpc
    have hl' : h.lck s.current = some l := hl
    rw [hnone] at hl'
    cases hl'
  · rw [hw.state, if_pos (hp.event x e hx).2]

theorem Watched.clock {t : Threads} (hd : Depths s.kernel h) (hp : Places s h q)
    (hok : LockOk { s.kernel with threads := t } q' o) (hobj : ∀ a, q' (.obj a) = q (.obj a))
    (hcid : t.scCid = s.kernel.threads.scCid) :
    Watched { s with kernel := { s.kernel with threads := t } } h :=
  ⟨hd.congr rfl rfl rfl rfl, q', o, hok,
    hp.clock (.of_eq rfl hcid rfl) rfl (EventsKept.of_eq hobj)⟩

/-! ## Steps -/

/-- `rl_level` does not wrap. -/
def LevelOk (w : System × History) : System.Op → Prop
  | .rlock l => w.1.kernel.ownerThread l = some w.1.current → w.1.kernel.rlLevel l < 65535
  | _ => True

instance (w : System × History) (op : System.Op) : Decidable (LevelOk w op) :=
  match op with
  | .rlock l => inferInstanceAs (Decidable (w.1.kernel.ownerThread l = some w.1.current → _))
  | .lock _ | .trylock _ | .unlock _ | .unlockCut _ | .runlock _ | .eventSleep _ _
  | .eventWakeup _ | .goOn | .preempt | .tick | .recompute => inferInstanceAs (Decidable True)

theorem afterTry_pc (s : System) (again : Pc) (r : Bool × Kernel) :
    (s.afterTry again r).pc s.current = if r.1 then .out else again := update_self _ _ _

theorem note_tried (hagain : again ≠ .out) (hnone : h.lck s.current = none) (r : Bool × Kernel) :
    (if (s.afterTry again r).pc s.current = .out then h.enter l s.current else h) =
      h.tried l s.current r.1 := by
  rw [afterTry_pc]
  unfold History.tried
  cases r.1 with
  | false => simp [hagain]
  | true => simp [History.back_of_none hnone]

theorem note_goOn (hagain : again ≠ .out) (r : Bool × Kernel) :
    (if (s.afterTry again r).pc s.current = .out then
        { h.enter l s.current with lck := update h.lck s.current none } else h) =
      h.tried l s.current r.1 := by
  rw [afterTry_pc]
  unfold History.tried
  cases r.1 with
  | false => simp [hagain]
  | true => simp [History.back]

theorem Watched.goOn (hw : Watched s h) (hstep : s.goOn = some s') :
    Watched s' (s.note s' h .goOn) := by
  obtain ⟨q, o, hok, hp⟩ := hw.places
  unfold System.goOn at hstep
  unfold System.note
  have hcid : s.pc s.current ≠ .out → s.kernel.threads.scCid s.current ≠ .idle := hp.busy _
  cases hpc : s.pc s.current with
  | out =>
    rw [hpc] at hstep
    cases hstep
  | locking l =>
    rw [hpc] at hstep hcid
    obtain ⟨r, hr, rfl⟩ := map_eq_some_iff.mp hstep
    dsimp only
    rw [note_goOn (by simp)]
    refine hw.lock (hcid (by simp)) (hp.locking _ l (.inl hpc)) (fun l' hl' => ?_) hr
    rcases hp.back _ l' hl' with hb | hb
    · rw [hpc] at hb
      cases hb
    · rw [hpc] at hb
      cases hb
      rfl
  | rlocking l =>
    rw [hpc] at hstep hcid
    obtain ⟨r, hr, rfl⟩ := map_eq_some_iff.mp hstep
    obtain ⟨htype, hno⟩ := hp.rlocking _ l hpc
    dsimp only
    rw [note_goOn (by simp)]
    exact hw.rlock (hcid (by simp)) htype (hp.lck_none fun l' => by rw [hpc]; simp)
      (fun hyes => absurd hyes hno) hr
  | eventSleeping lck =>
    rw [hpc] at hstep hcid
    cases lck with
    | none =>
      cases hstep
      refine ⟨hw.depths, q, o, hok, hp.after (.of_eq rfl rfl rfl) (fun hno => absurd rfl hno)
        (fun l hl => ?_) (fun l hl => by cases hl) hp.event (fun _ _ => rfl) fun l hl => ?_⟩
      · rcases hl with hl | hl <;> cases hl
      · rw [hp.lck_none fun l' => by rw [hpc]; simp] at hl
        cases hl
    | some l =>
      obtain ⟨r, hr, rfl⟩ := map_eq_some_iff.mp hstep
      dsimp only
      rw [note_goOn (by simp)]
      refine hw.lock (hcid (by simp)) (hp.locking _ l (.inr hpc)) (fun l' hl' => ?_) hr
      rcases hp.back _ l' hl' with hb | hb
      · rw [hpc] at hb
        cases hb
        rfl
      · rw [hpc] at hb
        cases hb
  | unlocking =>
    rw [hpc] at hstep
    cases hstep
    exact Watched.gave hp (Gave.nothing hok hw.depths).dropInherited rfl rfl
      (hp.lck_none fun l' => by rw [hpc]; simp) (.inl rfl) fun hno => absurd rfl hno

theorem Watched.step (hw : Watched s h) (hop : LevelOk (s, h) op)
    (hstep : s.step op = some s') : Watched s' (s.note s' h op) := by
  obtain ⟨q, o, hok, hp⟩ := hw.places
  cases op with
  | lock l =>
    obtain ⟨⟨hpc, hcid, htype⟩, r, hr, rfl⟩ := mayCall_some hstep
    have hnone := hp.lck_none_of_out hpc
    simp only [System.note]
    rw [note_tried (by simp) hnone]
    exact hw.lock hcid htype (fun l' hl' => by rw [hnone] at hl'; cases hl') hr
  | rlock l =>
    obtain ⟨⟨hpc, hcid, htype⟩, r, hr, rfl⟩ := mayCall_some hstep
    have hnone := hp.lck_none_of_out hpc
    simp only [System.note]
    rw [note_tried (by simp) hnone]
    exact hw.rlock hcid htype hnone hop hr
  | trylock l =>
    obtain ⟨hcall, hstep⟩ := ite_none_right_eq_some.mp hstep
    obtain ⟨hpc, hcid, htype⟩ := mayCall_iff.mp hcall
    cases hstep
    have hnone := hp.lck_none_of_out hpc
    simp only [System.note, Kernel.trylock]
    split
    · exact Watched.gave hp (.nothing hok hw.depths) rfl rfl hnone (.inl rfl) fun hno => absurd rfl hno
    rename_i hval
    have htake := hw.take (f := s.kernel.rlLevel) hval (fun _ _ => rfl) (fun hr => by
      rw [htype] at hr
      cases hr) (hw.depths.short l)
    rw [History.back_of_none hnone] at htake
    exact htake
  | unlock l =>
    obtain ⟨⟨hpc, -, htype⟩, k', hk', rfl⟩ := mayCall_some hstep
    obtain ⟨k1, hk1, rfl⟩ := map_eq_some_iff.mp hk'
    exact Watched.gave hp (Gave.unlockOwned hok hw.depths htype hk1).dropInherited rfl rfl
      (hp.lck_none_of_out hpc) (.inl rfl) fun hno => absurd rfl hno
  | unlockCut l =>
    obtain ⟨⟨hpc, hcid, htype⟩, k', hk', rfl⟩ := mayCall_some hstep
    exact Watched.gave hp (Gave.unlockOwned hok hw.depths htype hk') rfl rfl
      (hp.lck_none_of_out hpc) (.inr rfl) fun _ => hcid
  | runlock l =>
    obtain ⟨⟨hpc, -, htype⟩, k', hk', rfl⟩ := mayCall_some hstep
    exact Watched.gave hp (Gave.runlock hok hw.depths htype hk') rfl rfl
      (hp.lck_none_of_out hpc) (.inl rfl) fun hno => absurd rfl hno
  | eventSleep e lck =>
    obtain ⟨hcall, hstep⟩ := ite_none_right_eq_some.mp hstep
    obtain ⟨hpc, hcid, htype⟩ := mayCall_iff.mp hcall.1
    have hlock : ∀ l, lck = some l → s.kernel.slType l = .lock := fun l hl => by
      have hall := hcall.2
      rw [hl] at hall
      exact of_decide_eq_true hall
    obtain ⟨r, hr, rfl⟩ := map_eq_some_iff.mp hstep
    have hself : (s.after (if r.1 then .eventSleeping lck else .out) r.2).pc s.current =
        if r.1 then .eventSleeping lck else .out := update_self _ _ _
    simp only [System.note, hself]
    have hkeep : Gave s.kernel q h s.kernel := .nothing hok hw.depths
    cases lck with
    | none =>
      cases hr
      exact Watched.sleep hp hkeep hcid htype hlock
    | some l =>
      simp only [Kernel.eventSleep] at hr
      split at hr
      · rename_i howner
        obtain ⟨k', hk', rfl⟩ := map_eq_some_iff.mp hr
        have hg := Gave.unlockOwned hok hw.depths (hlock l rfl)
          ((if_pos howner : s.kernel.unlockOwned l = _).trans hk')
        exact Watched.sleep hp hg hcid htype hlock
      · cases hr
        exact Watched.gave hp hkeep rfl rfl (hp.lck_none_of_out hpc) (.inl rfl)
          fun hno => absurd rfl hno
  | eventWakeup e =>
    obtain ⟨hcall, hstep⟩ := ite_none_right_eq_some.mp hstep
    obtain ⟨hpc, -, -⟩ := mayCall_iff.mp hcall
    obtain ⟨k', hk', hwake, -⟩ := hw.wakeup (e := e) hpc
    rw [hk'] at hstep
    cases hstep
    exact hwake
  | goOn => exact hw.goOn hstep
  | preempt =>
    cases hstep
    obtain ⟨q', hok', hobj⟩ := hok.preempt
    exact Watched.clock hw.depths hp hok' hobj (sameThreads_scheduler _).cid
  | tick =>
    cases hstep
    exact Watched.clock hw.depths hp hok.tick (fun _ => rfl) (rrClTick_keeps _ _).2.2.2
  | recompute =>
    obtain ⟨t, ht, rfl⟩ := map_eq_some_iff.mp hstep
    obtain ⟨u, q', hu, hok', hobj, hf⟩ := hok.recompute
    cases hu.symm.trans ht
    exact Watched.clock hw.depths hp hok' hobj hf.cid

/-! ## Coming back from `event_sleep` -/

/-- A step moves the current thread only, and if that was inside of a function, the function goes
    on. -/
theorem step_pc (hstep : s.step op = some s') : s'.pc = s.pc ∨
      (∃ pc, s'.pc = update s.pc s.current pc) ∧ (s.pc s.current = .out ∨ op = .goOn) := by
  cases op with
  | lock l | unlock l | unlockCut l | rlock l | runlock l | eventWakeup l =>
    obtain ⟨⟨hpc, -⟩, r, -, rfl⟩ := mayCall_some hstep
    exact .inr ⟨⟨_, rfl⟩, .inl hpc⟩
  | trylock l =>
    obtain ⟨hcall, hx⟩ := ite_none_right_eq_some.mp hstep
    cases hx
    exact .inr ⟨⟨_, rfl⟩, .inl (mayCall_iff.mp hcall).1⟩
  | eventSleep e lck =>
    obtain ⟨hcall, hx⟩ := ite_none_right_eq_some.mp hstep
    obtain ⟨r, -, rfl⟩ := map_eq_some_iff.mp hx
    exact .inr ⟨⟨_, rfl⟩, .inl (mayCall_iff.mp hcall.1).1⟩
  | goOn =>
    refine .inr ⟨?_, .inr rfl⟩
    simp only [System.step, System.goOn] at hstep
    split at hstep
    · cases hstep
    · obtain ⟨r, -, rfl⟩ := map_eq_some_iff.mp hstep
      exact ⟨_, rfl⟩
    · obtain ⟨r, -, rfl⟩ := map_eq_some_iff.mp hstep
      exact ⟨_, rfl⟩
    · cases hstep
      exact ⟨_, rfl⟩
    · obtain ⟨r, -, rfl⟩ := map_eq_some_iff.mp hstep
      exact ⟨_, rfl⟩
    · cases hstep
      exact ⟨_, rfl⟩
  | preempt | tick =>
    cases hstep
    exact .inl rfl
  | recompute =>
    obtain ⟨t, -, rfl⟩ := map_eq_some_iff.mp hstep
    exact .inl rfl

theorem afterTry_owner (hr : s.kernel.lock l = some r)
    (hout : (s.afterTry (.locking l) r).pc s.current = .out) :
    r.2.ownerThread l = some s.current := by
  rw [afterTry_pc] at hout
  unfold Kernel.lock at hr
  split at hr
  · obtain ⟨k', -, rfl⟩ := map_eq_some_iff.mp hr
    cases hout
  · cases hr
    exact update_self _ _ _

/-- **Who comes back from `event_sleep` has the lock.** -/
theorem Places.returns (hp : Places s h q) (hstep : s.step op = some s')
    (hlck : h.lck t = some l) (hout : s'.pc t = .out) : s'.kernel.ownerThread l = some t := by
  have hin := hp.back t l hlck
  have hnot : s.pc t ≠ .out := fun hno => by
    rw [hno] at hin
    rcases hin with hin | hin <;> cases hin
  rcases step_pc hstep with hsame | ⟨⟨pc, hpc⟩, hcase⟩
  · rw [hsame] at hout
    exact absurd hout hnot
  obtain rfl : t = s.current := by
    by_contra hne
    rw [hpc, update_of_ne hne] at hout
    exact hnot hout
  obtain rfl := hcase.resolve_left hnot
  simp only [System.step, System.goOn] at hstep
  rcases hin with hin | hin
  · rw [hin] at hstep
    obtain ⟨r, hr, rfl⟩ := map_eq_some_iff.mp hstep
    exact afterTry_owner hr hout
  · rw [hin] at hstep
    obtain ⟨r, hr, rfl⟩ := map_eq_some_iff.mp hstep
    exact afterTry_owner hr hout

/-! ## Every run -/

/-- What holds in every state of a run. `h` is what the threads have done so far. -/
structure Exclusive (s : System) (h : History) : Prop where
  one : ∀ l t t', 0 < h.depth l t → 0 < h.depth l t' → t = t'
  owner : ∀ l t, s.kernel.ownerThread l = some t ↔ 0 < h.depth l t
  val : ∀ l, s.kernel.lVal l = true ↔ s.kernel.ownerThread l ≠ none
  level : ∀ l t, s.kernel.slType l = .rlock → s.kernel.ownerThread l = some t →
    s.kernel.rlLevel l = h.depth l t
  waits : ∃ q, s.kernel.threads.queues.Holds q ∧
    ∀ l t, s.kernel.IsLock l → t ∈ q (.obj l) → s.kernel.ownerThread l ≠ none
  /-- `event_sleep`, by a thread that holds the lock, puts it to sleep on the event. -/
  sleeps : ∀ e l, s.mayCall e .event → s.kernel.slType l = .lock →
    s.kernel.ownerThread l = some s.current →
    ∃ s', s.step (.eventSleep e (some l)) = some s' ∧
      (s.note s' h (.eventSleep e (some l))).event s.current = some e ∧
      (s.note s' h (.eventSleep e (some l))).lck s.current = some l
  asleep : ∀ t e, h.event t = some e → s.kernel.threads.scState t = .sleep
  wakes : ∀ e, s.mayCall e .event → ∃ s', s.step (.eventWakeup e) = some s' ∧
    ∀ t, h.event t = some e → s'.kernel.threads.scState t = .ready
  returns : ∀ op s', s.step op = some s' → ∀ t l, h.lck t = some l → s'.pc t = .out →
    s'.kernel.ownerThread l = some t

theorem Watched.exclusive (hw : Watched s h) : Exclusive s h := by
  obtain ⟨q, o, hok, hp⟩ := hw.places
  have hd := hw.depths
  refine ⟨fun l t t' ht ht' => ?_, hd.owner_iff, hok.val_iff, hd.level,
    ⟨q, hok.runs.ready.holds, fun l t hl ht => hok.waiting.held ht hl⟩, fun e l hcall htype howner => ?_,
    fun t e he => hok.waiting.asleep (hp.event t e he).2, fun e hcall => ?_,
    fun op s' hstep t l => hp.returns hstep⟩
  · have h1 := (hd.owner_iff l t).mpr ht
    have h2 := (hd.owner_iff l t').mpr ht'
    exact Option.some.inj (h1.symm.trans h2)
  · obtain ⟨k', -, hrun, -⟩ := hok.release howner
    have hsleep : s.kernel.eventSleep e (some l) =
        some (true, { k' with threads := (sleepOn e k'.threads).scheduler }) := by
      simp only [Kernel.eventSleep]
      rw [if_pos (show s.kernel.ownerThread l = some s.kernel.current from howner), hrun]
      rfl
    have hstep : s.step (.eventSleep e (some l)) = some (s.after (.eventSleeping (some l))
        { k' with threads := (sleepOn e k'.threads).scheduler }) := by
      simp only [System.step]
      rw [if_pos ⟨hcall, by simpa using htype⟩, hsleep]
      rfl
    refine ⟨_, hstep, ?_⟩
    have hpc : (s.after (.eventSleeping (some l))
        { k' with threads := (sleepOn e k'.threads).scheduler }).pc s.current =
        .eventSleeping (some l) := update_self _ _ _
    simp [System.note, hpc]
  · obtain ⟨k', hrun, -, hready⟩ := hw.wakeup (e := e) (mayCall_iff.mp hcall).1
    refine ⟨s.after .out k', ?_, hready⟩
    simp only [System.step]
    rw [if_pos hcall, hrun]
    rfl

theorem Fresh.watched (hfresh : Fresh s) (hlevel : ∀ l, s.kernel.rlLevel l = 0) :
    Watched s History.start := by
  obtain ⟨q, hok, -⟩ := hfresh.lockOk
  refine ⟨⟨fun l t => ?_, fun l t _ ht => ?_, fun l _ _ => hlevel l, fun _ _ _ => Nat.zero_le 1,
    fun l => ?_⟩, q, _, hok, fun t ht => absurd (hfresh.out t) ht, fun t l hl => ?_, fun t l hl => ?_,
    (fun t e he => by cases he), fun t l hl => by cases hl⟩
  · rw [hfresh.unowned]
    exact iff_of_false (by simp) (Nat.lt_irrefl 0)
  · rw [hfresh.unowned] at ht
    cases ht
  · rw [hlevel]
    decide
  · rw [hfresh.out] at hl
    rcases hl with hl | hl <;> cases hl
  · rw [hfresh.out] at hl
    cases hl

/-- **Mutual exclusion and no lost wakeup.** -/
theorem mutual_exclusion {s₀ : System} {w : System × History} (hfresh : Fresh s₀)
    (hlevel : ∀ l, s₀.kernel.rlLevel l = 0)
    (hreach : Reaches System.watch LevelOk (s₀, History.start) w) : Exclusive w.1 w.2 := by
  have hinv : Watched w.1 w.2 := hreach.invariant (fun w => Watched w.1 w.2)
    (hfresh.watched hlevel) fun {v w op} hv hop hstep => by
      obtain ⟨s', hs', rfl⟩ := map_eq_some_iff.mp hstep
      exact hv.step hop hs'
  exact hinv.exclusive

/-! ## A run with all of them, and one that wraps -/

/-- Two user threads are ready; there are a lock at 16, a recursive lock at 17, and events. -/
def objectStart : System :=
  { lockStart with
    kernel := { lockStart.kernel with
      slType := fun a => if a = 16 then .lock else if a = 17 then .rlock else .event } }

theorem objectStart_fresh : Fresh objectStart :=
  ⟨lockStart_fresh.runs, lockStart_fresh.unowned, lockStart_fresh.unlocked, lockStart_fresh.lists,
    lockStart_fresh.channel, lockStart_fresh.inhpri, lockStart_fresh.bounded, lockStart_fresh.out⟩

/-- Thread 2 sleeps on an event with a lock, thread 3 takes the lock and wakes it, and thread 2 comes
    back with the lock, which it then has besides the recursive one. -/
theorem mutual_exclusion_woken : ∃ w, Reaches System.watch LevelOk (objectStart, History.start) w ∧
      w.1.pc 2 = .out ∧ w.2.depth 16 2 = 1 ∧ w.2.depth 17 2 = 2 ∧ w.1.kernel.rlLevel 17 = 2 ∧
      Exclusive w.1 w.2 := by
  obtain ⟨w, hw, hpc, h16, h17, hlevel⟩ : ∃ w ∈ runOps System.watch LevelOk
      (objectStart, History.start) [.preempt, .rlock 17, .rlock 17, .lock 16,
        .eventSleep 18 (some 16), .lock 16, .eventWakeup 18, .unlock 16, .preempt, .goOn],
      w.1.pc 2 = .out ∧ w.2.depth 16 2 = 1 ∧ w.2.depth 17 2 = 2 ∧ w.1.kernel.rlLevel 17 = 2 := by
    decide +kernel
  have hreach := reaches_of_runOps hw
  exact ⟨w, hreach, hpc, h16, h17, hlevel,
    mutual_exclusion objectStart_fresh (fun _ => rfl) hreach⟩

/-- The system with another `rl_level`. -/
def atLevel (s : System) (l : Addr) (n : Nat) : System :=
  { s with kernel := { s.kernel with rlLevel := Function.update s.kernel.rlLevel l n } }

section

variable (hcall : s.mayCall l .rlock = true) (hval : s.kernel.lVal l = true)
  (howner : s.kernel.ownerThread l = some s.current)
include hcall hval howner

theorem atLevel_step (n : Nat) :
    (atLevel s l n).step (.rlock l) = some (atLevel s l ((n + 1) % 65536)) := by
  have hrlock : (atLevel s l n).kernel.rlock l =
      some (true, (atLevel s l ((n + 1) % 65536)).kernel) := by
    simp only [Kernel.rlock]
    rw [if_pos (show (atLevel s l n).kernel.lVal l = true from hval),
      if_pos (show (atLevel s l n).kernel.ownerThread l = some (atLevel s l n).kernel.current from
        howner)]
    simp [atLevel]
  have hpc : update s.pc s.current .out = s.pc :=
    update_eq_self_iff.mpr (mayCall_iff.mp hcall).1.symm
  simp only [System.step]
  rw [if_pos (show (atLevel s l n).mayCall l .rlock = true from hcall), hrlock]
  show some (System.mk _ (update s.pc s.current .out)) = _
  rw [hpc]
  rfl

theorem atLevel_run (hshort : s.kernel.rlLevel l < 65536) (n : Nat) :
    Reaches System.watch (fun _ _ => True) (s, h) (atLevel s l ((s.kernel.rlLevel l + n) % 65536),
      h.setDepth l s.current (h.depth l s.current + n)) := by
  induction n with
  | zero =>
    have hs : atLevel s l ((s.kernel.rlLevel l + 0) % 65536) = s := by
      unfold atLevel
      rw [Nat.add_zero, Nat.mod_eq_of_lt hshort, update_eq_self]
    have hh : h.setDepth l s.current (h.depth l s.current + 0) = h := by
      unfold History.setDepth
      rw [Nat.add_zero, update_eq_self, update_eq_self]
    rw [hs, hh]
    exact Reaches.refl _
  | succ n ih =>
    refine ih.snoc (a := .rlock l) trivial ?_
    unfold System.watch
    rw [atLevel_step hcall hval howner]
    have hmod : ((s.kernel.rlLevel l + n) % 65536 + 1) % 65536 =
        (s.kernel.rlLevel l + (n + 1)) % 65536 := by omega
    have hpc : (atLevel s l ((s.kernel.rlLevel l + (n + 1)) % 65536)).pc s.current = .out :=
      (mayCall_iff.mp hcall).1
    rw [hmod]
    simp only [map_some, System.note]
    rw [show (atLevel s l ((s.kernel.rlLevel l + n) % 65536)).current = s.current from rfl, if_pos hpc]
    unfold History.enter History.setDepth
    simp [Nat.add_assoc]

end

/-- **`rl_level` wraps.** A thread takes a recursive lock 65537 times and gives it back once: the lock
    is free, and the other thread gets it. -/
theorem rlock_wraps : Fresh objectStart ∧ (∀ l, objectStart.kernel.rlLevel l = 0) ∧
    ∃ w, Reaches System.watch (fun _ _ => True) (objectStart, History.start) w ∧
      w.1.kernel.slType 17 = .rlock ∧ w.2.depth 17 2 = 65536 ∧ w.2.depth 17 3 = 1 ∧
      w.1.kernel.ownerThread 17 = some 3 ∧ w.1.kernel.rlLevel 17 = 1 := by
  refine ⟨objectStart_fresh, fun _ => rfl, ?_⟩
  -- The state after the first `rlock`, and what follows from it after 65536 more.
  obtain ⟨v, hv, ⟨hcur, hcall, hval, howner, hlevel, hdepth⟩, w, hw, hend⟩ :
      ∃ v ∈ runOps System.watch (fun _ _ => True) (objectStart, History.start) [.preempt, .rlock 17],
        (v.1.current = 2 ∧ v.1.mayCall 17 .rlock = true ∧ v.1.kernel.lVal 17 = true ∧
          v.1.kernel.ownerThread 17 = some 2 ∧ v.1.kernel.rlLevel 17 = 1 ∧ v.2.depth 17 2 = 1) ∧
        ∃ w ∈ runOps System.watch (fun _ _ => True) (v.1, v.2.setDepth 17 2 65537)
          [.runlock 17, .preempt, .rlock 17],
          w.1.kernel.slType 17 = .rlock ∧ w.2.depth 17 2 = 65536 ∧ w.2.depth 17 3 = 1 ∧
            w.1.kernel.ownerThread 17 = some 3 ∧ w.1.kernel.rlLevel 17 = 1 := by decide +kernel
  have hround := atLevel_run (h := v.2) hcall hval (howner.trans (congrArg some hcur.symm))
    (by rw [hlevel]; decide) 65536
  have hsame : atLevel v.1 17 ((v.1.kernel.rlLevel 17 + 65536) % 65536) = v.1 := by
    unfold atLevel
    rw [Nat.add_mod_right, hlevel, Nat.mod_eq_of_lt (by decide), ← hlevel, update_eq_self]
  rw [hsame, hcur, hdepth] at hround
  refine ⟨w, ?_, hend⟩
  exact ((reaches_of_runOps hv).trans hround).trans (reaches_of_runOps hw)

end AtomOs
