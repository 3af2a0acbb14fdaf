import AtomOs.Sync.LockInv

/-!
# Priority inheritance

A thread that has to wait for a lock lends its priority to the owner, and along the chain of owners
that wait themselves (`lend_priority`). It does so once, when it goes to sleep.

**`owners_inherit`**: in every run in which no tick lowers the priority of a thread that others wait
for, and in which `unlock` is not interrupted before its end, an owner has at least the priority of
every thread that waits for it, directly or along a chain, and a thread that owns nothing has
inherited nothing.

Without the condition on ticks this fails: a waiting thread that had no priority to lend when it
went to sleep is overtaken when the owner has used up its time slice (`owner_decays`).
-/

namespace AtomOs

open Lib Threads Kernel Function Option

/-- The tick does not lower the priority of the running thread, or nobody waits for it: its time
    slice is not used up, or it owns no lock with a queue, or it runs with its lowest or with an
    inherited priority. -/
def TickKeeps (k : Kernel) : Prop :=
  20 < k.threads.scTqleft k.current ∨
  (∀ l, k.ownerThread l = some k.current → k.threads.queues.head (.obj l) = none) ∨
  k.threads.scCpupri k.current ≤ max (k.threads.scInhpri k.current)
    (basepri (k.threads.scCid k.current))

/-- Threads use `_lock`, `unlock`, `rlock` and `runlock`; `unlock` runs to its end; and ticks do not
    lower the priority of a thread that others wait for. -/
def InheritOk (s : System) : System.Op → Prop
  | .lock _ | .unlock _ | .rlock _ | .runlock _ | .goOn | .preempt | .recompute => True
  | .tick => TickKeeps s.kernel
  | .unlockCut _ | .trylock _ | .eventSleep _ _ | .eventWakeup _ => False

/-- Nobody owns anything or waits for anything, and no priority is above that of its class. -/
structure Fresh (s : System) : Prop where
  runs : ∃ q, Runs s.kernel.threads q ∧ ∀ a, q (.obj a) = []
  unowned : ∀ l, s.kernel.ownerThread l = none
  unlocked : ∀ l, s.kernel.lVal l = false
  lists : ∀ t, s.kernel.ktSynchobjlist t = none
  channel : ∀ t, s.kernel.threads.ktSlpchannel t = none
  inhpri : ∀ t, s.kernel.threads.scInhpri t = 0
  bounded : ∀ t, s.kernel.threads.scCpupri t ≤ maxpri (s.kernel.threads.scCid t)
  out : ∀ t, s.pc t = .out

variable {k : Kernel} {q : Chan → List Addr} {o : Addr → List Addr} {l : Addr} {s s' : System}

theorem Fresh.lockOk (h : Fresh s) :
    ∃ q, LockOk s.kernel q (fun _ => []) ∧ ∀ a, q (.obj a) = [] := by
  obtain ⟨q, hruns, hobj⟩ := h.runs
  have hno : ∀ {t l}, t ∉ q (.obj l) := fun {t l} ht => by
    rw [hobj] at ht
    cases ht
  refine ⟨q, ⟨hruns, ⟨fun _ => none, fun t => h.lists t, fun _ => rfl, fun _ => List.nodup_nil,
    fun hx => by cases hx⟩, fun l t => ?_, fun l => ?_, fun ht => absurd ht hno,
    fun ht => absurd ht hno, fun {l t} _ hc => ?_, fun ht => absurd ht hno⟩, hobj⟩
  · rw [h.unowned]
    simp
  · rw [h.unowned, h.unlocked]
    simp
  · rw [h.channel] at hc
    cases hc

/-! ## What one segment keeps -/

/-- Every owner has the priority of those that wait for it, and who owns nothing has inherited
    nothing. -/
structure Inherits (k : Kernel) (q : Chan → List Addr) (o : Addr → List Addr) : Prop where
  lock : LockOk k q o
  lent : Lent k q
  bounded : ∀ t, k.threads.scCpupri t ≤ maxpri (k.threads.scCid t)
  base : ∀ t, o t = [] → k.threads.scInhpri t = 0

theorem Inherits.take (h : Inherits k q o) (hval : k.lVal l ≠ true) :
    Inherits (k.take l) q (update o k.current (l :: o k.current)) := by
  obtain ⟨hnone, -, hempty⟩ := h.lock.free hval
  refine ⟨h.lock.take hval, fun l' t w hl ht hw => ?_, h.bounded, fun t ht => ?_⟩
  · have ht' : update k.ownerThread l (some k.current) l' = some t := ht
    by_cases he : l' = l
    · subst he
      rw [hempty hl] at hw
      cases hw
    · rw [update_of_ne he] at ht'
      exact h.lent l' t w hl ht' hw
  · by_cases he : t = k.current
    · rw [he, update_self] at ht
      cases ht
    · rw [update_of_ne he] at ht
      exact h.base t ht

theorem Inherits.block (h : Inherits k q o) (hcid : k.threads.scCid k.current ≠ .idle)
    (hval : k.lVal l = true) :
    ∃ t q', k.block l = some { k with threads := t } ∧ Inherits { k with threads := t } q' o ∧
      t.scCid = k.threads.scCid := by
  obtain ⟨t, q', hrun, hok, -, hcpu, hcid', hlent, hinh⟩ := h.lock.block hcid hval
  refine ⟨t, q', hrun, ⟨hok, hlent h.lent, fun x => ?_, fun x hx => ?_⟩, hcid'⟩
  · show t.scCpupri x ≤ maxpri (t.scCid x)
    rw [hcpu, hcid']
    exact h.bounded x
  · rw [← h.base x hx]
    by_contra hne
    obtain ⟨l, hl⟩ := hinh x hne
    have hmem := (h.lock.owner_iff l x).mp hl
    rw [hx] at hmem
    cases hmem

/-- What a thread that owns nothing inherited is dropped: nobody waits for it, and it waits for
    nobody. -/
theorem Inherits.dropInherited (hlock : LockOk k q o) (hlent : Lent k q)
    (hbounded : ∀ t, k.threads.scCpupri t ≤ maxpri (k.threads.scCid t))
    (hbase : ∀ t, t ≠ k.current → o t = [] → k.threads.scInhpri t = 0) :
    Inherits k.dropInherited q o := by
  obtain ⟨hok, hinh⟩ := hlock.dropInherited
  have hsame : k.dropInherited.threads.scCpupri = k.threads.scCpupri ∧
      k.dropInherited.threads.scCid = k.threads.scCid ∧ k.dropInherited.ownerThread = k.ownerThread ∧
      k.dropInherited.slType = k.slType := by
    unfold Kernel.dropInherited
    split <;> exact ⟨rfl, rfl, rfl, rfl⟩
  obtain ⟨hcpu, hcid, howner, htype⟩ := hsame
  refine ⟨hok, fun l t w hl ht hw => ?_, fun t => ?_, fun t ht => ?_⟩
  · have hl' : k.IsLock l := by
      unfold IsLock at hl ⊢
      rwa [htype] at hl
    rw [howner] at ht
    have htne : ¬ (t = k.current ∧ o t = []) := fun hno => by
      have hmem := (hlock.owner_iff l t).mp ht
      rw [hno.2] at hmem
      cases hmem
    have hwne : ¬ (w = k.current ∧ o w = []) := fun hno => by
      rw [hno.1] at hw
      exact hlock.runs.current_free (.obj l) hw
    have hold := hlent l t w hl' ht hw
    rw [priority_eq_max, priority_eq_max] at hold ⊢
    rw [hinh, hinh, if_neg htne, if_neg hwne, hcpu]
    exact hold
  · rw [hcpu, hcid]
    exact hbounded t
  · rw [hinh]
    split
    · rfl
    · rename_i hno
      exact hbase t (fun he => hno ⟨he, ht⟩) ht

theorem dropInherited_cid (k : Kernel) : k.dropInherited.threads.scCid = k.threads.scCid := by
  unfold Kernel.dropInherited
  split <;> rfl

theorem Inherits.release (h : Inherits k q o) (howner : k.ownerThread l = some k.current) :
    ∃ k' q' o', k.release l = some k' ∧ Inherits k'.dropInherited q' o' ∧
      k'.threads.scCid = k.threads.scCid := by
  obtain ⟨k', q', hrun, hok, hr⟩ := h.lock.release howner
  have hcur : k'.current = k.current := hr.current
  refine ⟨k', q', _, hrun, Inherits.dropInherited hok (fun l' t w hl ht hw => ?_) (fun t => ?_)
    (fun t ht hnil => ?_), hr.cid⟩
  · have hl' : k.IsLock l' := by
      unfold IsLock at hl ⊢
      rwa [hr.type] at hl
    rw [hr.queues] at hw
    rw [hr.owner] at ht
    by_cases he : l' = l
    · rw [he, update_self] at ht
      cases ht
    rw [update_of_ne he] at ht
    rw [update_of_ne (by simpa using he)] at hw
    have hold := h.lent l' t w hl' ht hw
    rw [priority_eq_max, priority_eq_max] at hold ⊢
    rw [hr.cpupri, hr.inhpri]
    exact hold
  · rw [hr.cpupri, hr.cid]
    exact h.bounded t
  · rw [hcur] at ht
    rw [update_of_ne ht] at hnil
    rw [hr.inhpri]
    exact h.base t hnil

theorem Inherits.drop (h : Inherits k q o) : Inherits k.dropInherited q o :=
  Inherits.dropInherited h.lock h.lent h.bounded fun t _ => h.base t

theorem Inherits.level (h : Inherits k q o) (f : Addr → Nat) : Inherits { k with rlLevel := f } q o :=
  ⟨h.lock.level f, h.lent, h.bounded, h.base⟩

/-! ## Segments -/

/-- The invariant holds with some queues and lists, and the classes are those of `k`. -/
def InheritsFrom (k k' : Kernel) : Prop :=
  (∃ q o, Inherits k' q o) ∧ k'.threads.scCid = k.threads.scCid

variable {r : Bool × Kernel} {k' : Kernel}

section

variable (h : Inherits k q o)
include h

theorem Inherits.lockStep (hcid : k.threads.scCid k.current ≠ .idle)
    (hrun : k.lock l = some r) : InheritsFrom k r.2 := by
  unfold Kernel.lock at hrun
  split at hrun
  · rename_i hval
    obtain ⟨t, q', hblock, hok, hcid'⟩ := h.block hcid hval
    rw [hblock] at hrun
    cases hrun
    exact ⟨⟨q', o, hok⟩, hcid'⟩
  · rename_i hval
    cases hrun
    exact ⟨⟨q, _, h.take hval⟩, rfl⟩

theorem Inherits.unlockStep (hrun : k.unlock l = some k') : InheritsFrom k k' := by
  obtain ⟨k1, hk1, rfl⟩ := map_eq_some_iff.mp hrun
  unfold Kernel.unlockOwned at hk1
  split at hk1
  · rename_i howner
    obtain ⟨k2, q', o', hk2, hok, hcid⟩ := h.release howner
    cases hk2.symm.trans hk1
    exact ⟨⟨q', o', hok⟩, (dropInherited_cid _).trans hcid⟩
  · cases hk1
    exact ⟨⟨q, o, h.drop⟩, dropInherited_cid _⟩

theorem Inherits.rlockStep (hcid : k.threads.scCid k.current ≠ .idle)
    (hrun : k.rlock l = some r) : InheritsFrom k r.2 := by
  unfold Kernel.rlock at hrun
  split at hrun
  · rename_i hval
    split at hrun
    · cases hrun
      exact ⟨⟨q, o, h.level _⟩, rfl⟩
    · obtain ⟨t, q', hblock, hok, hcid'⟩ := h.block hcid hval
      rw [hblock] at hrun
      cases hrun
      exact ⟨⟨q', o, hok⟩, hcid'⟩
  · rename_i hval
    cases hrun
    exact ⟨⟨q, _, (h.level _).take hval⟩, rfl⟩

theorem Inherits.runlockStep (hrun : k.runlock l = some k') : InheritsFrom k k' := by
  unfold Kernel.runlock at hrun
  obtain ⟨k1, hk1, rfl⟩ := map_eq_some_iff.mp hrun
  split at hk1
  · rename_i howner
    have hlevel := h.level (update k.rlLevel l ((k.rlLevel l + 65535) % 65536))
    split at hk1
    · obtain ⟨k2, q', o', hk2, hok, hcid⟩ := hlevel.release howner
      cases hk2.symm.trans hk1
      exact ⟨⟨q', o', hok⟩, (dropInherited_cid _).trans hcid⟩
    · cases hk1
      exact ⟨⟨q, o, hlevel.drop⟩, dropInherited_cid _⟩
  · cases hk1
    exact ⟨⟨q, o, h.drop⟩, dropInherited_cid _⟩

/-! ## The clock -/

theorem Inherits.preempt : InheritsFrom k { k with threads := k.threads.scheduler } := by
  obtain ⟨q', hok, hobj⟩ := h.lock.preempt
  have hsame := sameThreads_scheduler k.threads
  refine ⟨⟨q', o, hok,
    fun l t w hl ht hw => ?_, fun t => ?_, fun t ht => ?_⟩, hsame.cid⟩
  · rw [hobj] at hw
    have hold := h.lent l t w hl ht hw
    rw [priority_eq_max, priority_eq_max] at hold ⊢
    show max (k.threads.scheduler.scCpupri w) _ ≤ max (k.threads.scheduler.scCpupri t) _
    rw [hsame.cpupri, hsame.inhpri]
    exact hold
  · show k.threads.scheduler.scCpupri t ≤ maxpri (k.threads.scheduler.scCid t)
    rw [hsame.cpupri, hsame.cid]
    exact h.bounded t
  · show k.threads.scheduler.scInhpri t = 0
    rw [hsame.inhpri]
    exact h.base t ht

/-- Raising the priorities of ready threads lowers nobody's, and no ready thread waits. -/
theorem Inherits.recompute {t : Threads} (hrun : k.threads.recompute = some t) :
    InheritsFrom k { k with threads := t } := by
  obtain ⟨u, q', hu, hok, hobj, hf⟩ := h.lock.recompute
  obtain rfl : u = t := Option.some.inj (hu.symm.trans hrun)
  have hge : ∀ x, k.threads.scCpupri x ≤ u.scCpupri x := fun x => by
    have hraised := (hf.raised x).1
    rwa [min_eq_left (h.bounded x)] at hraised
  refine ⟨⟨q', o, hok, fun l t w hl ht hw => ?_, fun x => ?_, fun x hx => ?_⟩, hf.cid⟩
  · rw [hobj] at hw
    have hold := h.lent l t w hl ht hw
    have hw' : u.scCpupri w = k.threads.scCpupri w :=
      hf.kept w (by rw [h.lock.waiting.asleep hw]; simp)
    rw [priority_eq_max, priority_eq_max] at hold ⊢
    show max (u.scCpupri w) (u.scInhpri w) ≤ max (u.scCpupri t) (u.scInhpri t)
    rw [hf.inhpri, hw']
    exact hold.trans (max_le_max_right _ (hge t))
  · have hcap := (hf.raised x).2
    rw [max_eq_right (h.bounded x), ← hf.cid] at hcap
    exact hcap
  · show u.scInhpri x = 0
    rw [hf.inhpri]
    exact h.base x hx

theorem Inherits.tick (hkeep : TickKeeps k) :
    InheritsFrom k { k with threads := rrClTick k.threads.currentThread k.threads } := by
  have hok := h.lock.tick
  obtain ⟨-, -, hinh, hcid⟩ := rrClTick_keeps k.threads.currentThread k.threads
  have hcpu : (rrClTick k.threads.currentThread k.threads).scCpupri =
      if k.threads.scTqleft k.current - 20 ≤ 0 then update k.threads.scCpupri k.current
        (max (k.threads.scCpupri k.current - 10) (basepri (k.threads.scCid k.current)))
      else k.threads.scCpupri := by
    unfold rrClTick
    simp only
    split <;> rename_i hleft
    · rw [if_pos (show k.threads.scTqleft k.current - 20 ≤ 0 from hleft)]
      rfl
    · rw [if_neg (show ¬ k.threads.scTqleft k.current - 20 ≤ 0 from hleft)]
  generalize rrClTick k.threads.currentThread k.threads = u at *
  have hother : ∀ {x}, x ≠ k.current → u.scCpupri x = k.threads.scCpupri x := by
    intro x hx
    rw [hcpu]
    split
    · exact update_of_ne hx _ _
    · rfl
  refine ⟨⟨q, o, hok, fun l t w hl ht hw => ?_, fun x => ?_, fun x hx => ?_⟩, hcid⟩
  · have hold := h.lent l t w hl ht hw
    have hwne : w ≠ k.current := fun he => h.lock.runs.current_free (.obj l) (by rwa [he] at hw)
    rw [priority_eq_max, priority_eq_max] at hold ⊢
    show max (u.scCpupri w) (u.scInhpri w) ≤ max (u.scCpupri t) (u.scInhpri t)
    rw [hinh, hother hwne]
    by_cases htc : t = k.current
    · subst htc
      rcases hkeep with hleft | hnone | hlow
      · rw [hcpu, if_neg (by omega)]
        exact hold
      · have hhead := hnone l ht
        rw [h.lock.runs.ready.holds.head_eq, List.head?_eq_none_iff] at hhead
        rw [hhead] at hw
        cases hw
      · rw [hcpu]
        split
        · rw [update_self]
          omega
        · exact hold
    · rw [hother htc]
      exact hold
  · show u.scCpupri x ≤ maxpri (u.scCid x)
    rw [hcid]
    have hmax := h.bounded x
    by_cases hx : x = k.current
    · subst hx
      rw [hcpu]
      split
      · rw [update_self]
        refine max_le (by omega) ?_
        cases k.threads.scCid k.current <;> simp [basepri, maxpri]
      · exact hmax
    · rw [hother hx]
      exact hmax
  · show u.scInhpri x = 0
    rw [hinh]
    exact h.base x hx

end

/-! ## Runs -/

/-- The invariant of runs. Threads that are inside of a function that can block are not idle
    threads. -/
structure InheritInv (s : System) : Prop where
  inherits : ∃ q o, Inherits s.kernel q o
  busy : ∀ t, s.pc t ≠ .out → s.kernel.threads.scCid t ≠ .idle

theorem InheritInv.after (h : InheritInv s) {pc : Pc} (hk : InheritsFrom s.kernel k')
    (hpc : pc ≠ .out → s.kernel.threads.scCid s.current ≠ .idle) : InheritInv (s.after pc k') := by
  refine ⟨hk.1, fun t ht => ?_⟩
  show k'.threads.scCid t ≠ .idle
  rw [hk.2]
  have ht' : update s.pc s.current pc t ≠ .out := ht
  by_cases he : t = s.current
  · rw [he, update_self] at ht'
    rw [he]
    exact hpc ht'
  · rw [update_of_ne he] at ht'
    exact h.busy t ht'

theorem InheritInv.clock (h : InheritInv s) (hk : InheritsFrom s.kernel k') :
    InheritInv { s with kernel := k' } :=
  ⟨hk.1, fun t ht => by
    show k'.threads.scCid t ≠ .idle
    rw [hk.2]
    exact h.busy t ht⟩

theorem mayCall_iff {type : SynchType} : s.mayCall l type = true ↔
    s.pc s.current = .out ∧ s.kernel.threads.scCid s.current ≠ .idle ∧ s.kernel.slType l = type := by
  unfold System.mayCall
  rw [decide_eq_true_iff]

theorem mayCall_some {α : Type} {type : SynchType} {m : Option α} {f : α → System}
    (hstep : (if s.mayCall l type then m.map f else none) = some s') :
    (s.pc s.current = .out ∧ s.kernel.threads.scCid s.current ≠ .idle ∧ s.kernel.slType l = type) ∧
      ∃ r, m = some r ∧ f r = s' := by
  obtain ⟨hcall, hstep⟩ := ite_none_right_eq_some.mp hstep
  exact ⟨mayCall_iff.mp hcall, map_eq_some_iff.mp hstep⟩

theorem InheritInv.goOn (h : InheritInv s) (hstep : s.goOn = some s') : InheritInv s' := by
  obtain ⟨q, o, hk⟩ := h.inherits
  unfold System.goOn at hstep
  split at hstep
  · cases hstep
  · rename_i l hpc
    have hcid := h.busy s.current (by rw [hpc]; simp)
    obtain ⟨r, hr, rfl⟩ := map_eq_some_iff.mp hstep
    exact h.after (hk.lockStep hcid hr) fun _ => hcid
  · rename_i l hpc
    have hcid := h.busy s.current (by rw [hpc]; simp)
    obtain ⟨r, hr, rfl⟩ := map_eq_some_iff.mp hstep
    exact h.after (hk.rlockStep hcid hr) fun _ => hcid
  · cases hstep
    exact h.after ⟨h.inherits, rfl⟩ fun hno => absurd rfl hno
  · rename_i l hpc
    have hcid := h.busy s.current (by rw [hpc]; simp)
    obtain ⟨r, hr, rfl⟩ := map_eq_some_iff.mp hstep
    exact h.after (hk.lockStep hcid hr) fun _ => hcid
  · cases hstep
    exact h.after ⟨⟨q, o, hk.drop⟩, dropInherited_cid _⟩ fun hno => absurd rfl hno

theorem InheritInv.step (h : InheritInv s) {op : System.Op} (hop : InheritOk s op)
    (hstep : s.step op = some s') : InheritInv s' := by
  obtain ⟨q, o, hk⟩ := h.inherits
  cases op with
  | lock l =>
    obtain ⟨⟨-, hcid, -⟩, r, hr, rfl⟩ := mayCall_some hstep
    exact h.after (hk.lockStep hcid hr) fun _ => hcid
  | unlock l =>
    obtain ⟨-, r, hr, rfl⟩ := mayCall_some hstep
    exact h.after (hk.unlockStep hr) fun hno => absurd rfl hno
  | rlock l =>
    obtain ⟨⟨-, hcid, -⟩, r, hr, rfl⟩ := mayCall_some hstep
    exact h.after (hk.rlockStep hcid hr) fun _ => hcid
  | runlock l =>
    obtain ⟨-, r, hr, rfl⟩ := mayCall_some hstep
    exact h.after (hk.runlockStep hr) fun hno => absurd rfl hno
  | goOn => exact h.goOn hstep
  | preempt =>
    cases hstep
    exact h.clock hk.preempt
  | tick =>
    cases hstep
    exact h.clock (hk.tick hop)
  | recompute =>
    obtain ⟨t, ht, rfl⟩ := map_eq_some_iff.mp hstep
    exact h.clock (hk.recompute ht)
  | trylock | unlockCut | eventSleep | eventWakeup => exact absurd hop id

/-- `w` waits for a lock that `t` owns. -/
def WaitsFor (k : Kernel) (q : Chan → List Addr) (w t : Addr) : Prop :=
  ∃ l, k.IsLock l ∧ w ∈ q (.obj l) ∧ k.ownerThread l = some t

theorem Fresh.inheritInv {s₀ : System} (hfresh : Fresh s₀) (hreach : Reaches System.step InheritOk s₀ s) :
    InheritInv s := by
  refine hreach.invariant InheritInv ?_ fun h hop hstep => h.step hop hstep
  obtain ⟨q, hok, hobj⟩ := hfresh.lockOk
  refine ⟨⟨q, fun _ => [], hok, fun l t w _ ht => ?_, hfresh.bounded, fun t _ => hfresh.inhpri t⟩,
    fun t ht => absurd (hfresh.out t) ht⟩
  rw [hfresh.unowned] at ht
  cases ht

/-- **Priority inheritance.** In every run as above, a thread that others wait for, directly or along
    a chain of owners that wait, has at least the priority of each of them; and a thread that owns
    no lock has inherited nothing. -/
theorem owners_inherit {s₀ : System} (hfresh : Fresh s₀) (hreach : Reaches System.step InheritOk s₀ s) :
    ∃ q, s.kernel.threads.queues.Holds q ∧
      (∀ w t, Relation.TransGen (WaitsFor s.kernel q) w t →
        s.kernel.threads.priority w ≤ s.kernel.threads.priority t) ∧
      ∀ t, (∀ l, s.kernel.ownerThread l ≠ some t) → s.kernel.threads.scInhpri t = 0 := by
  obtain ⟨q, o, hk⟩ := (hfresh.inheritInv hreach).inherits
  refine ⟨q, hk.lock.runs.ready.holds, fun w t hwt => ?_, fun t ht => ?_⟩
  · induction hwt with
    | single hwt =>
      obtain ⟨l, hl, hw, ht⟩ := hwt
      exact hk.lent l _ w hl ht hw
    | tail _ hlast ih =>
      obtain ⟨l, hl, hu, ht⟩ := hlast
      exact ih.trans (hk.lent l _ _ hl ht hu)
  · refine hk.base t (List.eq_nil_iff_forall_not_mem.mpr fun l hl => ?_)
    exact ht l ((hk.lock.owner_iff l t).mpr hl)

/-! ## A run with lending, and one where it is not enough -/

/-- Two user threads are ready, with the priorities 20 and 15, and the idle thread runs. -/
def lockStart : System :=
  { kernel :=
      { threads := readyUsers 15 10
        slType := fun _ => .lock
        slNext := fun _ => none
        slPrev := fun _ => none
        ktSynchobjlist := fun _ => none
        lVal := fun _ => false
        ownerThread := fun _ => none
        rlLevel := fun _ => 0 }
    pc := fun _ => .out }

theorem lockStart_fresh : Fresh lockStart := by
  refine ⟨readyUsers_runs (by decide) (by decide), fun _ => rfl, fun _ => rfl, fun _ => rfl,
    fun t => ?_, fun _ => rfl, fun t => ?_, fun _ => rfl⟩
  · show update (update (fun _ => none) 2 none) 3 none t = none
    simp
  · have hcid : lockStart.kernel.threads.scCid t = if t = 1 then .idle else .user := rfl
    have hcpu : lockStart.kernel.threads.scCpupri t =
        if t = 3 then 15 else if t = 2 then 20 else 0 := by
      show update (update (twoUsers 15 10).scCpupri 2 20) 3 15 t = _
      rw [update_apply, update_apply]
      split
      · rfl
      · split
        · rfl
        · rename_i h3 h2
          simp [twoUsers, h2, h3]
    rw [hcid, hcpu]
    split
    · rename_i h3
      simp [h3, maxpri]
    · split
      · rename_i h2
        simp [h2, maxpri]
      · split <;> simp [maxpri]

/-! ## `lend_priority` by itself -/

/-- **`lend_priority` ends**, also where locks and threads wait in a circle. It gives threads that the
    lock leads to the priority of the current thread, where they have less; a thread that is ready
    moves to the queue for it, and sleeps on nothing. -/
theorem lendPriority_ends {gl : Addr} (hok : ReadyOk k.threads q) (hw : Lined k q)
    (hgl : k.IsLock gl → k.ownerThread gl ≠ none) :
    ∃ s q', lendPriority walkFuel gl k = some { k with threads := s } ∧ ReadyOk s q' ∧
      (∀ a, q' (.obj a) = q (.obj a)) ∧
      (∃ F c h, s = { k.threads with queues := F, ktSlpchannel := c, scInhpri := h }) ∧
      (∀ x, s.ktSlpchannel x = k.threads.ktSlpchannel x ∨
        k.threads.scState x = .ready ∧ s.ktSlpchannel x = none) ∧
      ∀ x, s.scInhpri x = k.threads.scInhpri x ∨ k.threads.scInhpri x < s.scInhpri x ∧
        s.scInhpri x = k.threads.priority k.current ∧ OnChain k x gl := by
  obtain ⟨s, q', hrun, hok', hobj, hf, -, hinh, hsame⟩ :=
    lendPriority_spec hok hw hgl (card_below_lt_walkFuel _ _)
  refine ⟨s, q', hrun, hok', hobj, hsame, fun x => ?_, fun x => ?_⟩
  · by_cases hx : k.threads.scState x = .ready
    · exact (hf.cleared x).imp_right fun hnone => ⟨hx, hnone⟩
    · exact .inl (hf.channel x hx)
  · by_cases hx : s.scInhpri x = k.threads.scInhpri x
    · exact .inl hx
    · exact .inr ⟨lt_of_le_of_ne (hf.inhpri x) (Ne.symm hx), hinh x hx⟩

/-- The operations that take no processor time of the running thread. -/
def quiet : System.Op → Bool
  | .lock _ | .unlock _ | .rlock _ | .runlock _ | .goOn | .preempt | .recompute => true
  | _ => false

/-- **A circle**: thread 2, of priority 20, owns the lock 24, for which thread 3 sleeps, and asks for the lock
    16 of thread 3. The loop goes round once; thread 3 has priority 20 then, and not 15. -/
theorem lendPriority_ends_lender : ∃ (k : Kernel) (s : Threads) (q' : Chan → List Addr),
    k.current = 2 ∧ k.ownerThread 16 = some 3 ∧ k.threads.ktSlpchannel 3 = some 24 ∧
      k.ownerThread 24 = some 2 ∧ k.threads.priority 3 = 15 ∧
      lendPriority walkFuel 16 k = some { k with threads := s } ∧ ReadyOk s q' ∧ s.scInhpri 3 = 20 := by
  obtain ⟨s₀, hs, hcur, hmine, hchan, hother, hpri, hlent⟩ : ∃ s ∈ runOps System.step
      (fun _ op => quiet op = true) lockStart [.preempt, .lock 24, .preempt, .lock 16, .lock 24],
      s.kernel.current = 2 ∧ s.kernel.ownerThread 16 = some 3 ∧
        s.kernel.threads.ktSlpchannel 3 = some 24 ∧ s.kernel.ownerThread 24 = some 2 ∧
        s.kernel.threads.priority 3 = 15 ∧
        (lendPriority walkFuel 16 s.kernel).map (fun k => k.threads.scInhpri 3) = some 20 := by
    decide +kernel
  have hreach : Reaches System.step InheritOk lockStart s₀ :=
    (reaches_of_runOps hs).mono fun _ op hop => by
      cases op <;> trivial
  obtain ⟨q, o, hk⟩ := (lockStart_fresh.inheritInv hreach).inherits
  have howned : s₀.kernel.IsLock 16 → s₀.kernel.ownerThread 16 ≠ none := fun _ => by simp [hmine]
  obtain ⟨s, q', hrun, hok, -⟩ := lendPriority_ends hk.lock.runs.ready hk.lock.waiting.lined howned
  refine ⟨s₀.kernel, s, q', hcur, hmine, hchan, hother, hpri, hrun, hok, ?_⟩
  simpa [hrun] using hlent

theorem owners_inherit_lent : ∃ s, Reaches System.step InheritOk lockStart s ∧
    s.kernel.threads.scCpupri 3 = 15 ∧ s.kernel.threads.queues.head (.obj 16) = some 2 ∧
    s.kernel.threads.priority 2 ≤ s.kernel.threads.priority 3 := by
  obtain ⟨s, hs, hcpu, hhead, howner, htype⟩ : ∃ s ∈ runOps System.step
      (fun _ op => quiet op = true) lockStart [.preempt, .preempt, .lock 16, .preempt, .lock 16],
      s.kernel.threads.scCpupri 3 = 15 ∧ s.kernel.threads.queues.head (.obj 16) = some 2 ∧
        s.kernel.ownerThread 16 = some 3 ∧ s.kernel.slType 16 = .lock := by decide +kernel
  have hreach : Reaches System.step InheritOk lockStart s :=
    (reaches_of_runOps hs).mono fun _ op hop => by
      cases op <;> trivial
  obtain ⟨q, hq, hlent, -⟩ := owners_inherit lockStart_fresh hreach
  refine ⟨s, hreach, hcpu, hhead, hlent 2 3 (.single ⟨16, .inl htype, ?_, howner⟩)⟩
  rw [hq.head_eq] at hhead
  exact List.mem_of_head? hhead

/-- Locks, recursive locks and the clock. -/
def lockOps : System.Op → Bool
  | .trylock _ | .eventSleep _ _ | .eventWakeup _ => false
  | _ => true

/-- The thread with priority 20 takes a lock; the one with 15 has to wait for it, and lends nothing.
    After five ticks the owner has priority 10. -/
theorem owner_decays : Fresh lockStart ∧
    ∃ s, Reaches System.step (fun _ op => lockOps op = true) lockStart s ∧
      s.kernel.IsLock 16 ∧ s.kernel.ownerThread 16 = some 2 ∧
      s.kernel.threads.queues.head (.obj 16) = some 3 ∧
      s.kernel.threads.priority 2 < s.kernel.threads.priority 3 := by
  obtain ⟨s, hs, htype, hend⟩ : ∃ s ∈ runOps System.step (fun _ op => lockOps op = true) lockStart
      [.preempt, .lock 16, .preempt, .lock 16, .tick, .tick, .tick, .tick, .tick],
      s.kernel.slType 16 = .lock ∧ s.kernel.ownerThread 16 = some 2 ∧
        s.kernel.threads.queues.head (.obj 16) = some 3 ∧
        s.kernel.threads.priority 2 < s.kernel.threads.priority 3 := by decide +kernel
  exact ⟨lockStart_fresh, s, reaches_of_runOps hs, .inl htype, hend⟩

end AtomOs
