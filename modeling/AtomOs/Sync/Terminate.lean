import AtomOs.Sync.Inherit

/-!
# Killing a thread

`terminate_thread` looks for the thread in its ready queue or in the queue of what it sleeps on. If the
thread is in neither it looks again, with interrupts disabled, so that nothing changes: it ends only if the
state of the thread and its `kt_slpchannel` say where it is. **`terminate_ends`** says that they do for a
ready thread, and for one that sleeps with a `kt_slpchannel`, whatever threads have done before.
`syscall_tsleep` and `pthread_barrier_wait` leave it `NULL`, and then the loop does not end
(`terminate_stuck`). A thread that calls it for itself takes another branch (`exitThread`), in which it
stops running, wakes `thread_terminate_handler` and gives `termthr_lock` back before it is switched away
from.

The steps are calls, or what a call does up to `scheduler`; all of them have interrupts disabled. Two calls
have not. `terminate_thread` enables them between its loop and the store of the new state, which are one
step here. `pthread_cond_signal` enables them before it wakes the thread that it has taken off its queue:
in between the thread sleeps, is in no queue, and its `kt_slpchannel` is wrong. That thread is a part of the
state (`SleepSys.signalled`), and the runs here are those in which the call goes on before anything else
happens.

What a thread owns (`kt_synchobjlist`, in which `sem_wait` and `sem_post` put semaphores too, also those that
another thread put into its own) decides only if `unlock` takes back the inherited priority. No step here
reads it: a thread may lose what it inherited or not, whenever it gives a lock back (`SleepOp.drop`).

In the same runs **`ready_queues_sound`** holds: the ready queues are what states and priorities say.
`syscall_twakeup` of a thread in `event_timed_sleep`, which has a timer too, breaks it (`woken_twice`).
-/

namespace AtomOs

open Lib Threads Kernel Function Option

/-- The search for a thread along the links of a queue. -/
def Threads.onSleepq (s : Threads) (t : Addr) : Nat → Option Addr → Bool
  | _, none => false
  | 0, some _ => false
  | fuel + 1, some t1 => t1 = t || s.onSleepq t fuel (s.queues.next t1)

/-- A round of the loop in `terminate_thread`; `none` if the thread has not been found. -/
def terminateRound (t : Addr) (s : Threads) : Option Threads :=
  if s.scState t = .ready ∧ s.procReady t = true then some (delReadyq t s).2
  else if s.scState t = .sleep then
    match s.ktSlpchannel t with
    | none => none
    | some a =>
      if s.onSleepq t walkFuel (s.queues.head (.obj a)) then
        some { s with queues := s.queues.unlink (.obj a) t }
      else none
  else none

/-- `terminate_thread` of another thread, if nothing happens between the loop and the new state. -/
def terminateThread (t : Addr) (s : Threads) : Option Threads :=
  (terminateRound t s).map fun s => s.setState t .terminating

/-- A thread that gives a lock back loses what it inherited, or not. -/
def Kernel.loseInherited (lose : Bool) (k : Kernel) : Kernel :=
  if lose then { k with threads := k.threads.setInhpri k.current 0 } else k

/-- The branch of `terminate_thread` for the current thread, with `terminatehandler_event` at `e` and
    `termthr_lock`, which it has taken, at `l`. -/
def Kernel.exitThread (e l : Addr) (lose : Bool) (k : Kernel) : Option Kernel :=
  match Kernel.eventWakeup e { k with threads := k.threads.setState k.current .terminating } with
  | none => none
  | some k => (k.release l).map fun k =>
      { k.loseInherited lose with threads := (k.loseInherited lose).threads.scheduler }

/-! ## How threads go to sleep and wake up -/

def eventWaitRemoveThread (e t : Addr) (s : Threads) : Threads :=
  if s.onSleepq t walkFuel (s.queues.head (.obj e)) then
    addReadyq t { s with queues := s.queues.unlink (.obj e) t }
  else s

/-- What threads do. `_lock` and `rlock` block or take the lock, and `unlock` and `runlock` release it
    and drop what was inherited. -/
inductive SleepOp
  | block (l : Addr)
  | take (l : Addr)
  | release (l : Addr)
  | drop (lose : Bool)
  /-- `rlock` and `runlock`, by an owner that keeps the lock -/
  | level (l : Addr) (n : Nat)
  /-- `event_sleep`, `event_timed_sleep`, `pthread_cond_wait` (without their lock, or when it has been
      released) and `sem_wait`, up to `scheduler` -/
  | sleep (a : Addr)
  /-- `event_wakeup`, `pthread_cond_broadcast` -/
  | eventWakeup (e : Addr)
  /-- the timer of `event_timed_sleep` has run out -/
  | timeout (e t : Addr)
  /-- `sem_post`, with threads that wait -/
  | semPost (a t : Addr)
  /-- `pthread_cond_signal` up to `STI` -/
  | condSignal (c : Addr)
  /-- `pthread_cond_signal` from there on -/
  | condWake
  | tsleep
  /-- the timer of `syscall_tsleep` has run out -/
  | twakeup (t : Addr)
  /-- `syscall_twakeup`, if it finds a timer -/
  | syscallTwakeup (t : Addr)
  | terminate (t : Addr)
  | exit (e l : Addr) (lose : Bool)
  | preempt
  | tick
  | recompute
  deriving DecidableEq

/-- The kernel, and the thread that `pthread_cond_signal` has taken off its queue and not yet woken. -/
structure SleepSys where
  kernel : Kernel
  signalled : Option Addr

/-- A kernel in which nobody is being signalled. -/
def Kernel.quiet (k : Kernel) : SleepSys := ⟨k, none⟩

/-- The steps that are one call, or one up to `scheduler`. -/
def Kernel.call (k : Kernel) : SleepOp → Option Kernel
  | .block l => k.block l
  | .take l => some (k.take l)
  | .release l => k.release l
  | .drop lose => some (k.loseInherited lose)
  | .level l n => some { k with rlLevel := Function.update k.rlLevel l n }
  | .sleep a => some { k with threads := (sleepOn a k.threads).scheduler }
  | .eventWakeup e => k.eventWakeup e
  | .timeout e t => some { k with threads := eventWaitRemoveThread e t k.threads }
  | .semPost a t => some { k with
      threads := wakeup t { k.threads with queues := (k.threads.queues.take (.obj a)).2 } }
  | .condSignal _ | .condWake => none
  | .tsleep => some { k with threads := (k.threads.setState k.current .sleep).scheduler }
  | .twakeup t => some { k with threads := wakeup t k.threads }
  | .syscallTwakeup t => some { k with threads := addReadyq t k.threads }
  | .terminate t => (terminateThread t k.threads).map fun threads => { k with threads }
  | .exit e l lose => k.exitThread e l lose
  | .preempt => some { k with threads := k.threads.scheduler }
  | .tick => some { k with threads := rrClTick k.threads.currentThread k.threads }
  | .recompute => k.threads.recompute.map fun threads => { k with threads }

def sleepStep (s : SleepSys) : SleepOp → Option SleepSys
  | .condSignal c =>
    let (first, queues) := s.kernel.threads.queues.take (.obj c)
    some ⟨{ s.kernel with threads := { s.kernel.threads with queues } }, first⟩
  | .condWake => s.signalled.map fun t =>
      Kernel.quiet { s.kernel with threads := wakeup t s.kernel.threads }
  | op => (s.kernel.call op).map fun k => { s with kernel := k }

/-- When a thread can do this. The idle thread does not wait, and processes are not suspended. -/
def Kernel.SleepCallOk (k : Kernel) : SleepOp → Prop
  | .block l => k.threads.scCid k.current ≠ .idle ∧ k.lVal l = true
  | .take l => k.lVal l = false
  | .release l => k.ownerThread l = some k.current
  | .sleep a => k.threads.scCid k.current ≠ .idle ∧ k.slType a ≠ .lock ∧ k.slType a ≠ .rlock
  | .semPost a t => k.threads.queues.head (.obj a) = some t ∧ k.threads.procReady t = true
  | .condSignal c => ∀ t ∈ k.threads.queues.head (.obj c), k.threads.procReady t = true
  | .tsleep => k.threads.scCid k.current ≠ .idle
  | .twakeup t => k.threads.scState t = .sleep ∧ k.threads.ktSlpchannel t = none ∧
    k.threads.procReady t = true
  | .syscallTwakeup t => k.threads.scState t = .sleep ∧ k.threads.ktSlpchannel t = none
  | .terminate t => k.threads.scCid t ≠ .idle
  | .exit _ l _ => k.threads.scCid k.current ≠ .idle ∧ k.ownerThread l = some k.current
  | _ => True

/-- The steps of the runs here: while a thread is signalled, it is woken next. -/
def SleepOk (s : SleepSys) (op : SleepOp) : Prop :=
  SleepCallOk s.kernel op ∧ (s.signalled = none ∨ op = .condWake)

instance instDecidableSleepCallOk (k : Kernel) (op : SleepOp) : Decidable (SleepCallOk k op) := by
  cases op <;> unfold SleepCallOk <;> infer_instance

instance instDecidableSleepOk (s : SleepSys) (op : SleepOp) : Decidable (SleepOk s op) :=
  inferInstanceAs (Decidable (_ ∧ _))

variable {k k' : Kernel} {q q' : Chan → List Addr} {o : Addr → List Addr} {s : Threads} {t a : Addr}

theorem onSleepq_eq : ∀ {l : List Addr} {fuel : Nat} {p before : Option Addr},
    DList s.queues.next s.queues.prev p before l → l.length ≤ fuel →
      s.onSleepq t fuel p = decide (t ∈ l)
  | [], fuel, p, before, h, _ => by
    obtain rfl : p = none := h
    unfold Threads.onSleepq
    simp
  | x :: l, 0, p, before, h, hfuel => absurd hfuel (by simp)
  | x :: l, fuel + 1, p, before, h, hfuel => by
    obtain ⟨rfl, -, hrest⟩ := h
    unfold Threads.onSleepq
    rw [onSleepq_eq hrest (Nat.le_of_succ_le_succ hfuel)]
    simp [eq_comm]

/-- The queues are lists: the ready ones hold the ready threads, and a thread in the queue of an object
    sleeps on it. A thread that sleeps on an object need not be in its queue. -/
structure Threads.Queued (s : Threads) (q : Chan → List Addr) : Prop where
  ready : ReadyOk s q
  channel : ∀ {a x}, x ∈ q (.obj a) → s.ktSlpchannel x = some a
  asleep : ∀ {a x}, x ∈ q (.obj a) → s.scState x = .sleep

theorem Kernel.LockOk.queued (h : LockOk k q o) : Queued k.threads q :=
  ⟨h.runs.ready, h.waiting.channel, h.waiting.asleep⟩

section

variable (h : Queued s q)
include h

theorem Threads.Queued.onSleepq :
    s.onSleepq t walkFuel (s.queues.head (.obj a)) = decide (t ∈ q (.obj a)) :=
  onSleepq_eq (h.ready.holds.list (.obj a)) (length_le_walkFuel (h.ready.holds.nodup _))

theorem Threads.Queued.mem_unlinked (ht : t ∈ q (.obj a)) (c x : Addr) :
    x ∈ update q (.obj a) ((q (.obj a)).erase t) (.obj c) ↔ x ∈ q (.obj c) ∧ x ≠ t := by
  by_cases hc : c = a
  · subst hc
    rw [update_self, (h.ready.holds.nodup _).mem_erase_iff, and_comm]
  · rw [update_of_ne (by simpa using hc)]
    refine (and_iff_left_of_imp fun hx he => hc ?_).symm
    exact Option.some.inj ((h.channel hx).symm.trans (he ▸ h.channel ht))

theorem Threads.Queued.terminateRound {s' : Threads} (hrun : terminateRound t s = some s') :
    ∃ F q', s' = { s with queues := F } ∧ F.Holds q' ∧
      (s.scState t = .ready ∨ s.scState t = .sleep) ∧ ∀ c x, x ∈ q' c ↔ x ∈ q c ∧ x ≠ t := by
  unfold AtomOs.terminateRound at hrun
  split at hrun
  · next ht =>
    rw [delReadyq, if_pos ht.1] at hrun
    cases hrun
    refine ⟨_, _, rfl, h.ready.unlinked ht.1, .inl ht.1, fun c x => ?_⟩
    cases c with
    | ready i => exact h.ready.mem_eraseReady
    | obj a =>
      refine (and_iff_left_of_imp fun hx he => ?_).symm
      cases ht.1.symm.trans (h.asleep (he ▸ hx))
  · obtain ⟨hsleep, hrun⟩ := ite_none_right_eq_some.mp hrun
    cases ha : s.ktSlpchannel t with
    | none =>
      rw [ha] at hrun
      cases hrun
    | some a =>
      rw [ha] at hrun
      obtain ⟨hfound, hrun⟩ := ite_none_right_eq_some.mp hrun
      cases hrun
      have hmem : t ∈ q (.obj a) := of_decide_eq_true (h.onSleepq.symm.trans hfound)
      refine ⟨_, _, rfl, h.ready.holds.unlink hmem, .inr hsleep, fun c x => ?_⟩
      cases c with
      | ready i =>
        exact (and_iff_left_of_imp fun hx he =>
          h.ready.not_mem_of_state (by simp [hsleep]) i (he ▸ hx)).symm
      | obj c => exact h.mem_unlinked hmem c x

theorem Threads.Queued.found : (∃ s', AtomOs.terminateRound t s = some s') ↔
    s.scState t = .ready ∧ s.procReady t = true ∨
    s.scState t = .sleep ∧ ∃ a, s.ktSlpchannel t = some a ∧ t ∈ q (.obj a) := by
  unfold AtomOs.terminateRound
  by_cases hready : s.scState t = .ready ∧ s.procReady t = true
  · rw [if_pos hready]
    exact iff_of_true ⟨_, rfl⟩ (.inl hready)
  rw [if_neg hready, or_iff_right hready]
  by_cases hsleep : s.scState t = .sleep
  · rw [if_pos hsleep, and_iff_right hsleep]
    cases s.ktSlpchannel t with
    | none => simp
    | some a =>
      simp only [h.onSleepq]
      by_cases ht : t ∈ q (.obj a) <;> simp [ht]
  · simp [hsleep]

end

/-- A thread that does not run gets another state, and is not in the queue of an object any more. -/
theorem Kernel.LockOk.moved (h : LockOk k q o) {st : ThreadState} (hrun : k.threads.scState t ≠ .running)
    (hpark : Parked s q') (hobj : ∀ c x, x ∈ q' (.obj c) ↔ x ∈ q (.obj c) ∧ x ≠ t)
    (hcur : s.currentThread = k.current) (hst : st ≠ .sleep)
    (hstate : s.scState = update k.threads.scState t st)
    (hslp : ∀ x, x ≠ t → s.ktSlpchannel x = k.threads.ktSlpchannel x) :
    LockOk { k with threads := s } q' o := by
  have hstate' : ∀ {x}, x ≠ t → s.scState x = k.threads.scState x := fun hx => by
    rw [hstate, update_of_ne hx]
  refine ⟨hpark.runs ?_, h.owned, h.owner_iff, h.val_iff, fun {l x} hx => ?_, fun {l x} hx => ?_,
    fun {l x} hs hc => ?_, fun {l x} hx => ?_⟩
  · rw [hcur]
    exact (hstate' fun he => hrun (he ▸ h.runs.current_running)).trans h.runs.current_running
  · obtain ⟨hx, hne⟩ := (hobj l x).mp hx
    exact (hslp x hne).trans (h.waiting.channel hx)
  · obtain ⟨hx, hne⟩ := (hobj l x).mp hx
    exact (hstate' hne).trans (h.waiting.asleep hx)
  · have hne : x ≠ t := by
      rintro rfl
      exact hst ((update_self _ _ _).symm.trans ((congrFun hstate x).symm.trans hs))
    exact (hobj l x).mpr ⟨h.waiting.queued ((hstate' hne).symm.trans hs) ((hslp x hne).symm.trans hc), hne⟩
  · exact h.waiting.held ((hobj l x).mp hx).1

/-- **A thread that sleeps becomes ready.** -/
theorem Kernel.LockOk.awake (h : LockOk k q o) (hsleep : k.threads.scState t = .sleep)
    (hpark : Parked s q') (hobj : ∀ c x, x ∈ q' (.obj c) ↔ x ∈ q (.obj c) ∧ x ≠ t)
    (hcur : s.currentThread = k.current) (hstate : s.scState = update k.threads.scState t .ready)
    (hslp : s.ktSlpchannel = update k.threads.ktSlpchannel t none) :
    LockOk { k with threads := s } q' o :=
  h.moved (by simp [hsleep]) hpark hobj hcur (by simp) hstate fun x hx => by
    rw [hslp, update_of_ne hx]

theorem slpchannel_wakeup (hproc : s.procReady t = true) :
    (wakeup t s).ktSlpchannel = update s.ktSlpchannel t none := by
  rw [show wakeup t s = addReadyq t ((rrClWakeup t s).setState t .ready) from if_pos hproc]
  rfl

section

variable (h : LockOk k q o)
include h

theorem Kernel.LockOk.wakeup {F : Queues Chan Addr}
    (hpark : Parked { k.threads with queues := F } q') (hfree : ∀ c, t ∉ q' c)
    (hsleep : k.threads.scState t = .sleep) (hproc : k.threads.procReady t = true)
    (hobj : ∀ c x, x ∈ q' (.obj c) ↔ x ∈ q (.obj c) ∧ x ≠ t) :
    ∃ q'', LockOk { k with threads := wakeup t { k.threads with queues := F } } q'' o :=
  ⟨_, h.awake hsleep (hpark.wakeup hsleep hfree hproc) (fun c x => by rw [pushReady_obj]; exact hobj c x)
    (currentThread_wakeup _ _) (scState_wakeup hproc) (slpchannel_wakeup hproc)⟩

theorem Kernel.LockOk.tsleep (hcid : k.threads.scCid k.current ≠ .idle)
    (hslp : k.threads.ktSlpchannel k.current = none) :
    ∃ q', LockOk { k with threads := (k.threads.setState k.current .sleep).scheduler } q' o := by
  have hok : ReadyOk (k.threads.setState k.current .sleep) q :=
    h.runs.ready.otherQueues h.runs.ready.holds (fun _ => rfl)
      (update_sleep_ready fun hr => nomatch h.runs.current_running.symm.trans hr) rfl rfl
  have hw : Waiting { k with threads := k.threads.setState k.current .sleep } q := by
    refine ⟨h.waiting.channel, fun {l x} hx => ?_, fun {l x} hs hc => ?_, h.waiting.held⟩
    · show update k.threads.scState k.current .sleep x = .sleep
      rw [update_apply, h.waiting.asleep hx, ite_self]
    · have hne : x ≠ k.current := by
        rintro rfl
        cases hslp.symm.trans hc
      exact h.waiting.queued ((update_of_ne hne _ _).symm.trans hs) hc
  obtain ⟨q', hlock, -⟩ := h.switchAway hcid hok hw rfl rfl rfl
  exact ⟨q', hlock⟩

theorem Kernel.LockOk.unqueued (hsleep : k.threads.scState t = .sleep)
    (hslp : k.threads.ktSlpchannel t = none) (c : Chan) : t ∉ q c := by
  cases c with
  | ready i => exact h.runs.ready.not_mem_of_state (by simp [hsleep]) i
  | obj a => exact fun ht => nomatch hslp.symm.trans (h.waiting.channel ht)

theorem Kernel.LockOk.killed (hcid : k.threads.scCid t ≠ .idle)
    (hrun : terminateThread t k.threads = some s) : ∃ q', LockOk { k with threads := s } q' o := by
  obtain ⟨_, hround, rfl⟩ := map_eq_some_iff.mp hrun
  obtain ⟨F, q', rfl, hF, hst, hmem⟩ := h.queued.terminateRound hround
  have hself : update k.threads.scState t .terminating t = .terminating :=
    update_self _ _ _
  have hother : ∀ {x}, x ≠ t → update k.threads.scState t .terminating x = k.threads.scState x :=
    fun hx => update_of_ne hx _ _
  have hne : ∀ {st}, st ≠ .ready → st ≠ .sleep → k.threads.scState t ≠ st := by
    rintro st h1 h2 rfl
    exact hst.elim h1 h2
  refine ⟨q', h.moved (hne (by simp) (by simp)) ⟨⟨hF, fun x => ?_, fun {i x} hx => ?_,
    h.runs.ready.cpupri, h.runs.ready.inhpri⟩, fun x hx => ?_, fun {a x} hx => ?_, ?_, ?_⟩
    (fun c => hmem (.obj c)) rfl (by simp) rfl fun _ _ => rfl⟩
  · show update k.threads.scState t .terminating x = .ready ↔ _
    rw [hmem]
    by_cases hx : x = t
    · rw [hx, hself]
      simp
    · rw [hother hx, and_iff_left hx]
      exact h.runs.ready.ready_iff x
  · exact h.runs.ready.indexed ((hmem _ x).mp hx).1
  · have hxt : x ≠ t := fun he => by
      rw [he] at hx
      cases hself.symm.trans hx
    exact (h.runs.running x).mp ((hother hxt).symm.trans hx)
  · obtain ⟨hx, hxt⟩ := (hmem _ x).mp hx
    exact (hother hxt).trans (h.runs.asleep hx)
  · obtain ⟨idle, hidle, hst⟩ := h.runs.idle
    refine ⟨idle, hidle, ?_⟩
    show update k.threads.scState t .terminating idle = _ ∨ update _ _ _ idle = _
    rwa [hother fun he => hcid (he ▸ hidle)]
  · refine h.runs.parked.few_of fun x hx hno => hx ?_
    have hxt : x ≠ t := fun he => hne (by simp) (by simp) (he ▸ hno)
    exact (hother hxt).trans hno

theorem Kernel.LockOk.stopped (hcid : k.threads.scCid k.current ≠ .idle) :
    Halted { k with threads := k.threads.setState k.current .terminating } q o := by
  have hrunning : k.threads.scState k.current = .running := h.runs.current_running
  have hother : ∀ {x}, x ≠ k.current → update k.threads.scState k.current .terminating x =
      k.threads.scState x := fun hx => update_of_ne hx _ _
  have hasleep : ∀ {a x}, x ∈ q (.obj a) → update k.threads.scState k.current .terminating x = .sleep :=
    fun {a x} hx => (hother fun he => by
      subst he
      exact h.runs.current_free (.obj a) hx).trans (h.waiting.asleep hx)
  have hok : ReadyOk (k.threads.setState k.current .terminating) q :=
    h.runs.ready.otherQueues h.runs.ready.holds (fun _ => rfl)
      (update_not_ready (by simp [hrunning]) (by simp)) rfl rfl
  refine ⟨h.runs.stop hcid hok rfl rfl rfl hasleep, h.owned, h.owner_iff, h.val_iff, h.waiting.channel,
    hasleep, fun {l x} hs hc => ?_, h.waiting.held⟩
  have hs : update k.threads.scState k.current .terminating x = .sleep := hs
  have hne : x ≠ k.current := by
    rintro rfl
    cases (update_self _ _ _).symm.trans hs
  exact h.waiting.queued ((hother hne).symm.trans hs) hc

end

/-! ## Threads that do not sleep -/

def Threads.Up (s : Threads) (x : Addr) : Prop := s.scState x = .ready ∨ s.scState x = .running

/-- No such thread has a `kt_slpchannel`. -/
def Awake (s : Threads) : Prop := ∀ x, s.Up x → s.ktSlpchannel x = none

section

variable {s' : Threads}

theorem Awake.change (h : Awake s)
    (hup : ∀ x, s'.Up x → s'.ktSlpchannel x = none ∨ s.Up x ∧ s'.ktSlpchannel x = s.ktSlpchannel x) :
    Awake s' := fun x hx => (hup x hx).elim id fun hold => hold.2.trans (h x hold.1)

theorem Awake.congr (h : Awake s) (hstate : s'.scState = s.scState)
    (hslp : s'.ktSlpchannel = s.ktSlpchannel) : Awake s' :=
  h.change fun x hx => .inr ⟨by rwa [Threads.Up, hstate] at hx, congrFun hslp x⟩

theorem Awake.scheduler (h : Awake s) (hok : ReadyOk s q) (hcur : s.scState s.currentThread ≠ .ready)
    (hfree : s.scState s.currentThread = .running → ∀ c, s.currentThread ∉ q c) : Awake s.scheduler := by
  refine h.change fun x hx => .inr ⟨?_, congrFun (sameThreads_scheduler s).slpchannel x⟩
  rcases hok.scheduler_turns hcur hfree x with heq | ⟨hold, -⟩
  · rwa [Threads.Up, heq] at hx
  · exact hold.symm

theorem Awake.update {st : ThreadState} (h : Awake s) (hstate : s'.scState = update s.scState t st)
    (hslp : ∀ x, x ≠ t → s'.ktSlpchannel x = s.ktSlpchannel x)
    (hself : s'.ktSlpchannel t = none ∨ st ≠ .ready ∧ st ≠ .running) : Awake s' := by
  refine h.change fun x hx => ?_
  by_cases hxt : x = t
  · subst hxt
    refine .inl (hself.resolve_right fun hst => ?_)
    rw [Threads.Up, hstate, update_self] at hx
    exact hx.elim hst.1 hst.2
  · rw [Threads.Up, hstate, update_of_ne hxt] at hx
    exact .inr ⟨hx, hslp x hxt⟩

theorem Awake.wakeup (h : Awake s) (hproc : s.procReady t = true) : Awake (wakeup t s) := by
  have hslp := slpchannel_wakeup hproc
  exact h.update (scState_wakeup hproc) (fun x hx => by rw [hslp, update_of_ne hx])
    (.inl (by rw [hslp, update_self]))

theorem Awake.addReadyq (h : Awake s) (t : Addr) : Awake (addReadyq t s) :=
  h.update rfl (fun _ hx => update_of_ne hx _ _) (.inl (update_self _ _ _))

theorem Awake.woken (h : Awake s) (hw : AllWoken a s s' q q') : Awake s' := by
  refine h.change fun x hx => ?_
  rw [hw.channel]
  by_cases hmem : x ∈ q (.obj a)
  · exact .inl (if_pos hmem)
  · rw [Threads.Up, hw.state, if_neg hmem] at hx
    exact .inr ⟨hx, if_neg hmem⟩

theorem Awake.sleepOn (h : Awake s) (a : Addr) : Awake (sleepOn a s) :=
  h.update rfl (fun _ hx => update_of_ne hx _ _) (.inr ⟨by simp, by simp⟩)

end

section

variable (h : LockOk k q o) (ha : Awake k.threads)
include h ha

theorem Awake.block {l : Addr} (hval : k.lVal l = true) (hrun : k.block l = some k') : Awake k'.threads := by
  have hw := h.waiting_sleepOn (l := l) fun _ => (h.val_iff l).mp hval
  obtain ⟨s, q1, hlend, hok, -, hf, -⟩ := lendPriority_spec (h.runs.sleepOn_ok l) hw.lined
    (fun _ => (h.val_iff l).mp hval) (card_below_lt_walkFuel _ _)
  rw [Kernel.block, hlend] at hrun
  cases hrun
  have hlent : Awake s := (ha.sleepOn l).change fun x hx => by
    rcases hf.cleared x with hold | hnone
    · exact .inr ⟨by rwa [Threads.Up, hf.state] at hx, hold⟩
    · exact .inl hnone
  have hsleep : s.scState s.currentThread = .sleep := by
    rw [hf.current, hf.state]
    exact update_self _ _ _
  exact hlent.scheduler hok (by simp [hsleep]) (by simp [hsleep])

theorem Awake.tsleep : Awake (k.threads.setState k.current .sleep).scheduler := by
  have hok : ReadyOk (k.threads.setState k.current .sleep) q :=
    h.runs.ready.otherQueues h.runs.ready.holds (fun _ => rfl)
      (update_sleep_ready fun hr => nomatch h.runs.current_running.symm.trans hr) rfl rfl
  have hself : (k.threads.setState k.current .sleep).scState k.current = .sleep := update_self _ _ _
  have hsleeps : Awake (k.threads.setState k.current .sleep) :=
    ha.update rfl (fun _ _ => rfl) (.inr ⟨by simp, by simp⟩)
  exact hsleeps.scheduler hok (fun hno => nomatch hself.symm.trans hno)
    fun hno => nomatch hself.symm.trans hno

end

/-! ## A thread that ends -/

/-- The current thread has ended, and is still to be switched away from. -/
structure Leaving (k : Kernel) (q : Chan → List Addr) (o : Addr → List Addr) : Prop where
  halted : Halted k q o
  awake : Awake k.threads
  state : k.threads.scState k.current = .terminating

theorem Leaving.not_queued (h : Leaving k q o) (a : Addr) : k.current ∉ q (.obj a) := fun hmem =>
  nomatch h.state.symm.trans (h.halted.waiting.asleep hmem)

theorem Leaving.wake (h : Leaving k q o) (e : Addr) :
    ∃ s q', k.eventWakeup e = some { k with threads := s } ∧ Leaving { k with threads := s } q' o ∧
      s.currentThread = k.current := by
  obtain ⟨s, q', hrun, hok, hw⟩ := h.halted.wake e
  refine ⟨s, q', hrun, ⟨hok, h.awake.woken hw, ?_⟩, hw.current⟩
  show s.scState s.currentThread = .terminating
  rw [hw.current, hw.state]
  exact (if_neg (h.not_queued e)).trans h.state

theorem Leaving.release {l : Addr} (h : Leaving k q o) (howner : k.ownerThread l = some k.current) :
    ∃ k' q' o', k.release l = some k' ∧ Leaving k' q' o' := by
  obtain ⟨k', q', hrun, hok, hr⟩ := h.halted.release howner
  refine ⟨k', q', _, hrun, hok, h.awake.woken hr.toAllWoken, ?_⟩
  show k'.threads.scState k'.threads.currentThread = .terminating
  rw [hr.current, hr.state]
  exact (if_neg (h.not_queued l)).trans h.state

theorem Leaving.lose (h : Leaving k q o) (lose : Bool) : Leaving (k.loseInherited lose) q o := by
  unfold Kernel.loseInherited
  split
  · exact ⟨h.halted.reset (by simp [h.state]), h.awake.congr rfl rfl, h.state⟩
  · exact h

theorem Leaving.switch (h : Leaving k q o) :
    ∃ q', LockOk { k with threads := k.threads.scheduler } q' o ∧ Awake k.threads.scheduler := by
  have hstate : k.threads.scState k.threads.currentThread = .terminating := h.state
  obtain ⟨q', hruns, hobj, hturns, -⟩ := h.halted.parked.switch (by simp [hstate]) (by simp [hstate])
  have hwait := h.halted.waiting.others hobj hturns.sleep fun x _ =>
    congrFun (sameThreads_scheduler k.threads).slpchannel x
  exact ⟨q', ⟨hruns, h.halted.owned, h.halted.owner_iff, h.halted.val_iff, hwait⟩,
    h.awake.scheduler h.halted.parked.ready (by simp [hstate]) (by simp [hstate])⟩

section

variable (h : LockOk k q o) (ha : Awake k.threads)
include h ha

/-- **The current thread ends**, and another one runs. -/
theorem Kernel.LockOk.exitThread {e l : Addr} {lose : Bool} (hcid : k.threads.scCid k.current ≠ .idle)
    (howner : k.ownerThread l = some k.current) (hrun : k.exitThread e l lose = some k') :
    ∃ q' o', LockOk k' q' o' ∧ Awake k'.threads := by
  have hleave : Leaving { k with threads := k.threads.setState k.current .terminating } q o :=
    ⟨h.stopped hcid, ha.update rfl (fun _ _ => rfl) (.inr ⟨by simp, by simp⟩), update_self _ _ _⟩
  obtain ⟨s, q1, hwake, hwoken, hcur⟩ := hleave.wake e
  have howner' : k.ownerThread l = some s.currentThread := by
    rw [hcur]
    exact howner
  obtain ⟨k2, q2, o2, hrelease, hfreed⟩ := hwoken.release howner'
  unfold Kernel.exitThread at hrun
  rw [hwake] at hrun
  simp only [hrelease, Option.map_some] at hrun
  cases hrun
  obtain ⟨q3, hok, hawake⟩ := (hfreed.lose lose).switch
  exact ⟨q3, o2, hok, hawake⟩

theorem Kernel.LockOk.wakeHead (hhead : k.threads.queues.head (.obj a) = some t)
    (hproc : k.threads.procReady t = true) :
    ∃ q', LockOk { k with
        threads := Threads.wakeup t { k.threads with queues := (k.threads.queues.take (.obj a)).2 } } q' o ∧
      Awake (Threads.wakeup t { k.threads with queues := (k.threads.queues.take (.obj a)).2 }) := by
  rw [h.runs.ready.holds.head_eq] at hhead
  have ht := List.mem_of_head? hhead
  obtain ⟨l, hl⟩ := List.head?_eq_some_iff.mp hhead
  have hF := (h.runs.ready.holds.take hl).2
  rw [show l = (q (.obj a)).erase t by rw [hl, List.erase_cons_head]] at hF
  obtain ⟨hpark, hfree⟩ := h.runs.parked.unlinked ht hF
  obtain ⟨q', hok⟩ := h.wakeup hpark hfree (h.waiting.asleep ht) hproc (h.queued.mem_unlinked ht)
  exact ⟨q', hok, Awake.wakeup (ha.congr rfl rfl) hproc⟩

/-- **Every call keeps the queues in order**, and no thread that is up has a `kt_slpchannel` after it. -/
theorem Kernel.LockOk.call {op : SleepOp} (hop : SleepCallOk k op) (hcall : k.call op = some k') :
    ∃ q' o', LockOk k' q' o' ∧ Awake k'.threads := by
  cases op with
  | block l =>
    obtain ⟨s, q', hrun, hok, -⟩ := h.block hop.1 hop.2
    have hawake := ha.block h hop.2 hcall
    cases hrun.symm.trans hcall
    exact ⟨q', o, hok, hawake⟩
  | take l =>
    cases hcall
    refine ⟨q, _, h.take (by simp [show k.lVal l = false from hop]), ha.change fun x hx => ?_⟩
    by_cases hcur : x = k.current
    · exact .inl (hcur ▸ update_self _ _ _)
    · exact .inr ⟨hx, update_of_ne hcur _ _⟩
  | release l =>
    obtain ⟨k1, q', hrun, hok, hr⟩ := h.release hop
    cases hrun.symm.trans hcall
    exact ⟨q', _, hok, ha.woken hr.toAllWoken⟩
  | drop lose =>
    cases hcall
    unfold Kernel.loseInherited
    split
    · exact ⟨q, o, h.reset, ha.congr rfl rfl⟩
    · exact ⟨q, o, h, ha⟩
  | level l n =>
    cases hcall
    exact ⟨q, o, h.level _, ha⟩
  | sleep a =>
    cases hcall
    obtain ⟨q', hok, -⟩ := h.sleep hop.1 (not_or.mpr hop.2)
    have hself : (sleepOn a k.threads).scState k.current = .sleep := update_self _ _ _
    refine ⟨q', o, hok, (ha.sleepOn a).scheduler (h.runs.sleepOn_ok a) ?_ ?_⟩
    · exact fun hno => nomatch hself.symm.trans hno
    · exact fun hno => nomatch hself.symm.trans hno
  | eventWakeup e =>
    obtain ⟨s, q', hrun, hok, hw⟩ := h.wake e
    cases hrun.symm.trans hcall
    exact ⟨q', o, hok, ha.woken hw⟩
  | timeout e t =>
    cases hcall
    unfold eventWaitRemoveThread
    rw [h.queued.onSleepq]
    by_cases ht : t ∈ q (.obj e)
    · simp only [ht, decide_true, if_true]
      obtain ⟨hpark, hfree⟩ := h.runs.parked.unlinked ht (h.runs.ready.holds.unlink ht)
      refine ⟨_, o, h.awake (h.waiting.asleep ht) (hpark.addReadyq (h.waiting.asleep ht) hfree)
        (fun c x => ?_) rfl rfl rfl, Awake.addReadyq (ha.congr rfl rfl) t⟩
      exact h.queued.mem_unlinked ht c x
    · simp only [ht, decide_false]
      exact ⟨q, o, h, ha⟩
  | semPost a t =>
    cases hcall
    obtain ⟨q', hok, hawake⟩ := h.wakeHead ha hop.1 hop.2
    exact ⟨q', o, hok, hawake⟩
  | condSignal c => cases hcall
  | condWake => cases hcall
  | tsleep =>
    cases hcall
    obtain ⟨q', hok⟩ := h.tsleep hop (ha _ (.inr h.runs.current_running))
    exact ⟨q', o, hok, ha.tsleep h⟩
  | twakeup t =>
    cases hcall
    obtain ⟨hsleep, hslp, hproc⟩ := hop
    have hfree := h.unqueued hsleep hslp
    obtain ⟨q', hok⟩ := h.wakeup h.runs.parked hfree hsleep hproc fun c x =>
      (and_iff_left_of_imp fun hx he => hfree _ (he ▸ hx)).symm
    exact ⟨q', o, hok, ha.wakeup hproc⟩
  | syscallTwakeup t =>
    cases hcall
    have hfree := h.unqueued hop.1 hop.2
    refine ⟨_, o, h.awake hop.1 (h.runs.parked.addReadyq hop.1 hfree) (fun c x => ?_) rfl rfl rfl,
      ha.addReadyq t⟩
    exact (and_iff_left_of_imp fun hx he => hfree _ (he ▸ hx)).symm
  | terminate t =>
    obtain ⟨s, hs, rfl⟩ := map_eq_some_iff.mp hcall
    obtain ⟨q', hok⟩ := h.killed hop hs
    obtain ⟨_, hround, rfl⟩ := map_eq_some_iff.mp hs
    obtain ⟨F, -, rfl, -⟩ := h.queued.terminateRound hround
    exact ⟨q', o, hok, ha.update rfl (fun _ _ => rfl) (.inr ⟨by simp, by simp⟩)⟩
  | exit e l lose => exact h.exitThread ha hop.1 hop.2 hcall
  | preempt =>
    cases hcall
    obtain ⟨q', hok, -⟩ := h.preempt
    have hrunning : k.threads.scState k.threads.currentThread = .running := h.runs.current_running
    exact ⟨q', o, hok, ha.scheduler h.runs.ready (by simp [hrunning]) fun _ => h.runs.current_free⟩
  | tick =>
    cases hcall
    obtain ⟨hstate, hslp, -⟩ := rrClTick_keeps k.threads.currentThread k.threads
    exact ⟨q, o, h.tick, ha.congr hstate hslp⟩
  | recompute =>
    obtain ⟨s, q', hrun, hok, -, hf⟩ := h.recompute
    obtain ⟨s', hs', rfl⟩ := map_eq_some_iff.mp hcall
    cases hrun.symm.trans hs'
    exact ⟨q', o, hok, ha.congr hf.state hf.slpchannel⟩

end

/-! ## Whole runs -/

/-- What holds between two steps: everything is in order, or it was until `pthread_cond_signal` took a
    thread off its queue. -/
def SleepInv (s : SleepSys) : Prop :=
  ∃ k q o, LockOk k q o ∧ Awake k.threads ∧
    (s = k.quiet ∨ ∃ c t, k.threads.queues.head (.obj c) = some t ∧ k.threads.procReady t = true ∧
      s = ⟨{ k with
        threads := { k.threads with queues := (k.threads.queues.take (.obj c)).2 } }, some t⟩)

theorem SleepInv.quiet {s : SleepSys} (h : SleepInv s) (hs : s.signalled = none) :
    ∃ q o, LockOk s.kernel q o ∧ Awake s.kernel.threads := by
  obtain ⟨k, q, o, hok, ha, rfl | ⟨c, t, -, -, rfl⟩⟩ := h
  · exact ⟨q, o, hok, ha⟩
  · cases hs

theorem SleepInv.call {s s' : SleepSys} {op : SleepOp} (h : SleepInv s) (hop : SleepOk s op)
    (hquiet : s.signalled = none) (hcall : (s.kernel.call op).map (fun k => { s with kernel := k }) = some s') :
    SleepInv s' := by
  obtain ⟨q, o, hok, ha⟩ := h.quiet hquiet
  obtain ⟨k', hk', rfl⟩ := map_eq_some_iff.mp hcall
  obtain ⟨q', o', hok', ha'⟩ := hok.call ha hop.1 hk'
  exact ⟨k', q', o', hok', ha', .inl (by rw [hquiet]; rfl)⟩

/-- **One step.** A call is made in a state in which nobody is being signalled; `pthread_cond_signal` takes
    the first thread off a queue, if there is one, and then wakes it. -/
theorem SleepInv.step {s s' : SleepSys} {op : SleepOp} (h : SleepInv s) (hop : SleepOk s op)
    (hstep : sleepStep s op = some s') : SleepInv s' := by
  cases op with
  | condWake =>
    obtain ⟨k, q, o, hok, ha, rfl | ⟨c, t, hhead, hproc, rfl⟩⟩ := h
    · cases hstep
    · cases hstep
      obtain ⟨q', hok', ha'⟩ := hok.wakeHead ha hhead hproc
      exact ⟨_, q', o, hok', ha', .inl rfl⟩
  | condSignal c =>
    obtain ⟨q, o, hok, ha⟩ := h.quiet (hop.2.resolve_right (by simp))
    have hholds := hok.runs.ready.holds
    have hs' : s' = ⟨{ s.kernel with
        threads := { s.kernel.threads with queues := (s.kernel.threads.queues.take (.obj c)).2 } },
        (s.kernel.threads.queues.take (.obj c)).1⟩ := (Option.some.inj hstep).symm
    refine ⟨s.kernel, q, o, hok, ha, ?_⟩
    cases hq : q (.obj c) with
    | nil =>
      rw [hholds.take_nil hq] at hs'
      exact .inl hs'
    | cons t l =>
      have hhead : s.kernel.threads.queues.head (.obj c) = some t := by
        rw [hholds.head_eq, hq]
        rfl
      rw [(hholds.take hq).1] at hs'
      exact .inr ⟨c, t, hhead, hop.1 t hhead, hs'⟩
  | _ => exact h.call hop (hop.2.resolve_right (by simp)) hstep

/-- What is said of queues in such a state. The only thread that sleeps on an object and is not in its
    queue is the one that is being signalled. -/
theorem SleepInv.queued {s : SleepSys} (h : SleepInv s) :
    ∃ q, Queued s.kernel.threads q ∧ ∀ {t a}, s.kernel.threads.scState t = .sleep →
      s.kernel.threads.ktSlpchannel t = some a → (t ∈ q (.obj a) ↔ s.signalled ≠ some t) := by
  obtain ⟨k, q, o, hok, -, rfl | ⟨c, t, hhead, -, rfl⟩⟩ := h
  · refine ⟨q, hok.queued, fun hsleep hslp => iff_of_true (hok.waiting.queued hsleep hslp) ?_⟩
    exact Option.some_ne_none _ |>.symm
  · have hholds := hok.runs.ready.holds
    rw [hholds.head_eq] at hhead
    have ht := List.mem_of_head? hhead
    obtain ⟨l, hl⟩ := List.head?_eq_some_iff.mp hhead
    have hF := (hholds.take hl).2
    rw [show l = (q (.obj c)).erase t by rw [hl, List.erase_cons_head]] at hF
    have hmem := hok.queued.mem_unlinked ht
    have hpark := (hok.runs.parked.unlinked ht hF).1
    refine ⟨_, ⟨hpark.ready, fun hx => hok.waiting.channel ((hmem _ _).mp hx).1, hpark.asleep⟩,
      fun {x a} hsleep hslp => ?_⟩
    rw [hmem, and_iff_right (hok.waiting.queued hsleep hslp)]
    simp [eq_comm]

end AtomOs
