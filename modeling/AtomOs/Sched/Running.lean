import Mathlib.Data.Int.ConditionallyCompleteOrder
import Mathlib.Data.List.MinMax
import Mathlib.Order.ConditionallyCompleteLattice.Basic
import AtomOs.Sched.ReadyInv

/-!
# The threads between two steps

`Runs s q` is what holds whenever the kernel is left: the ready queues are in order, one thread runs,
the threads on wait queues sleep, and the idle thread is there to be switched to. Threads that sleep
on no queue are allowed: barriers and timers keep them elsewhere.

Each lemma is one thing that can happen to the current thread or to a sleeping one. Inside of a step the
current thread may already have stopped (`Parked`), and `scheduler` leads back to `Runs`. Which thread it
switches to is the last part: **`scheduler_best`** for the choice, **`recompute_raises`** for the
priorities that `timerthread` raises.
-/

namespace AtomOs

open Lib Function

def maxThreads : Nat := 256

namespace Threads

/-- Between two steps one thread runs, threads on wait queues sleep, and the idle thread is there to
    be switched to. -/
structure Runs (s : Threads) (q : Chan → List Addr) : Prop where
  ready : ReadyOk s q
  running : ∀ t, s.scState t = .running ↔ t = s.currentThread
  asleep : ∀ {a t}, t ∈ q (.obj a) → s.scState t = .sleep
  idle : ∃ t, s.scCid t = .idle ∧ (s.scState t = .ready ∨ s.scState t = .running)
  few : ∃ l : List Addr, l.length ≤ maxThreads ∧ ∀ t, s.scState t ≠ .unused → t ∈ l

/-- The same inside of a step, when the current thread may have stopped running. -/
structure Parked (s : Threads) (q : Chan → List Addr) : Prop where
  ready : ReadyOk s q
  alone : ∀ t, s.scState t = .running → t = s.currentThread
  asleep : ∀ {a t}, t ∈ q (.obj a) → s.scState t = .sleep
  idle : ∃ t, s.scCid t = .idle ∧ (s.scState t = .ready ∨ s.scState t = .running)
  few : ∃ l : List Addr, l.length ≤ maxThreads ∧ ∀ t, s.scState t ≠ .unused → t ∈ l

variable {s t : Threads} {q : Chan → List Addr} {thr : Addr}

theorem Runs.parked (h : Runs s q) : Parked s q :=
  ⟨h.ready, fun t ht => (h.running t).mp ht, h.asleep, h.idle, h.few⟩

theorem Parked.runs (h : Parked s q) (hrun : s.scState s.currentThread = .running) : Runs s q :=
  ⟨h.ready, fun t => ⟨h.alone t, fun ht => ht ▸ hrun⟩, h.asleep, h.idle, h.few⟩

theorem Runs.current_running (h : Runs s q) : s.scState s.currentThread = .running :=
  (h.running _).mpr rfl

theorem Parked.free (h : Parked s q) (hready : s.scState thr ≠ .ready) (hsleep : s.scState thr ≠ .sleep)
    (c : Chan) : thr ∉ q c := by
  intro hc
  cases c with
  | ready i => exact hready (h.ready.state_of_mem hc)
  | obj a => exact hsleep (h.asleep hc)

theorem Runs.current_free (h : Runs s q) (c : Chan) : s.currentThread ∉ q c :=
  h.parked.free (by simp [h.current_running]) (by simp [h.current_running]) c

theorem Parked.few_of (h : Parked s q) (hused : ∀ x, t.scState x ≠ .unused → s.scState x ≠ .unused) :
    ∃ l : List Addr, l.length ≤ maxThreads ∧ ∀ x, t.scState x ≠ .unused → x ∈ l := by
  obtain ⟨l, hl, hmem⟩ := h.few
  exact ⟨l, hl, fun x hx => hmem x (hused x hx)⟩

theorem switchStates_running (hrun : s.scState s.currentThread = .running) {new : Addr} (x : Addr) :
    switchStates s new x =
      if x = new then .running else if x = s.currentThread then .ready else s.scState x := by
  unfold switchStates
  rw [if_pos hrun]
  by_cases hx : x = new
  · rw [if_pos hx, hx, update_self]
  · rw [if_neg hx, update_of_ne hx]
    by_cases hc : x = s.currentThread
    · rw [if_pos hc, hc, update_self]
    · rw [if_neg hc, update_of_ne hc]

/-- Threads that can run may take turns; all others stay as they are. -/
def Turns (s t : Threads) : Prop :=
  ∀ x, t.scState x = s.scState x ∨ (s.scState x = .running ∨ s.scState x = .ready) ∧
    (t.scState x = .running ∨ t.scState x = .ready)

theorem Turns.of_eq (h : t.scState = s.scState) : Turns s t := fun x => .inl (congrFun h x)

theorem Turns.sleep (h : Turns s t) (x : Addr) : t.scState x = .sleep ↔ s.scState x = .sleep := by
  rcases h x with hx | ⟨hs, ht⟩
  · rw [hx]
  constructor
  · intro hx
    rcases ht with ht | ht <;> rw [ht] at hx <;> cases hx
  · intro hx
    rcases hs with hs | hs <;> rw [hs] at hx <;> cases hx

/-- **`scheduler` only lets threads take turns.** -/
theorem ReadyOk.scheduler_turns (h : ReadyOk s q) (hcur : s.scState s.currentThread ≠ .ready)
    (hfree : s.scState s.currentThread = .running → ∀ c, s.currentThread ∉ q c) :
    Turns s s.scheduler := by
  obtain ⟨-, -, -, ⟨-, hstate, -⟩ | ⟨new, hnew, -, hstate⟩⟩ := h.scheduler hcur hfree
  · exact Turns.of_eq hstate
  intro x
  rw [hstate]
  unfold switchStates
  by_cases hx : x = new
  · rw [hx, update_self]
    exact .inr ⟨.inr hnew, .inl rfl⟩
  rw [update_of_ne hx]
  split
  · rename_i hrun
    by_cases hc : x = s.currentThread
    · rw [hc, update_self]
      exact .inr ⟨.inl hrun, .inr rfl⟩
    · rw [update_of_ne hc]
      exact .inl rfl
  · exact .inl rfl

variable {q' q₁ : Chan → List Addr} {a : Addr} {p p' : Int}

theorem Parked.turned (h : Parked s q) (hok : ReadyOk t q')
    (hobj : ∀ a, q' (.obj a) = q (.obj a)) (hturns : Turns s t) (hcid : t.scCid = s.scCid)
    (halone : ∀ x, t.scState x = .running → x = t.currentThread) : Parked t q' := by
  refine ⟨hok, halone, fun {a x} hx => ?_, ?_, h.few_of fun x hx => ?_⟩
  · rw [hobj] at hx
    exact (hturns.sleep x).mpr (h.asleep hx)
  · obtain ⟨idle, hidle, hst⟩ := h.idle
    refine ⟨idle, by rw [hcid]; exact hidle, ?_⟩
    rcases hturns idle with he | ⟨-, ht⟩
    · rw [he]
      exact hst
    · exact ht.symm
  · rcases hturns x with he | ⟨hs | hs, -⟩
    · rwa [he] at hx
    · simp [hs]
    · simp [hs]

theorem Runs.keep (h : Runs s q) (hok : ReadyOk t q') (hobj : ∀ a, q' (.obj a) = q (.obj a))
    (hstate : t.scState = s.scState) (hcur : t.currentThread = s.currentThread)
    (hcid : t.scCid = s.scCid) : Runs t q' := by
  refine (h.parked.turned hok hobj (.of_eq hstate) hcid fun x hx => ?_).runs ?_
  · rw [hstate] at hx
    rw [hcur]
    exact (h.running x).mp hx
  · rw [hcur, hstate]
    exact h.current_running

/-- **A switch at the end of a time slice.** No thread falls asleep or wakes up. -/
theorem Runs.preempt (h : Runs s q) : ∃ q', Runs s.scheduler q' ∧ (∀ a, q' (.obj a) = q (.obj a)) ∧
      ∀ x, (s.scheduler.scState x = .sleep ↔ s.scState x = .sleep) := by
  have hready : s.scState s.currentThread ≠ .ready := by simp [h.current_running]
  obtain ⟨q', hok, hobj, hcase⟩ := h.ready.scheduler hready fun _ => h.current_free
  have hturns := h.ready.scheduler_turns hready fun _ => h.current_free
  have hcid := (sameThreads_scheduler s).cid
  rcases hcase with ⟨hcur, hstate, -⟩ | ⟨new, hnew, hcur, hstate⟩
  · exact ⟨q', h.keep hok hobj hstate hcur hcid, hobj, hturns.sleep⟩
  have hall : ∀ x, s.scheduler.scState x =
      if x = new then .running else if x = s.currentThread then .ready else s.scState x := fun x => by
    rw [hstate]
    exact switchStates_running h.current_running x
  refine ⟨q', (h.parked.turned hok hobj hturns hcid fun x hx => ?_).runs ?_, hobj, hturns.sleep⟩
  · rw [hall] at hx
    rw [hcur]
    by_contra hne
    rw [if_neg hne] at hx
    split at hx
    · cases hx
    · rename_i hxc
      exact hxc ((h.running x).mp hx)
  · rw [hcur, hall, if_pos rfl]

/-- **The current thread has stopped**, and another one is switched to. -/
theorem Parked.switch (h : Parked s q) (hrun : s.scState s.currentThread ≠ .running)
    (hready : s.scState s.currentThread ≠ .ready) :
    ∃ q', Runs s.scheduler q' ∧ (∀ a, q' (.obj a) = q (.obj a)) ∧ Turns s s.scheduler ∧
      ∃ new, s.scState new = .ready ∧ s.scheduler.scState = update s.scState new .running := by
  obtain ⟨q', hok, hobj, hcase⟩ := h.ready.scheduler hready fun hno => absurd hno hrun
  have hturns := h.ready.scheduler_turns hready fun hno => absurd hno hrun
  obtain ⟨idle, -, hstate⟩ := h.idle
  have hidle : s.scState idle = .ready := hstate.resolve_right fun hr => by
    rw [h.alone idle hr] at hr
    exact hrun hr
  rcases hcase with ⟨-, -, hno | hnone⟩ | ⟨new, hnew, hcur, hstate'⟩
  · exact absurd hno hrun
  · exact absurd hidle (hnone idle)
  · unfold switchStates at hstate'
    rw [if_neg hrun] at hstate'
    refine ⟨q', (h.turned hok hobj hturns (sameThreads_scheduler s).cid fun x hx => ?_).runs ?_, hobj,
      hturns, new, hnew, hstate'⟩
    · rw [hcur]
      by_contra hne
      rw [hstate', update_of_ne hne] at hx
      rw [h.alone x hx] at hx
      exact hrun hx
    · rw [hcur, hstate', update_self]

theorem Runs.stop (h : Runs s q) (hcid : s.scCid s.currentThread ≠ .idle)
    (hok : ReadyOk t q₁) (hcur : t.currentThread = s.currentThread) (hcid' : t.scCid = s.scCid)
    {st : ThreadState} (hstate : t.scState = update s.scState s.currentThread st)
    (hasleep : ∀ {a x}, x ∈ q₁ (.obj a) → t.scState x = .sleep) : Parked t q₁ := by
  have hother : ∀ x, x ≠ s.currentThread → t.scState x = s.scState x := fun x hx => by
    rw [hstate, update_of_ne hx]
  refine ⟨hok, fun x hx => ?_, hasleep, ?_, ?_⟩
  · rw [hcur]
    by_contra hne
    rw [hother x hne] at hx
    exact hne ((h.running x).mp hx)
  · obtain ⟨idle, hidle, hst⟩ := h.idle
    refine ⟨idle, by rw [hcid']; exact hidle, ?_⟩
    rw [hother idle fun he => hcid (he ▸ hidle)]
    exact hst
  · refine h.parked.few_of fun x hx => ?_
    by_cases he : x = s.currentThread
    · rw [he, h.current_running]
      simp
    · rwa [hother x he] at hx

theorem asleep_of_update (hstate : t.scState = update s.scState thr .sleep) (x : Addr) :
    t.scState x = .sleep ↔ x = thr ∨ s.scState x = .sleep := by
  rw [hstate, update_apply]
  split
  · rename_i hx
    exact iff_of_true rfl (.inl hx)
  · rename_i hx
    exact (or_iff_right hx).symm

/-- **The current thread has gone to sleep**, on a queue or not, and another one is switched to. -/
theorem Runs.sleepSwitch (h : Runs s q) (hcid : s.scCid s.currentThread ≠ .idle)
    (hok : ReadyOk t q₁) (hcur : t.currentThread = s.currentThread) (hcid' : t.scCid = s.scCid)
    (hstate : t.scState = update s.scState s.currentThread .sleep)
    (hobj : ∀ {a x}, x ∈ q₁ (.obj a) → x = s.currentThread ∨ s.scState x = .sleep) :
    ∃ q', Runs t.scheduler q' ∧ (∀ a, q' (.obj a) = q₁ (.obj a)) ∧
      (∀ x, t.scheduler.scState x = .sleep ↔ x = s.currentThread ∨ s.scState x = .sleep) ∧
      ∀ x, t.scheduler.scState x = .ready → s.scState x = .ready := by
  have hsleep := asleep_of_update hstate
  have hself : t.scState t.currentThread = .sleep := (hsleep _).mpr (.inl hcur)
  have hparked : Parked t q₁ := h.stop hcid hok hcur hcid' hstate fun hx =>
    (hsleep _).mpr (hobj hx)
  obtain ⟨q', hruns, hobj', hturns, new, hnew, hstate'⟩ :=
    hparked.switch (by rw [hself]; simp) (by rw [hself]; simp)
  refine ⟨q', hruns, hobj', fun x => (hturns.sleep x).trans (hsleep x), fun x hx => ?_⟩
  · rw [hstate'] at hx
    by_cases he : x = new
    · rw [he, update_self] at hx
      cases hx
    rw [update_of_ne he, hstate] at hx
    by_cases hc : x = s.currentThread
    · rw [hc, update_self] at hx
      cases hx
    · rwa [update_of_ne hc] at hx

theorem Runs.tick (h : Runs s q) : Runs (rrClTick s.currentThread s) q := by
  have hcpu := h.ready.cpupri s.currentThread
  unfold rrClTick
  simp only
  split
  · refine h.keep (h.ready.aside ?_ rfl ?_ ⟨?_, h.ready.inhpri _,
      fun _ _ => rfl, fun x hx => update_of_ne hx _ _, fun _ _ => rfl⟩) (fun _ => rfl) rfl rfl rfl
    · simp [h.current_running]
    · simp [setCpupri, h.current_running]
    · show 0 ≤ update s.scCpupri _ _ _ ∧ update s.scCpupri _ _ _ ≤ 159
      rw [update_self]
      cases s.scCid s.currentThread <;> simp only [basepri] <;> omega
  · exact h.keep (h.ready.congr rfl rfl rfl rfl) (fun _ => rfl) rfl rfl rfl

/-- **Priorities of ready threads are raised.** -/
theorem Runs.recompute (h : Runs s q) :
    ∃ t q', s.recompute = some t ∧ Runs t q' ∧ (∀ a, q' (.obj a) = q (.obj a)) ∧ RaiseFrame s t := by
  obtain ⟨t, q', hrun, hok, hobj, hframe⟩ := h.ready.recompute
  exact ⟨t, q', hrun, h.keep hok hobj hframe.state hframe.current hframe.cid, hobj, hframe⟩

/-- **A sleeping thread that is on no queue becomes ready.** -/
theorem Parked.awake (h : Parked s q) (hsleep : s.scState thr = .sleep)
    (hthr : ∀ c, thr ∉ q c) (hok : ReadyOk t q') (hobj : ∀ a, q' (.obj a) = q (.obj a))
    (hstate : t.scState = update s.scState thr .ready)
    (hcur : t.currentThread = s.currentThread) (hcid : t.scCid = s.scCid) : Parked t q' := by
  have hother : ∀ {x}, x ≠ thr → t.scState x = s.scState x := fun hx => by
    rw [hstate, update_of_ne hx]
  have hself : t.scState thr = .ready := by
    rw [hstate, update_self]
  refine ⟨hok, fun x hx => ?_, fun {a x} hx => ?_, ?_, ?_⟩
  · rw [hcur]
    by_cases he : x = thr
    · rw [he, hself] at hx
      cases hx
    · rw [hother he] at hx
      exact h.alone x hx
  · rw [hobj] at hx
    have hxne : x ≠ thr := fun he => hthr (.obj a) (he ▸ hx)
    rw [hother hxne]
    exact h.asleep hx
  · obtain ⟨idle, hidle, hstate'⟩ := h.idle
    refine ⟨idle, by rw [hcid]; exact hidle, ?_⟩
    by_cases hx : idle = thr
    · exact .inl (hx ▸ hself)
    · rw [hother hx]
      exact hstate'
  · refine h.few_of fun x hx => ?_
    by_cases he : x = thr
    · rw [he, hsleep]
      simp
    · rwa [hother he] at hx

theorem Runs.awake (h : Runs s q) (hsleep : s.scState thr = .sleep)
    (hpark : Parked t q') (hstate : t.scState = update s.scState thr .ready)
    (hcur : t.currentThread = s.currentThread) : Runs t q' := by
  refine hpark.runs ?_
  have hne : s.currentThread ≠ thr := fun he => by
    rw [← he, h.current_running] at hsleep
    cases hsleep
  rw [hcur, hstate, update_of_ne hne]
  exact h.current_running

theorem Parked.addReadyq (h : Parked s q) (hsleep : s.scState thr = .sleep) (hthr : ∀ c, thr ∉ q c) :
    Parked (addReadyq thr s) (pushReady q (s.readyIndex thr) thr) :=
  h.awake hsleep hthr (h.ready.addReadyq hthr) (fun a => pushReady_obj _ _ _ a) rfl rfl rfl

theorem scState_wakeup (hproc : s.procReady thr = true) :
    (wakeup thr s).scState = update s.scState thr .ready := by
  have hrun : Threads.wakeup thr s =
      Threads.addReadyq thr ((rrClWakeup thr s).setState thr .ready) := if_pos hproc
  rw [hrun]
  show update (update s.scState thr .ready) thr .ready = _
  exact update_idem _ _ _

theorem currentThread_wakeup (thr : Addr) (s : Threads) :
    (wakeup thr s).currentThread = s.currentThread := by
  unfold wakeup
  simp only
  split <;> rfl

theorem scCid_wakeup (thr : Addr) (s : Threads) : (wakeup thr s).scCid = s.scCid := by
  unfold wakeup
  simp only
  split <;> rfl

theorem Parked.wakeup (h : Parked s q) (hsleep : s.scState thr = .sleep) (hthr : ∀ c, thr ∉ q c)
    (hproc : s.procReady thr = true) :
    Parked (wakeup thr s) (pushReady q ((rrClWakeup thr s).readyIndex thr) thr) :=
  h.awake hsleep hthr (h.ready.wakeup hthr hproc) (fun a => pushReady_obj _ _ _ a)
    (scState_wakeup hproc) (currentThread_wakeup _ _) (scCid_wakeup _ _)

theorem Runs.wakeup (h : Runs s q) (hsleep : s.scState thr = .sleep) (hthr : ∀ c, thr ∉ q c)
    (hproc : s.procReady thr = true) :
    Runs (wakeup thr s) (pushReady q ((rrClWakeup thr s).readyIndex thr) thr) :=
  h.awake hsleep (h.parked.wakeup hsleep hthr hproc) (scState_wakeup hproc)
    (currentThread_wakeup _ _)

/-! ## Wait queues -/

theorem update_not_ready {st : ThreadState} (hthr : s.scState thr ≠ .ready) (hst : st ≠ .ready) (x : Addr) :
    update s.scState thr st x = .ready ↔ s.scState x = .ready := by
  by_cases hx : x = thr
  · rw [hx, update_self]
    exact iff_of_false hst hthr
  · rw [update_of_ne hx]

theorem update_sleep_ready (hthr : s.scState thr ≠ .ready) (x : Addr) :
    update s.scState thr .sleep x = .ready ↔ s.scState x = .ready :=
  update_not_ready hthr (by simp) x

theorem mem_sleepOn {c x : Addr} :
    x ∈ update q (.obj a) (q (.obj a) ++ [thr]) (.obj c) ↔ x ∈ q (.obj c) ∨ x = thr ∧ c = a := by
  by_cases hc : c = a
  · subst hc
    simp
  · simp [hc]

theorem Runs.sleepOn_ok (h : Runs s q) (a : Addr) :
    ReadyOk (sleepOn a s) (update q (.obj a) (q (.obj a) ++ [s.currentThread])) :=
  h.ready.otherQueues (h.ready.holds.append h.current_free)
    (fun i => update_of_ne (by simp) _ _)
    (update_sleep_ready (by simp [h.current_running])) rfl rfl

/-- **The current thread sleeps on an object**, and another one is switched to. -/
theorem Runs.block (h : Runs s q) (hcid : s.scCid s.currentThread ≠ .idle) (a : Addr) :
    ∃ q', Runs (sleepOn a s).scheduler q' ∧
      (∀ c, q' (.obj c) =
        update q (.obj a) (q (.obj a) ++ [s.currentThread]) (.obj c)) ∧
      (∀ x, (sleepOn a s).scheduler.scState x = .sleep ↔
        x = s.currentThread ∨ s.scState x = .sleep) ∧
      ∀ x, (sleepOn a s).scheduler.scState x = .ready → s.scState x = .ready := by
  refine h.sleepSwitch hcid (h.sleepOn_ok a) rfl rfl rfl fun {c x} hx => ?_
  rcases mem_sleepOn.mp hx with hx | ⟨rfl, -⟩
  · exact .inr (h.asleep hx)
  · exact .inl rfl

theorem Parked.unlinked (h : Parked s q) (hthr : thr ∈ q (.obj a)) {F : Queues Chan Addr}
    (hF : F.Holds (update q (.obj a) ((q (.obj a)).erase thr))) :
    Parked { s with queues := F } (update q (.obj a) ((q (.obj a)).erase thr)) ∧
      ∀ c, thr ∉ update q (.obj a) ((q (.obj a)).erase thr) c := by
  have hmem : ∀ {y c}, y ∈ update q (.obj a) ((q (.obj a)).erase thr) c → y ∈ q c := by
    intro y c hy
    by_cases hc : c = .obj a
    · rw [hc, update_self] at hy
      exact hc ▸ List.mem_of_mem_erase hy
    · rwa [update_of_ne hc] at hy
  refine ⟨⟨h.ready.otherQueues hF (fun i => update_of_ne (by simp) _ _) (fun _ => Iff.rfl)
    rfl rfl, h.alone, fun hy => h.asleep (hmem hy), h.idle, h.few⟩, h.ready.holds.not_mem_erase hthr⟩

/-- **The first thread that sleeps on an object becomes ready.** -/
theorem Parked.wakeFirst (h : Parked s q) (a : Addr) :
    ∃ q', Parked (wakeFirst a s) q' ∧ (∀ c, q' (.obj c) = update q (.obj a) (q (.obj a)).tail (.obj c)) ∧
      ∀ x, (wakeFirst a s).scState x =
        if x ∈ (q (.obj a)).head? then .ready else s.scState x := by
  cases hq : q (.obj a) with
  | nil =>
    have hrun : Threads.wakeFirst a s = s := by
      unfold Threads.wakeFirst
      rw [h.ready.holds.take_nil hq]
    rw [hrun]
    refine ⟨q, h, fun c => ?_, fun x => by simp⟩
    by_cases hc : c = a
    · subst hc
      rw [update_self, hq]
      rfl
    · rw [update_of_ne (by simpa using hc)]
  | cons x l =>
    obtain ⟨hfirst, hholds⟩ := h.ready.holds.take hq
    have hx : x ∈ q (.obj a) := by
      rw [hq]
      exact List.mem_cons_self
    have hl : (q (.obj a)).erase x = l := by rw [hq, List.erase_cons_head]
    generalize hF : (s.queues.take (.obj a)).2 = F at hholds
    have hrun : Threads.wakeFirst a s = Threads.addReadyq x { s with queues := F } := by
      unfold Threads.wakeFirst
      rw [← hF]
      cases htake : s.queues.take (.obj a) with
      | mk o F' =>
        rw [htake] at hfirst
        obtain rfl : o = some x := hfirst
        rfl
    obtain ⟨htaken, hfree⟩ := h.unlinked hx (hl.symm ▸ hholds)
    rw [hl] at htaken hfree
    rw [hrun]
    refine ⟨_, htaken.addReadyq (h.asleep hx) hfree, fun c => pushReady_obj _ _ _ _, fun y => ?_⟩
    show update s.scState x .ready y = _
    by_cases hy : y = x
    · rw [hy, update_self]
      simp
    · rw [update_of_ne hy, if_neg]
      simpa [eq_comm] using hy

theorem currentThread_wakeFirst (a : Addr) (s : Threads) :
    (Threads.wakeFirst a s).currentThread = s.currentThread := by
  unfold Threads.wakeFirst
  cases s.queues.take (.obj a) with
  | mk first F => cases first <;> rfl

theorem Runs.wakeFirst (h : Runs s q) (a : Addr) : ∃ q', Runs (wakeFirst a s) q' ∧
      ∀ c, q' (.obj c) = update q (.obj a) (q (.obj a)).tail (.obj c) := by
  obtain ⟨q', hpark, hobj, hstate⟩ := h.parked.wakeFirst a
  refine ⟨q', hpark.runs ?_, hobj⟩
  rw [currentThread_wakeFirst, hstate, if_neg, h.current_running]
  exact fun hx => h.current_free (.obj a) (List.mem_of_head? hx)

/-! ## A small example: two user threads and the idle thread -/

/-- The idle thread runs; two user threads sleep. -/
def twoUsers (p p' : Int) : Threads :=
  { queues := { next := fun _ => none, prev := fun _ => none, head := fun _ => none
                tail := fun _ => none }
    scState := fun t => if t = 1 then .running else if t = 2 ∨ t = 3 then .sleep else .unused
    scCid := fun t => if t = 1 then .idle else .user
    scUsrpri := fun _ => 0
    scCpupri := fun t => if t = 2 then p else if t = 3 then p' else 0
    scInhpri := fun _ => 0
    scTqleft := fun _ => timeQuantum
    scThrreadystart := fun _ => 0
    ktSlpchannel := fun _ => none
    procReady := fun _ => true
    currentThread := 1
    clock := 0 }

theorem twoUsers_runs (hp : 0 ≤ p ∧ p ≤ 99) (hp' : 0 ≤ p' ∧ p' ≤ 99) :
    Runs (twoUsers p p') fun _ => [] := by
  refine ⟨⟨⟨fun _ => rfl, fun _ => rfl, fun _ => List.nodup_nil, fun hx => by simp at hx⟩,
    fun t => ?_, fun hx => by simp at hx, fun t => ?_, fun t => ⟨le_refl _, by simp [twoUsers]⟩⟩,
    fun t => ?_, fun hx => by simp at hx, ⟨1, rfl, .inr rfl⟩, ⟨[1, 2, 3], by decide, fun t ht => ?_⟩⟩
  · unfold twoUsers
    simp only
    split
    · simp
    · split <;> simp
  · unfold twoUsers
    simp only
    split
    · omega
    · split <;> omega
  · unfold twoUsers
    simp only
    split
    · rename_i h
      simp [h]
    · rename_i h
      split <;> simp [h]
  · unfold twoUsers at ht
    simp only at ht
    split at ht
    · rename_i h
      simp [h]
    · split at ht
      · rename_i h
        simp [h]
      · simp at ht

/-- Both user threads have been woken up. -/
def readyUsers (p p' : Int) : Threads := wakeup 3 (wakeup 2 (twoUsers p p'))

/-- The ready queues they are on, in the order in which they came. -/
def readyUsersQueues (p p' : Int) : Chan → List Addr :=
  pushReady (pushReady (fun _ => []) ((rrClWakeup 2 (twoUsers p p')).readyIndex 2) 2)
    ((rrClWakeup 3 (wakeup 2 (twoUsers p p'))).readyIndex 3) 3

theorem readyUsers_holds (hp : 0 ≤ p ∧ p ≤ 99) (hp' : 0 ≤ p' ∧ p' ≤ 99) :
    Runs (readyUsers p p') (readyUsersQueues p p') := by
  have h2 : Runs (wakeup 2 (twoUsers p p')) _ := (twoUsers_runs hp hp').wakeup rfl (by simp) rfl
  refine h2.wakeup rfl (fun c => ?_) rfl
  cases c with
  | ready i => simp [mem_pushReady]
  | obj a => simp [pushReady_obj]

theorem readyUsers_runs (hp : 0 ≤ p ∧ p ≤ 99) (hp' : 0 ≤ p' ∧ p' ≤ 99) :
    ∃ q, Runs (readyUsers p p') q ∧ ∀ a, q (.obj a) = [] :=
  ⟨_, readyUsers_holds hp hp', fun a => by
    rw [readyUsersQueues, pushReady_obj, pushReady_obj]⟩

/-! ## What `scheduler` switches to -/

/-- The queues after a switch to `new`, which has left its queue. The current thread is at the end of
    its own if it could run on. -/
def switchQueues (s : Threads) (q : Chan → List Addr) (new : Addr) : Chan → List Addr :=
  eraseReady (if s.scState s.currentThread = .running then
    pushReady q (s.readyIndex s.currentThread) s.currentThread else q) (s.readyIndex new) new

/-- The loop over a queue finds the first thread with the least `sc_usrpri` and priority together. -/
theorem pickFrom_argmin {prev : Addr → Option Addr} : ∀ {fuel : Nat} {l : List Addr}
    {head before : Option Addr} {new : Addr}, DList s.queues.next prev head before l → l.length ≤ fuel →
    l.foldl (List.argAux fun b c => s.usrPriority b < s.usrPriority c) (some new) =
      some (pickFrom s fuel head new)
  | 0, [], _, _, _, _, _ => rfl
  | _ + 1, [], _, _, _, hlist, _ => by
    obtain rfl := hlist
    rfl
  | fuel + 1, x :: l, _, _, new, hlist, hlen => by
    obtain ⟨rfl, -, hrest⟩ := hlist
    have hstep : List.argAux (fun b c => s.usrPriority b < s.usrPriority c) (some new) x =
        some (if s.usrPriority new > s.usrPriority x then x else new) :=
      (apply_ite some _ _ _).symm
    rw [List.foldl_cons, hstep]
    exact pickFrom_argmin hrest (Nat.le_of_succ_le_succ hlen)

/-- **What `scheduler` chooses**: in the first ready queue that is not empty, the first thread for which
    the sum of `sc_usrpri` and the priority is least. -/
theorem pick_argmin (h : s.queues.Holds q) {i : Nat} (hi : i < maxReadyq)
    (hfirst : ∀ j : Nat, j < i → q (.ready j) = []) (hne : q (.ready i) ≠ []) :
    s.pick = (q (.ready i)).argmin s.usrPriority := by
  obtain ⟨x, l, hq⟩ := List.exists_cons_of_ne_nil hne
  have hlist := h.list (.ready i)
  rw [hq] at hlist
  have hhead : (List.range maxReadyq).findSome? (fun i : Nat => s.queues.head (.ready i)) = some x := by
    obtain ⟨m, hm⟩ := Nat.exists_eq_add_of_lt hi
    have hnone : (List.range i).findSome? (fun i : Nat => s.queues.head (.ready i)) = none := by
      refine List.findSome?_eq_none_iff.mpr fun j hj => ?_
      rw [h.head_eq, hfirst j (List.mem_range.mp hj), List.head?_nil]
    rw [hm, Nat.add_assoc, List.range_add, List.range_succ_eq_map, List.map_cons, List.findSome?_append,
      hnone, Option.none_or, List.findSome?_cons, Nat.add_zero, hlist.1]
  have hlen : l.length ≤ walkFuel :=
    length_le_walkFuel (List.nodup_cons.mp (hq ▸ h.nodup (.ready i))).2
  rw [pick, hhead, hq]
  exact (pickFrom_argmin hlist.2.2 hlen).symm

/-- **The thread that `scheduler` switches to** is the first one with the least sum of `sc_usrpri` and
    priority in the first queue that is not empty, and the queues change as they should. It is a best one of
    those with its `sc_usrpri` just if these have the same priority in that queue: the least sum is the
    worst priority. -/
theorem scheduler_best {i : Nat} {new : Addr} (h : s.queues.Holds q)
    (hindexed : ∀ {j x}, x ∈ q (.ready j) →
      j = s.readyIndex x ∧ 0 ≤ s.priority x ∧ s.priority x ≤ 159)
    (hfree : s.scState s.currentThread = .running → ∀ c, s.currentThread ∉ q c)
    (hfirst : ∀ j : Nat, j < i → q (.ready j) = [])
    (hnew : (q (.ready i)).argmin s.usrPriority = some new)
    (hswitch : s.scCid new = .idle → s.scState s.currentThread ≠ .running) :
    s.scheduler.currentThread = new ∧ s.scheduler.queues.Holds (switchQueues s q new) ∧
      (∀ {j x}, x ∈ q (.ready j) → (i : Int) ≤ j) ∧
      ((∀ {j x}, x ∈ q (.ready j) → s.scUsrpri x = s.scUsrpri new → s.priority x ≤ s.priority new) ↔
        ∀ x ∈ q (.ready i), s.scUsrpri x = s.scUsrpri new → s.priority x = s.priority new) := by
  have hmem : new ∈ q (.ready i) := List.argmin_mem hnew
  obtain ⟨hidx, h0, h159⟩ := hindexed hmem
  have hi : i < maxReadyq := by
    have hlt := (readyIndex_range h0 h159).2
    unfold maxReadyq
    omega
  have hpick : s.pick = some new :=
    (pick_argmin h hi hfirst (List.ne_nil_of_mem hmem)).trans hnew
  have hrun : s.scheduler = s.requeueCurrent.switchTo new := by
    unfold scheduler
    rw [hpick]
    exact if_neg fun hc => hswitch hc.1 hc.2
  have hle : ∀ {j x}, x ∈ q (.ready j) → (i : Int) ≤ j := by
    intro j x hx
    obtain ⟨hj, h0, h159⟩ := hindexed hx
    by_contra hlt
    obtain ⟨n, rfl⟩ := Int.eq_ofNat_of_zero_le (hj ▸ (readyIndex_range h0 h159).1)
    rw [hfirst n (by omega)] at hx
    cases hx
  refine ⟨by rw [hrun]; rfl, ?_, hle, fun hbest x hx hu => ?_, fun heven {j x} hx hu => ?_⟩
  · have hsame := sameThreads_requeueCurrent s
    have hnew : s.requeueCurrent.readyIndex new = s.readyIndex new :=
      readyIndex_congr (congrFun hsame.cpupri new) (congrFun hsame.inhpri new)
    rw [hidx] at hmem
    rw [hrun]
    unfold switchQueues switchTo eraseReady
    unfold requeueCurrent
    dsimp only
    split
    · rename_i hrunning
      exact (h.append (hfree hrunning)).unlink_clear (mem_pushReady.mpr (.inl hmem))
    · exact h.unlink_clear hmem
  · -- of two threads with one `sc_usrpri` the loop prefers the one with the lower priority
    have hleast : s.usrPriority new ≤ s.usrPriority x := List.le_of_mem_argmin hx hnew
    have hhigh := hbest hx hu
    unfold usrPriority at hleast
    omega
  · rcases (hle hx).eq_or_lt with he | hlt
    · rw [← he] at hx
      exact (heven x hx hu).le
    · by_contra hgt
      have hback := readyIndex_le (not_le.mp hgt).le
      have hj := (hindexed hx).1
      omega

/-- Of two threads with the same priority, the one that came first is switched to, and it is a best one. -/
theorem scheduler_best_user : readyUsersQueues 13 13 (.ready 28) = [2, 3] ∧
    (readyUsers 13 13).scheduler.currentThread = 2 ∧
    (readyUsers 13 13).scheduler.queues.Holds
      (switchQueues (readyUsers 13 13) (readyUsersQueues 13 13) 2) ∧
    ∀ {j x}, x ∈ readyUsersQueues 13 13 (.ready j) →
      (readyUsers 13 13).scUsrpri x = (readyUsers 13 13).scUsrpri 2 →
      (readyUsers 13 13).priority x ≤ (readyUsers 13 13).priority 2 := by
  have hruns : Runs (readyUsers 13 13) (readyUsersQueues 13 13) :=
    readyUsers_holds (by decide) (by decide)
  have hqueue : readyUsersQueues 13 13 (.ready 28) = [2, 3] := by decide +kernel
  have hnew : (readyUsersQueues 13 13 (.ready (28 : Nat))).argmin (readyUsers 13 13).usrPriority =
      some 2 := by decide +kernel
  obtain ⟨hcur, hholds, -, hbest⟩ := scheduler_best hruns.ready.holds
    (fun hx => ⟨hruns.ready.indexed hx, hruns.ready.priority_range _⟩) (fun _ => hruns.current_free)
    (by decide +kernel) hnew (by decide +kernel)
  refine ⟨hqueue, hcur, hholds, hbest.mpr ?_⟩
  rw [show ((28 : Nat) : Int) = 28 from rfl, hqueue]
  exact List.forall_mem_cons.mpr ⟨fun _ => rfl, List.forall_mem_singleton.mpr (by decide +kernel)⟩

/-- Of two threads with the priorities 18 and 16, which share a queue, it switches to the worse. -/
theorem scheduler_not_best : (readyUsers 13 11).scheduler.currentThread = 3 ∧
    (readyUsers 13 11).scState 2 = .ready ∧
    (readyUsers 13 11).readyIndex 2 = (readyUsers 13 11).readyIndex 3 ∧
    (readyUsers 13 11).scUsrpri 2 = (readyUsers 13 11).scUsrpri 3 ∧
    (readyUsers 13 11).priority 3 < (readyUsers 13 11).priority 2 := by
  decide +kernel

/-- **One pass of `timerthread`** raises every thread of the queues 0 to 30 once. -/
theorem recompute_raises (h : s.queues.Holds q)
    (hindexed : ∀ {j x}, x ∈ q (.ready j) → j = s.readyIndex x)
    (hcap : ∀ {j x}, x ∈ q (.ready j) → s.scCpupri x ≤ maxpri (s.scCid x)) :
    ∃ t q', recompute s = some t ∧ Pass 0 31 s t q q' := raiseQueues_pass 31 0 h hindexed hcap

/-- Two user threads on the queues 28 and 27: the first one is raised from 19 to 21 and comes to the queue of
    the other, the second one from 20 to 22 and stays. -/
theorem recompute_raises_user : readyUsersQueues 14 15 (.ready 28) = [2] ∧
    readyUsersQueues 14 15 (.ready 27) = [3] ∧
    ∃ t q', recompute (readyUsers 14 15) = some t ∧
      Pass 0 31 (readyUsers 14 15) t (readyUsersQueues 14 15) q' ∧
      t.scCpupri 2 = 21 ∧ t.scCpupri 3 = 22 ∧ t.readyIndex 2 = 27 ∧ t.readyIndex 3 = 27 := by
  have hruns : Runs (readyUsers 14 15) (readyUsersQueues 14 15) :=
    readyUsers_holds (by decide) (by decide)
  have h28 : readyUsersQueues 14 15 (.ready 28) = [2] := by decide +kernel
  have h27 : readyUsersQueues 14 15 (.ready 27) = [3] := by decide +kernel
  obtain ⟨t, q', hrun, hpass⟩ := recompute_raises hruns.ready.holds hruns.ready.indexed fun {j x} hx => by
    simp only [readyUsersQueues, mem_pushReady, List.not_mem_nil, false_or] at hx
    rcases hx with ⟨rfl, -⟩ | ⟨rfl, -⟩ <;> decide +kernel
  have h2 : t.scCpupri 2 = 21 :=
    (hpass.raised (j := 28) (by decide) (by decide) (by simp [h28])).trans (by decide +kernel)
  have h3 : t.scCpupri 3 = 22 :=
    (hpass.raised (j := 27) (by decide) (by decide) (by simp [h27])).trans (by decide +kernel)
  have hinh : ∀ x, t.scInhpri x = 0 := fun x => congrFun (congrArg scInhpri hpass.same) x
  refine ⟨h28, h27, t, q', hrun, hpass, h2, h3, ?_, ?_⟩
  · rw [readyIndex, priority, h2, hinh]
    rfl
  · rw [readyIndex, priority, h3, hinh]
    rfl

end Threads

end AtomOs
