import AtomOs.Sched.Running
import AtomOs.Lib.Run

/-!
# Barriers

A barrier for `N` threads keeps those that wait in a list through the links that the ready queues
use, the newest first. The thread that completes the count wakes all of them, and reads the link of
each before `wakeup` overwrites it.

**`barrier_generations`**: number the calls of `pthread_barrier_wait` in the order of arrival. In
every run, with threads that come back as often as they like, the threads that wait are those of the
generation that is not complete, and the arrival that completes it makes exactly them ready, each on
one ready queue.

The list of a barrier is not one of the wait queues of `Threads`, but nothing that happens to those
touches it (`withQueue`), so that the invariant can count it as one, at the barrier's address.
-/

namespace AtomOs

open Lib Threads Function List

/-- A barrier (`ba_required`, `ba_present`, `ba_waitq`) and the threads. -/
structure Barrier where
  threads : Threads
  baRequired : Int
  baPresent : Int
  baWaitq : Option Addr

/-- `syscall_pthread_barrier_init`; the count is an `unsigned int`, stored in an `int`. -/
def barrierInit (count : Nat) (threads : Threads) : Barrier :=
  { threads, baRequired := i32 count, baPresent := 0, baWaitq := none }

/-- The loop of `syscall_pthread_barrier_wait` that wakes the waiting threads. `none` if they do not
    end. -/
def wakeWalk : Nat → Option Addr → Threads → Option Threads
  | _, none, s => some s
  | 0, some _, _ => none
  | fuel + 1, some t1, s => wakeWalk fuel (s.queues.next t1) (wakeup t1 s)

/-- The links that a thread writes when it waits. -/
def pushLinks (cur : Addr) (waitq : Option Addr) (s : Threads) : Threads :=
  { s.setState cur .sleep with queues := { s.queues with
      next := store s.queues.next (some cur) waitq
      prev := store (store s.queues.prev waitq (some cur)) (some cur) none } }

/-- `syscall_pthread_barrier_wait`, by the current thread. -/
def barrierWait (s : Barrier) : Option Barrier :=
  if i32 (s.baPresent + 1) = s.baRequired then
    (wakeWalk walkFuel s.baWaitq s.threads).map fun threads =>
      { s with threads, baPresent := 0, baWaitq := none }
  else
    let cur := s.threads.currentThread
    some { s with
      threads := (pushLinks cur s.baWaitq s.threads).scheduler
      baPresent := i32 (s.baPresent + 1)
      baWaitq := some cur }

/-- What can happen: the current thread arrives at the barrier, loses the processor, uses up a tick;
    priorities of ready threads are raised; and threads sleep on other objects and are woken up. -/
inductive BarrierOp
  | wait | preempt | tick | recompute
  | block (a : Addr)
  | wake (a : Addr)

/-- One step with the barrier at address `b`. The second component are the arrivals so far, the
    newest first. The idle thread makes no calls that can block. -/
def barrierStep (b : Addr) : Barrier × List Addr → BarrierOp → Option (Barrier × List Addr)
  | (s, arr), .wait =>
    if s.threads.scCid s.threads.currentThread = .idle then none
    else (barrierWait s).map fun s' => (s', s.threads.currentThread :: arr)
  | (s, arr), .preempt => some ({ s with threads := s.threads.scheduler }, arr)
  | (s, arr), .tick => some ({ s with threads := rrClTick s.threads.currentThread s.threads }, arr)
  | (s, arr), .recompute => s.threads.recompute.map fun threads => ({ s with threads }, arr)
  | (s, arr), .block a =>
    if a = b ∨ s.threads.scCid s.threads.currentThread = .idle then none
    else some ({ s with threads := (sleepOn a s.threads).scheduler }, arr)
  | (s, arr), .wake a =>
    if a = b then none else some ({ s with threads := wakeFirst a s.threads }, arr)

/-! ## The barrier's list as one more wait queue -/

namespace Threads

/-- The threads, with the list `l` as the wait queue at `b`. -/
def withQueue (b : Addr) (l : List Addr) (s : Threads) : Threads :=
  { s with queues := s.queues.setQueue (.obj b) l.head? l.getLast? }

variable {b : Addr} {l : List Addr} {s : Threads}

theorem addReadyq_withQueue (thr : Addr) :
    addReadyq thr (s.withQueue b l) = (addReadyq thr s).withQueue b l :=
  congrArg (fun F => { addReadyq thr s with queues := F }) (Queues.append_setQueue (by simp))

theorem wakeup_withQueue (thr : Addr) :
    wakeup thr (s.withQueue b l) = (wakeup thr s).withQueue b l := by
  unfold wakeup
  by_cases hproc : (rrClWakeup thr s).procReady thr = true
  · simp only [hproc, if_true]
    rw [← addReadyq_withQueue]
    exact if_pos hproc
  · simp only [hproc]
    exact if_neg hproc

theorem rrClTick_withQueue (thr : Addr) :
    rrClTick thr (s.withQueue b l) = (rrClTick thr s).withQueue b l := by
  unfold rrClTick
  simp only
  split <;> rename_i hleft
  · rw [if_pos (show s.scTqleft thr - 20 ≤ 0 from hleft)]
    rfl
  · rw [if_neg (show ¬ s.scTqleft thr - 20 ≤ 0 from hleft)]
    rfl

theorem head_withQueue (i : Int) :
    (s.withQueue b l).queues.head (.ready i) = s.queues.head (.ready i) := by
  show update s.queues.head (.obj b) l.head? (.ready i) = _
  rw [update_of_ne (by simp)]

theorem pickFrom_withQueue : ∀ (fuel : Nat) (p : Option Addr) (new : Addr),
    (s.withQueue b l).pickFrom fuel p new = s.pickFrom fuel p new
  | 0, _, _ => by simp [pickFrom]
  | _ + 1, none, _ => by simp [pickFrom]
  | fuel + 1, some t, new => by
    exact pickFrom_withQueue fuel _ _

theorem pick_withQueue : (s.withQueue b l).pick = s.pick := by
  unfold pick
  simp only [head_withQueue, pickFrom_withQueue]
  rfl

theorem requeueCurrent_withQueue :
    (s.withQueue b l).requeueCurrent = s.requeueCurrent.withQueue b l := by
  unfold requeueCurrent
  simp only
  split <;> rename_i hrun
  · rw [if_pos (show s.scState s.currentThread = .running from hrun)]
    have hq : (s.withQueue b l).queues.append (.ready (s.readyIndex s.currentThread)) s.currentThread =
        (s.queues.append (.ready (s.readyIndex s.currentThread)) s.currentThread).setQueue (.obj b)
          l.head? l.getLast? := Queues.append_setQueue (by simp)
    exact congrArg (fun F => { s with
      scState := update s.scState s.currentThread .ready
      queues := F }) hq
  · rw [if_neg (show ¬ s.scState s.currentThread = .running from hrun)]

theorem switchTo_withQueue (new : Addr) :
    (s.withQueue b l).switchTo new = (s.switchTo new).withQueue b l :=
  congrArg (fun F => { s.switchTo new with queues := Queues.clear F new })
    (Queues.unlink_setQueue (by simp))

theorem scheduler_withQueue : (s.withQueue b l).scheduler = s.scheduler.withQueue b l := by
  unfold scheduler
  rw [pick_withQueue]
  cases s.pick with
  | none => rfl
  | some new =>
    simp only
    rw [requeueCurrent_withQueue, switchTo_withQueue]
    split <;> rename_i hidle
    · rw [if_pos (show s.scCid new = .idle ∧ s.scState s.currentThread = .running from hidle)]
      rfl
    · rw [if_neg (show ¬ (s.scCid new = .idle ∧ s.scState s.currentThread = .running) from hidle)]

theorem sleepOn_withQueue {a : Addr} (ha : a ≠ b) :
    sleepOn a (s.withQueue b l) = (sleepOn a s).withQueue b l :=
  congrArg (fun F => { sleepOn a s with queues := F }) (Queues.append_setQueue (by simpa using ha))

theorem wakeFirst_withQueue {a : Addr} (ha : a ≠ b) :
    wakeFirst a (s.withQueue b l) = (wakeFirst a s).withQueue b l := by
  have htake : (s.withQueue b l).queues.take (.obj a) = ((s.queues.take (.obj a)).1,
      (s.queues.take (.obj a)).2.setQueue (.obj b) l.head? l.getLast?) :=
    Queues.take_setQueue (by simpa using ha)
  unfold wakeFirst
  rw [htake]
  cases s.queues.take (.obj a) with
  | mk o F =>
    cases o with
    | none => rfl
    | some t => exact addReadyq_withQueue (s := { s with queues := F }) t

theorem raisePriority_withQueue (thr : Addr) :
    raisePriority thr (s.withQueue b l) = (raisePriority thr s).withQueue b l :=
  congrArg (fun F => { raisePriority thr s with queues := F }) (Queues.append_setQueue (by simp))

theorem raiseWalk_withQueue : ∀ (fuel : Nat) (p : Option Addr) (s : Threads),
    raiseWalk fuel p (s.withQueue b l) = (raiseWalk fuel p s).map (withQueue b l)
  | _, none, s => by simp [raiseWalk]
  | 0, some _, s => by simp [raiseWalk]
  | fuel + 1, some thr, s => by
    simp only [raiseWalk]
    rw [raisePriority_withQueue]
    exact raiseWalk_withQueue fuel _ _

theorem raiseQueue_withQueue (i : Int) (s : Threads) :
    raiseQueue i (s.withQueue b l) = (raiseQueue i s).map (withQueue b l) := by
  unfold raiseQueue
  rw [← raiseWalk_withQueue]
  rw [head_withQueue]
  unfold withQueue Queues.setQueue
  have hne : Chan.obj b ≠ .ready i := by simp
  rw [update_comm hne l.head? none s.queues.head,
    update_comm hne l.getLast? none s.queues.tail]

theorem raiseQueues_withQueue : ∀ (n : Nat) (i : Int) (s : Threads),
    raiseQueues n i (s.withQueue b l) = (raiseQueues n i s).map (withQueue b l)
  | 0, _, _ => rfl
  | n + 1, i, s => by
    unfold raiseQueues
    rw [raiseQueue_withQueue]
    cases raiseQueue i s with
    | none => rfl
    | some t => exact raiseQueues_withQueue n (i + 1) t

theorem recompute_withQueue : (s.withQueue b l).recompute = s.recompute.map (withQueue b l) :=
  raiseQueues_withQueue _ _ _

end Threads

/-! ## What is true between two steps -/

/-- The threads that wait: the arrivals of the generation that is not complete. -/
def waiting (N : Nat) (arr : List Addr) : List Addr := arr.take (arr.length % N)

theorem length_waiting (N : Nat) (arr : List Addr) : (waiting N arr).length = arr.length % N := by
  unfold waiting
  rw [length_take]
  exact min_eq_left (Nat.mod_le _ _)

theorem succ_mod {N : Nat} (hN : 1 ≤ N) (n : Nat) :
    (n + 1) % N = if n % N + 1 = N then 0 else n % N + 1 := by
  have hlt : n % N < N := Nat.mod_lt _ hN
  rw [Nat.add_mod]
  split
  · rename_i hfull
    by_cases h1 : N = 1
    · rw [h1]
      omega
    · rw [Nat.mod_eq_of_lt (show 1 < N by omega), hfull, Nat.mod_self]
  · rw [Nat.mod_eq_of_lt (show 1 < N by omega), Nat.mod_eq_of_lt (by omega)]

theorem waiting_cons {N : Nat} (hN : 1 ≤ N) (t : Addr) (arr : List Addr) :
    waiting N (t :: arr) = if arr.length % N + 1 = N then [] else t :: waiting N arr := by
  unfold waiting
  rw [length_cons, succ_mod hN]
  split <;> rfl

/-- With the barrier's list as the queue at `b`, everything is in order. -/
structure BarrierOk (N : Nat) (b : Addr) (s : Barrier) (arr : List Addr) (q : Chan → List Addr) :
    Prop where
  runs : Runs (s.threads.withQueue b (waiting N arr)) q
  list : q (.obj b) = waiting N arr
  waitq : s.baWaitq = (waiting N arr).head?
  present : s.baPresent = (waiting N arr).length
  required : s.baRequired = i32 N
  procReady : ∀ t, s.threads.procReady t = true

variable {N : Nat} {b : Addr} {s s' : Barrier} {arr arr' : List Addr} {q : Chan → List Addr}

theorem BarrierOk.init {threads : Threads} (h : Runs threads q) (hb : q (.obj b) = [])
    (hproc : ∀ t, threads.procReady t = true) : BarrierOk N b (barrierInit N threads) [] q := by
  have hnil : waiting N [] = [] := take_nil
  have hsame : threads.withQueue b [] = threads := by
    have hself := h.ready.holds.setQueue_self (i := .obj b)
    rw [hb] at hself
    show { threads with queues := threads.queues.setQueue (.obj b) none none } = threads
    rw [show threads.queues.setQueue (.obj b) none none = threads.queues from hself]
  constructor
  · show Runs (threads.withQueue b (waiting N [])) q
    rw [hnil, hsame]
    exact h
  · rw [hnil, hb]
  · rfl
  · exact Int.natCast_zero.symm
  · simp only [barrierInit]
  · exact hproc

theorem BarrierOk.waits (h : BarrierOk N b s arr q) {t : Addr} (ht : t ∈ waiting N arr) :
    s.threads.scState t = .sleep := by
  rw [← h.list] at ht
  exact h.runs.asleep ht

theorem BarrierOk.few (h : BarrierOk N b s arr q) : (waiting N arr).length ≤ maxThreads := by
  obtain ⟨l, hl, hmem⟩ := h.runs.few
  have hnd : (waiting N arr).Nodup := by
    rw [← h.list]
    exact h.runs.ready.holds.nodup _
  have hsub : waiting N arr ⊆ l := fun t ht =>
    hmem t (by rw [show (s.threads.withQueue b (waiting N arr)).scState t = .sleep from h.waits ht]; simp)
  exact (hnd.length_le_of_subset hsub).trans hl

theorem i32_succ_of_few {n : Nat} (h : n ≤ maxThreads) : i32 ((n : Int) + 1) = n + 1 := by
  have h1 : (n : Int) ≤ 256 := Int.ofNat_le.mpr h
  exact i32_of_range (by linarith) (by linarith)

theorem succ_eq_i32 {n m : Nat} (hn : n ≤ 2147483646) (hm : m < 4294967296) :
    (n : Int) + 1 = i32 m ↔ n + 1 = m := by
  unfold i32
  split <;> omega

theorem BarrierOk.completes (h : BarrierOk N b s arr q) (hword : N < 4294967296) :
    i32 (s.baPresent + 1) = s.baRequired ↔ arr.length % N + 1 = N := by
  have hfew := h.few
  rw [length_waiting] at hfew
  rw [h.present, h.required, length_waiting, i32_succ_of_few hfew]
  exact succ_eq_i32 (Nat.le_trans hfew (by decide)) hword

/-! ## Waking the threads that wait -/

theorem procReady_wakeup (thr : Addr) (t : Threads) : (wakeup thr t).procReady = t.procReady := by
  unfold wakeup
  simp only
  split <;> rfl

/-- `wakeup` writes the links of one thread, and of threads that are on queues. -/
theorem wakeup_links {t : Threads} {thr x : Addr} (hok : ReadyOk t q) (hx : x ≠ thr)
    (hfree : ∀ c, x ∉ q c) (hproc : t.procReady thr = true) :
    (wakeup thr t).queues.next x = t.queues.next x ∧ (wakeup thr t).queues.prev x = t.queues.prev x := by
  have hrun : wakeup thr t = addReadyq thr ((rrClWakeup thr t).setState thr .ready) := if_pos hproc
  have hne : some x ≠ some thr := fun he => hx (Option.some.inj he)
  have htail : ∀ c, some x ≠ t.queues.tail c := by
    intro c he
    rw [hok.holds.tail] at he
    exact hfree c (mem_of_getLast? he.symm)
  rw [hrun]
  exact ⟨(store_of_ne (htail _)).trans (store_of_ne hne), store_of_ne hne⟩

theorem wakeWalk_spec : ∀ {l : List Addr} {fuel : Nat} {p before : Option Addr} {t : Threads}
    {q : Chan → List Addr}, DList t.queues.next t.queues.prev p before l → l.Nodup →
    (∀ x ∈ l, t.scState x = .sleep) → (∀ x ∈ l, ∀ c, x ∉ q c) → (∀ x, t.procReady x = true) →
    Runs t q → l.length ≤ fuel →
    ∃ u q', wakeWalk fuel p t = some u ∧ Runs u q' ∧ (∀ a, q' (.obj a) = q (.obj a)) ∧
      (∀ x, u.scState x = if x ∈ l then .ready else t.scState x) ∧
      u.procReady = t.procReady ∧ u.currentThread = t.currentThread
  | [], fuel, p, before, t, q, h, _, _, _, _, hok, _ => by
    obtain rfl : p = none := h
    refine ⟨t, q, ?_, hok, fun _ => rfl, fun x => by simp, rfl, rfl⟩
    unfold wakeWalk
    rfl
  | x :: l, fuel, p, before, t, q, h, hnd, hsleep, hfree, hproc, hok, hfuel => by
    obtain ⟨rfl, -, hrest⟩ := h
    obtain ⟨hx, hnd⟩ := nodup_cons.mp hnd
    have hxsleep := hsleep x mem_cons_self
    have hxfree := hfree x mem_cons_self
    have hne : ∀ z ∈ l, z ≠ x := fun z hz he => hx (he ▸ hz)
    have hlinks : ∀ z ∈ l, _ := fun z hz =>
      wakeup_links hok.ready (hne z hz) (hfree z (mem_cons_of_mem _ hz)) (hproc x)
    have hstate : ∀ z, (wakeup x t).scState z = if z = x then .ready else t.scState z := fun z => by
      rw [scState_wakeup (hproc x)]
      exact update_apply _ _ _ _
    cases fuel with
    | zero => exact absurd hfuel (by simp)
    | succ fuel =>
      obtain ⟨u, q', hwalk, hu, hobj, hall, hpr, hcur⟩ := wakeWalk_spec
        (hrest.congr (fun z hz => (hlinks z hz).1) fun z hz => (hlinks z hz).2) hnd
        (fun z hz => by
          rw [hstate, if_neg (hne z hz)]
          exact hsleep z (mem_cons_of_mem _ hz))
        (fun z hz => not_mem_pushReady (hfree z (mem_cons_of_mem _ hz)) (hne z hz))
        (by rw [procReady_wakeup]; exact hproc)
        (hok.wakeup hxsleep hxfree (hproc x)) (Nat.le_of_succ_le_succ hfuel)
      refine ⟨u, q', ?_, hu, fun a => (hobj a).trans (pushReady_obj _ _ _ a), fun z => ?_,
        hpr.trans (procReady_wakeup _ _), hcur.trans (currentThread_wakeup _ _)⟩
      · exact hwalk
      · rw [hall, hstate]
        by_cases hz : z = x
        · simp [hz]
        · simp [hz]

theorem wakeWalk_withQueue {b : Addr} {l : List Addr} : ∀ (fuel : Nat) (p : Option Addr) (t : Threads),
    wakeWalk fuel p (t.withQueue b l) = (wakeWalk fuel p t).map (withQueue b l)
  | _, none, t => by simp [wakeWalk]
  | 0, some _, t => by simp [wakeWalk]
  | fuel + 1, some thr, t => by
    simp only [wakeWalk]
    rw [wakeup_withQueue]
    exact wakeWalk_withQueue fuel _ _

/-! ## One step -/

/-- **An arrival that completes its generation** makes the threads that wait ready, and goes on. -/
theorem BarrierOk.complete (h : BarrierOk N b s arr q) (hN : 1 ≤ N) (hword : N < 4294967296)
    (hfull : arr.length % N + 1 = N) :
    ∃ s' q', barrierWait s = some s' ∧
      BarrierOk N b s' (s.threads.currentThread :: arr) q' ∧
      s'.threads.currentThread = s.threads.currentThread ∧
      ∀ x, s'.threads.scState x = if x ∈ waiting N arr then .ready else s.threads.scState x := by
  have hlist := h.runs.ready.holds.list (.obj b)
  have hnd := h.runs.ready.holds.nodup (.obj b)
  rw [h.list] at hlist hnd
  have hhead : (s.threads.withQueue b (waiting N arr)).queues.head (.obj b) = s.baWaitq := by
    rw [h.waitq]
    exact update_self _ _ _
  rw [hhead] at hlist
  -- The list is taken out of the queue at `b`.
  have hmem : ∀ {x c}, x ∈ update q (.obj b) [] c → x ∈ q c ∧ c ≠ .obj b := by
    intro x c hx
    by_cases hc : c = .obj b
    · rw [hc, update_self] at hx
      exact absurd hx not_mem_nil
    · rw [update_of_ne hc] at hx
      exact ⟨hx, hc⟩
  have hholds : (s.threads.withQueue b []).queues.Holds (update q (.obj b) []) := by
    have hnil := h.runs.ready.holds.setQueue_nil (i := .obj b)
    rw [show (s.threads.withQueue b (waiting N arr)).queues.setQueue (.obj b) none none =
      s.threads.queues.setQueue (.obj b) none none from Queues.setQueue_setQueue _ _ _ _ _ _] at hnil
    exact hnil
  have hrest : Runs (s.threads.withQueue b []) (update q (.obj b) []) :=
    ⟨h.runs.ready.otherQueues hholds (fun i => update_of_ne (by simp) _ _) (fun _ => Iff.rfl)
      rfl rfl, h.runs.running, fun hx => h.runs.asleep (hmem hx).1, h.runs.idle, h.runs.few⟩
  obtain ⟨u, q', hwalk, hu, hobj, hstate, hproc, hcur⟩ := wakeWalk_spec
    (show DList (s.threads.withQueue b []).queues.next (s.threads.withQueue b []).queues.prev
      s.baWaitq none (waiting N arr) from hlist) hnd (fun x hx => h.waits hx)
    (fun x hx c hc => (hmem hc).2 (h.runs.ready.holds.apart (hmem hc).1 (by rw [h.list]; exact hx)))
    h.procReady hrest (length_le_walkFuel hnd)
  rw [wakeWalk_withQueue] at hwalk
  obtain ⟨t, ht, rfl⟩ := Option.map_eq_some_iff.mp hwalk
  have hnil : waiting N (s.threads.currentThread :: arr) = [] := by
    rw [waiting_cons hN, if_pos hfull]
  refine ⟨{ s with threads := t, baPresent := 0, baWaitq := none }, q', ?_, ⟨?_, ?_, ?_, ?_, ?_, ?_⟩,
    hcur, hstate⟩
  · unfold barrierWait
    rw [if_pos ((h.completes hword).mpr hfull), ht]
    rfl
  · rw [hnil]
    exact hu
  · rw [hnil, hobj, update_self]
  · rw [hnil]
    rfl
  · rw [hnil]
    exact Int.natCast_zero.symm
  · exact h.required
  · intro x
    rw [show t.procReady = s.threads.procReady from hproc]
    exact h.procReady x

/-- **An arrival that does not complete its generation** sleeps, in front of those that came
    before. -/
theorem BarrierOk.join (h : BarrierOk N b s arr q) (hN : 1 ≤ N) (hword : N < 4294967296)
    (hcid : s.threads.scCid s.threads.currentThread ≠ .idle) (hfull : arr.length % N + 1 ≠ N) :
    ∃ s' q', barrierWait s = some s' ∧
      BarrierOk N b s' (s.threads.currentThread :: arr) q' ∧
      ∀ x, s'.threads.scState x = .ready → s.threads.scState x = .ready := by
  have hW : waiting N (s.threads.currentThread :: arr) = s.threads.currentThread :: waiting N arr := by
    rw [waiting_cons hN, if_neg hfull]
  have hfree : ∀ c, s.threads.currentThread ∉ q c := h.runs.current_free
  have hrunning : s.threads.scState s.threads.currentThread = .running := h.runs.current_running
  have hholds : ((pushLinks s.threads.currentThread s.baWaitq s.threads).withQueue b
      (s.threads.currentThread :: waiting N arr)).queues.Holds
        (update q (.obj b) (s.threads.currentThread :: waiting N arr)) := by
    have hhead : (s.threads.withQueue b (waiting N arr)).queues.head (.obj b) = s.baWaitq := by
      rw [h.waitq]
      exact update_self _ _ _
    rw [← h.list]
    refine h.runs.ready.holds.push hfree ?_ ?_ ?_ ?_
    · rw [hhead]
      rfl
    · rw [hhead]
      rfl
    · exact (update_idem _ _ _).symm
    · exact (update_idem _ _ _).symm
  have hok : ReadyOk ((pushLinks s.threads.currentThread s.baWaitq s.threads).withQueue b
      (s.threads.currentThread :: waiting N arr))
        (update q (.obj b) (s.threads.currentThread :: waiting N arr)) :=
    h.runs.ready.otherQueues hholds (fun i => update_of_ne (by simp) _ _)
      (update_sleep_ready (by rw [hrunning]; simp)) rfl rfl
  obtain ⟨q', hruns, hobj, -, hready⟩ := h.runs.sleepSwitch hcid hok rfl rfl rfl fun {a x} hx => by
    by_cases ha : a = b
    · subst ha
      rw [update_self] at hx
      rcases mem_cons.mp hx with rfl | hx
      · exact .inl rfl
      · exact .inr (h.waits hx)
    · rw [update_of_ne (by simpa using ha)] at hx
      exact .inr (h.runs.asleep hx)
  rw [scheduler_withQueue] at hruns hready
  refine ⟨_, q', if_neg fun he => hfull ((h.completes hword).mp he), ⟨?_, ?_, ?_, ?_, ?_, ?_⟩, hready⟩
  · rw [hW]
    exact hruns
  · rw [hW, hobj, update_self]
  · rw [hW]
    rfl
  · show i32 (s.baPresent + 1) = _
    rw [hW, h.present, i32_succ_of_few h.few, length_cons]
    push_cast
    rfl
  · exact h.required
  · intro x
    show (pushLinks _ _ s.threads).scheduler.procReady x = true
    rw [(sameThreads_scheduler _).procReady]
    exact h.procReady x

theorem BarrierOk.others {t : Threads} {q' : Chan → List Addr} (h : BarrierOk N b s arr q)
    (hruns : Runs (t.withQueue b (waiting N arr)) q') (hobj : q' (.obj b) = q (.obj b))
    (hproc : t.procReady = s.threads.procReady) : BarrierOk N b { s with threads := t } arr q' :=
  ⟨hruns, hobj.trans h.list, h.waitq, h.present, h.required,
    fun x => by rw [show t.procReady = _ from hproc]; exact h.procReady x⟩

theorem procReady_wakeFirst (a : Addr) (t : Threads) : (wakeFirst a t).procReady = t.procReady := by
  unfold wakeFirst
  cases t.queues.take (.obj a) with
  | mk o F => cases o <;> rfl

theorem procReady_rrClTick (thr : Addr) (t : Threads) : (rrClTick thr t).procReady = t.procReady := by
  unfold rrClTick
  simp only
  split <;> rfl

theorem BarrierOk.step (hN : 1 ≤ N) (hword : N < 4294967296) {op : BarrierOp}
    (h : BarrierOk N b s arr q) (hstep : barrierStep b (s, arr) op = some (s', arr')) :
    ∃ q', BarrierOk N b s' arr' q' := by
  cases op with
  | wait =>
    simp only [barrierStep] at hstep
    split at hstep
    · cases hstep
    rename_i hcid
    obtain ⟨t, ht, he⟩ := Option.map_eq_some_iff.mp hstep
    obtain ⟨rfl, rfl⟩ := Prod.mk.inj he
    by_cases hfull : arr.length % N + 1 = N
    · obtain ⟨t', q', hwait, hok, -⟩ := h.complete hN hword hfull
      cases hwait.symm.trans ht
      exact ⟨q', hok⟩
    · obtain ⟨t', q', hwait, hok, -⟩ := h.join hN hword hcid hfull
      cases hwait.symm.trans ht
      exact ⟨q', hok⟩
  | preempt =>
    cases hstep
    obtain ⟨q', hruns, hobj, -⟩ := h.runs.preempt
    rw [scheduler_withQueue] at hruns
    exact ⟨q', h.others hruns (hobj b) (sameThreads_scheduler _).procReady⟩
  | tick =>
    cases hstep
    have hruns := h.runs.tick
    rw [rrClTick_withQueue] at hruns
    exact ⟨q, h.others hruns rfl (procReady_rrClTick _ _)⟩
  | recompute =>
    obtain ⟨t, ht, he⟩ := Option.map_eq_some_iff.mp hstep
    obtain ⟨rfl, rfl⟩ := Prod.mk.inj he
    obtain ⟨u, q', hu, hruns, hobj, hframe⟩ := h.runs.recompute
    rw [recompute_withQueue, ht] at hu
    cases hu
    exact ⟨q', h.others hruns (hobj b) hframe.procReady⟩
  | block a =>
    simp only [barrierStep] at hstep
    split at hstep
    · cases hstep
    rename_i hno
    cases hstep
    have ha : a ≠ b := fun he => hno (.inl he)
    obtain ⟨q', hruns, hobj, -⟩ := h.runs.block (fun he => hno (.inr he)) a
    rw [sleepOn_withQueue ha, scheduler_withQueue] at hruns
    refine ⟨q', h.others hruns ?_ (sameThreads_scheduler _).procReady⟩
    rw [hobj, update_of_ne (by simpa using ha.symm)]
  | wake a =>
    simp only [barrierStep] at hstep
    split at hstep
    · cases hstep
    rename_i ha
    cases hstep
    obtain ⟨q', hruns, hobj⟩ := h.runs.wakeFirst a
    rw [wakeFirst_withQueue ha] at hruns
    refine ⟨q', h.others hruns ?_ (procReady_wakeFirst _ _)⟩
    rw [hobj, update_of_ne (by simpa [eq_comm] using ha)]

/-! ## Runs -/

def ReadyLists (s : Threads) (r : Int → List Addr) : Prop :=
  ∀ i, DList s.queues.next s.queues.prev (s.queues.head (.ready i)) none (r i)

/-- The arrivals of the generation of the `k`-th arrival, counted from 1, are complete with this
    one. -/
def generationEnd (N k : Nat) : Nat := N * ((k + N - 1) / N)

theorem mem_waiting {k : Nat} {t : Addr} (hN : 1 ≤ N) (hk : 1 ≤ k)
    (ht : arr.reverse[k - 1]? = some t) (hopen : arr.length < generationEnd N k) :
    t ∈ waiting N arr := by
  have hlt : k - 1 < arr.length := by
    have hlen := (List.getElem?_eq_some_iff.mp ht).1
    rwa [length_reverse] at hlen
  have hdiv : arr.length / N + 1 ≤ (k + N - 1) / N := Nat.div_lt_of_lt_mul hopen
  have hle : N * (arr.length / N + 1) ≤ k + N - 1 :=
    (Nat.mul_le_mul_left N hdiv).trans (Nat.mul_div_le _ _)
  have hsum := Nat.div_add_mod arr.length N
  rw [Nat.mul_add, Nat.mul_one] at hle
  rw [List.getElem?_reverse hlt] at ht
  unfold waiting
  refine mem_of_getElem? (i := arr.length - 1 - (k - 1)) ?_
  rw [List.getElem?_take_of_lt (by omega)]
  exact ht

/-- **Generations.** `N` threads meet at a barrier. From any state in which the processes are ready
    and nobody waits, after any run:

    * the barrier's list holds as many threads as it has counted, fewer than `N`;
    * a thread whose arrival was the `k`-th sleeps until the last arrival of its generation;
    * that arrival returns, and makes the others of its generation ready, each on one ready queue and
      once, and changes no other thread; and any other arrival makes no thread ready. -/
theorem barrier_generations {threads : Threads} (hN : 1 ≤ N) (hword : N < 2 ^ 32)
    (hruns : Runs threads q) (hb : q (.obj b) = []) (hproc : ∀ t, threads.procReady t = true)
    (hreach : Reaches (barrierStep b) (fun _ _ => True) (barrierInit N threads, []) (s, arr)) :
    (∃ l, DList s.threads.queues.next s.threads.queues.prev s.baWaitq none l ∧
      s.baPresent = l.length ∧ l.length < N) ∧
    (∀ k t, 1 ≤ k → arr.reverse[k - 1]? = some t → arr.length < generationEnd N k →
      s.threads.scState t = .sleep ∧ t ≠ s.threads.currentThread) ∧
    (s.threads.scCid s.threads.currentThread ≠ .idle → ∃ s', barrierWait s = some s' ∧
      if N ∣ arr.length + 1 then
        s'.threads.currentThread = s.threads.currentThread ∧
        (arr.take (N - 1)).length = N - 1 ∧ (arr.take (N - 1)).Nodup ∧
        s.threads.currentThread ∉ arr.take (N - 1) ∧
        (∀ t, s'.threads.scState t =
          if t ∈ arr.take (N - 1) then .ready else s.threads.scState t) ∧
        ∃ r, ReadyLists s'.threads r ∧
          ∀ t ∈ arr.take (N - 1), ∃ i, (r i).count t = 1 ∧ ∀ j, j ≠ i → t ∉ r j
      else ∀ t, s'.threads.scState t = .ready → s.threads.scState t = .ready) := by
  obtain ⟨q', h⟩ : ∃ q', BarrierOk N b s arr q' :=
    hreach.invariant (fun p => ∃ q', BarrierOk N b p.1 p.2 q') ⟨q, BarrierOk.init hruns hb hproc⟩
      fun {p p' op} ⟨_, hok⟩ _ hstep => hok.step hN hword hstep
  have hlt : arr.length % N < N := Nat.mod_lt _ hN
  refine ⟨⟨waiting N arr, ?_, h.present, ?_⟩, fun k t hk ht hopen => ?_, fun hcid => ?_⟩
  · have hlist := h.runs.ready.holds.list (.obj b)
    rw [h.list, h.runs.ready.holds.head_eq, h.list, ← h.waitq] at hlist
    exact hlist
  · rw [length_waiting]
    exact hlt
  · have hsleep := h.waits (mem_waiting hN hk ht hopen)
    refine ⟨hsleep, fun he => ?_⟩
    have hrunning : s.threads.scState s.threads.currentThread = .running := h.runs.current_running
    rw [← he, hsleep] at hrunning
    cases hrunning
  · by_cases hfull : arr.length % N + 1 = N
    · have hdvd : N ∣ arr.length + 1 := Nat.dvd_of_mod_eq_zero (by rw [succ_mod hN, if_pos hfull])
      have htake : waiting N arr = arr.take (N - 1) := by
        unfold waiting
        rw [show arr.length % N = N - 1 by omega]
      obtain ⟨s', q'', hwait, hok, hcur, hstate⟩ := h.complete hN hword hfull
      rw [htake] at hstate
      refine ⟨s', hwait, ?_⟩
      rw [if_pos hdvd]
      refine ⟨hcur, ?_, ?_, ?_, hstate, fun i => q'' (.ready i), fun i => ?_, fun t ht => ?_⟩
      · rw [← htake, length_waiting]
        omega
      · rw [← htake, ← h.list]
        exact h.runs.ready.holds.nodup _
      · rw [← htake, ← h.list]
        exact h.runs.current_free _
      · have hlist := hok.runs.ready.holds.list (.ready i)
        exact hlist
      · have hready : s'.threads.scState t = .ready := by rw [hstate, if_pos ht]
        have hmem := (hok.runs.ready.ready_iff t).mp hready
        refine ⟨_, count_eq_one_of_mem (hok.runs.ready.holds.nodup _) hmem, fun j hj htj => hj ?_⟩
        exact hok.runs.ready.indexed htj
    · have hdvd : ¬ N ∣ arr.length + 1 := fun hd => by
        have hmod := Nat.mod_eq_zero_of_dvd hd
        rw [succ_mod hN, if_neg hfull] at hmod
        omega
      obtain ⟨s', q'', hwait, -, hready⟩ := h.join hN hword hcid hfull
      refine ⟨s', hwait, ?_⟩
      rw [if_neg hdvd]
      exact hready

theorem barrier_generations_two : ∃ s, Reaches (barrierStep 0) (fun _ _ => True)
      (barrierInit 2 (readyUsers 5 5), []) (s, [2]) ∧
    s.threads.scState 2 = .sleep ∧ ∃ s', barrierWait s = some s' ∧ s'.threads.scState 2 = .ready := by
  obtain ⟨q, hruns, hobj⟩ := (show ∃ q, Runs (readyUsers 5 5) q ∧ _ from readyUsers_runs (by decide) (by decide))
  obtain ⟨⟨s, _⟩, hs, rfl, hcid⟩ : ∃ p ∈ runOps (barrierStep 0) (fun _ _ => True)
      (barrierInit 2 (readyUsers 5 5), []) [.preempt, .wait], p.2 = [2] ∧
        p.1.threads.scCid p.1.threads.currentThread = .user := by decide +kernel
  have hreach := reaches_of_runOps hs
  obtain ⟨-, hsleep, harrive⟩ := barrier_generations (by decide) (by decide) hruns (hobj 0)
    (fun _ => rfl) hreach
  obtain ⟨s', hwait, hall⟩ := harrive (by rw [show s.threads.scCid _ = _ from hcid]; simp)
  refine ⟨s, hreach, (hsleep 1 2 (by decide) rfl (by decide)).1, s', hwait, ?_⟩
  rw [hall.2.2.2.2.1, if_pos (by decide)]

end AtomOs
