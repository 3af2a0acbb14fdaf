import AtomOs.Sched.Threads

/-!
# What the ready queues hold

`ReadyOk s q`: the queues are the lists `q`; a thread is on a ready queue exactly if its state is
`READY`, and then it is on the one for its priority; and all priorities are from 0 to 159, so that
the index of that queue is from 0 to 31.

There is one lemma for each function, with the lists afterwards and with what became of the states.
A caller that only wants to know which threads are ready reads it off the states.
-/

namespace AtomOs

open Lib Function List

namespace Threads

variable {s t : Threads} {q : Chan → List Addr} {thr : Addr}

/-- The queues are `q`, and the ready queues are as the states and priorities say. -/
structure ReadyOk (s : Threads) (q : Chan → List Addr) : Prop where
  holds : s.queues.Holds q
  ready_iff : ∀ t, s.scState t = .ready ↔ t ∈ q (.ready (s.readyIndex t))
  indexed : ∀ {i t}, t ∈ q (.ready i) → i = s.readyIndex t
  cpupri : ∀ t, 0 ≤ s.scCpupri t ∧ s.scCpupri t ≤ 159
  inhpri : ∀ t, 0 ≤ s.scInhpri t ∧ s.scInhpri t ≤ 159

theorem priority_eq_max (s : Threads) (thr : Addr) :
    s.priority thr = max (s.scCpupri thr) (s.scInhpri thr) := by
  unfold priority
  split <;> omega

theorem ReadyOk.priority_range (h : ReadyOk s q) (thr : Addr) :
    0 ≤ s.priority thr ∧ s.priority thr ≤ 159 := by
  have hcpu := h.cpupri thr
  have hinh := h.inhpri thr
  rw [priority_eq_max]
  omega

theorem readyIndex_range (h0 : 0 ≤ s.priority thr) (h159 : s.priority thr ≤ 159) :
    0 ≤ s.readyIndex thr ∧ s.readyIndex thr < 32 := by
  unfold readyIndex
  rw [Int.tdiv_eq_ediv_of_nonneg (by omega)]
  omega

theorem ReadyOk.index_range (h : ReadyOk s q) (thr : Addr) :
    0 ≤ s.readyIndex thr ∧ s.readyIndex thr < 32 :=
  readyIndex_range (h.priority_range thr).1 (h.priority_range thr).2

variable {i j : Int} {x : Addr}

theorem ReadyOk.state_of_mem (h : ReadyOk s q) (ht : thr ∈ q (.ready i)) :
    s.scState thr = .ready := by
  rw [h.ready_iff, ← h.indexed ht]
  exact ht

theorem ReadyOk.not_mem_of_state (h : ReadyOk s q) (ht : s.scState thr ≠ .ready) (i : Int) :
    thr ∉ q (.ready i) := fun hi => ht (h.state_of_mem hi)

theorem readyIndex_congr (hcpu : t.scCpupri thr = s.scCpupri thr)
    (hinh : t.scInhpri thr = s.scInhpri thr) : t.readyIndex thr = s.readyIndex thr := by
  unfold readyIndex priority
  rw [hcpu, hinh]

theorem readyIndex_le (h : s.priority x ≤ t.priority thr) : t.readyIndex thr ≤ s.readyIndex x :=
  Int.tdiv_le_tdiv (by decide) (by omega)

theorem ReadyOk.otherQueues {q' : Chan → List Addr} (h : ReadyOk s q) (hholds : t.queues.Holds q')
    (hready : ∀ i, q' (.ready i) = q (.ready i))
    (hstate : ∀ x, t.scState x = .ready ↔ s.scState x = .ready)
    (hcpu : t.scCpupri = s.scCpupri) (hinh : t.scInhpri = s.scInhpri) : ReadyOk t q' := by
  have hindex : ∀ x, t.readyIndex x = s.readyIndex x := fun x =>
    readyIndex_congr (congrFun hcpu x) (congrFun hinh x)
  refine ⟨hholds, fun x => ?_, fun {i x} hx => ?_, fun x => ?_, fun x => ?_⟩
  · rw [hstate, hready, hindex]
    exact h.ready_iff x
  · rw [hready] at hx
    rw [hindex]
    exact h.indexed hx
  · rw [hcpu]
    exact h.cpupri x
  · rw [hinh]
    exact h.inhpri x

theorem ReadyOk.congr (h : ReadyOk s q) (hq : t.queues = s.queues) (hs : t.scState = s.scState)
    (hc : t.scCpupri = s.scCpupri) (hi : t.scInhpri = s.scInhpri) : ReadyOk t q :=
  h.otherQueues (hq ▸ h.holds) (fun _ => rfl) (fun x => by rw [hs]) hc hi

/-- Only `thr` changes its state and its priorities, which stay in range. -/
structure Touches (s t : Threads) (thr : Addr) : Prop where
  cpupri : 0 ≤ t.scCpupri thr ∧ t.scCpupri thr ≤ 159
  inhpri : 0 ≤ t.scInhpri thr ∧ t.scInhpri thr ≤ 159
  states : ∀ x, x ≠ thr → t.scState x = s.scState x
  cpupris : ∀ x, x ≠ thr → t.scCpupri x = s.scCpupri x
  inhpris : ∀ x, x ≠ thr → t.scInhpri x = s.scInhpri x

/-- One thread changes its state, its priorities or its queue, and is where they say. -/
theorem ReadyOk.change {q' : Chan → List Addr} (h : ReadyOk s q) (hholds : t.queues.Holds q')
    (hmem : ∀ x j, x ≠ thr → (x ∈ q' (.ready j) ↔ x ∈ q (.ready j)))
    (hthr : ∀ j, thr ∈ q' (.ready j) ↔ t.scState thr = .ready ∧ j = t.readyIndex thr)
    (ht : Touches s t thr) : ReadyOk t q' := by
  obtain ⟨hcpu, hinh, hs, hc, hi⟩ := ht
  refine ⟨hholds, fun x => ?_, fun {j x} hx => ?_, fun x => ?_, fun x => ?_⟩ <;>
    by_cases hne : x = thr
  · subst hne
    simp [hthr]
  · rw [hs x hne, readyIndex_congr (hc x hne) (hi x hne), hmem x _ hne]
    exact h.ready_iff x
  · subst hne
    exact ((hthr j).mp hx).2
  · rw [readyIndex_congr (hc x hne) (hi x hne)]
    exact h.indexed ((hmem x j hne).mp hx)
  · rw [hne]
    exact hcpu
  · rw [hc x hne]
    exact h.cpupri x
  · rw [hne]
    exact hinh
  · rw [hi x hne]
    exact h.inhpri x

/-- A thread that is not ready may change its state, but not to `READY`, and its priorities. -/
theorem ReadyOk.aside (h : ReadyOk s q) (hthr : s.scState thr ≠ .ready) (hq : t.queues = s.queues)
    (hstate : t.scState thr ≠ .ready) (ht : Touches s t thr) : ReadyOk t q :=
  h.change (hq ▸ h.holds) (fun _ _ _ => Iff.rfl)
    (fun j => iff_of_false (h.not_mem_of_state hthr j) fun h' => hstate h'.1) ht

/-! ## To a ready queue -/

/-- The list of one ready queue, with a thread at its end. -/
def pushReady (q : Chan → List Addr) (i : Int) (thr : Addr) : Chan → List Addr :=
  Function.update q (.ready i) (q (.ready i) ++ [thr])

theorem pushReady_obj (q : Chan → List Addr) (i : Int) (thr a : Addr) :
    pushReady q i thr (.obj a) = q (.obj a) := update_of_ne (by simp) _ _

theorem mem_pushReady : x ∈ pushReady q i thr (.ready j) ↔ x ∈ q (.ready j) ∨ x = thr ∧ j = i := by
  unfold pushReady
  by_cases hj : j = i
  · subst hj
    simp
  · simp [hj]

theorem not_mem_pushReady (hx : ∀ c, x ∉ q c) (hne : x ≠ thr) : ∀ c, x ∉ pushReady q i thr c
  | .ready j => fun hc => (mem_pushReady.mp hc).elim (hx _) fun he => hne he.1
  | .obj a => by
    exact hx _

theorem ReadyOk.enqueue (h : ReadyOk s q) (hthr : ∀ c, thr ∉ q c)
    (hq : t.queues = s.queues.append (.ready (t.readyIndex thr)) thr)
    (hstate : t.scState = update s.scState thr .ready)
    (hcpu : 0 ≤ t.scCpupri thr ∧ t.scCpupri thr ≤ 159)
    (hinh : 0 ≤ t.scInhpri thr ∧ t.scInhpri thr ≤ 159)
    (hc : ∀ x, x ≠ thr → t.scCpupri x = s.scCpupri x)
    (hi : ∀ x, x ≠ thr → t.scInhpri x = s.scInhpri x) :
    ReadyOk t (pushReady q (t.readyIndex thr) thr) := by
  refine h.change ?_ (fun x j hx => ?_) (fun j => ?_) ⟨hcpu, hinh, fun x hx => ?_, hc, hi⟩
  · rw [hq]
    exact h.holds.append hthr
  · simp [mem_pushReady, hx]
  · simp [mem_pushReady, hthr, hstate]
  · rw [hstate, update_of_ne hx]

/-- **`add_readyq`** of a thread that is on no queue. -/
theorem ReadyOk.addReadyq (h : ReadyOk s q) (hthr : ∀ c, thr ∉ q c) :
    ReadyOk (addReadyq thr s) (pushReady q (s.readyIndex thr) thr) :=
  h.enqueue hthr rfl rfl (h.cpupri thr) (h.inhpri thr) (fun _ _ => rfl) fun _ _ => rfl

theorem rrClWakeup_range (h : ReadyOk s q) :
    0 ≤ (rrClWakeup thr s).scCpupri thr ∧ (rrClWakeup thr s).scCpupri thr ≤ 159 := by
  have hcpu := h.cpupri thr
  have hval : (rrClWakeup thr s).scCpupri thr = min (s.scCpupri thr + 5) (maxpri (s.scCid thr)) :=
    update_self _ _ _
  rw [hval]
  cases s.scCid thr <;> simp only [maxpri] <;> omega

/-- **`wakeup`** of a sleeping thread that is on no queue, in a process that is ready. -/
theorem ReadyOk.wakeup (h : ReadyOk s q) (hthr : ∀ c, thr ∉ q c) (hproc : s.procReady thr = true) :
    ReadyOk (wakeup thr s) (pushReady q ((rrClWakeup thr s).readyIndex thr) thr) := by
  have hrun : Threads.wakeup thr s =
      Threads.addReadyq thr ((rrClWakeup thr s).setState thr .ready) := if_pos hproc
  rw [hrun]
  refine h.enqueue hthr rfl ?_ (rrClWakeup_range h) (h.inhpri thr)
    (fun x hx => update_of_ne hx _ _) fun _ _ => rfl
  show update (update s.scState thr .ready) thr .ready = _
  exact update_idem _ _ _

/-! ## From a ready queue -/

/-- The list of one ready queue, without a thread. -/
def eraseReady (q : Chan → List Addr) (i : Int) (thr : Addr) : Chan → List Addr :=
  Function.update q (.ready i) ((q (.ready i)).erase thr)

theorem eraseReady_obj (q : Chan → List Addr) (i : Int) (thr a : Addr) :
    eraseReady q i thr (.obj a) = q (.obj a) := update_of_ne (by simp) _ _

theorem ReadyOk.mem_eraseReady (h : ReadyOk s q) :
    x ∈ eraseReady q (s.readyIndex thr) thr (.ready j) ↔ x ∈ q (.ready j) ∧ x ≠ thr := by
  unfold eraseReady
  by_cases hj : j = s.readyIndex thr
  · subst hj
    rw [update_self, (h.holds.nodup _).mem_erase_iff]
    exact and_comm
  · rw [update_of_ne (by simpa using hj)]
    refine ⟨fun hx => ⟨hx, fun he => hj ?_⟩, And.left⟩
    rw [he] at hx
    exact h.indexed hx

theorem ReadyOk.unlinked (h : ReadyOk s q) (hthr : s.scState thr = .ready) :
    ((s.queues.unlink (.ready (s.readyIndex thr)) thr).clear thr).Holds
      (eraseReady q (s.readyIndex thr) thr) := h.holds.unlink_clear ((h.ready_iff thr).mp hthr)

theorem ReadyOk.dequeue (h : ReadyOk s q) (hthr : s.scState thr = .ready)
    (hq : t.queues = (s.queues.unlink (.ready (s.readyIndex thr)) thr).clear thr)
    (hstate : t.scState thr ≠ .ready) (hs : ∀ x, x ≠ thr → t.scState x = s.scState x)
    (hc : t.scCpupri = s.scCpupri) (hi : t.scInhpri = s.scInhpri) :
    ReadyOk t (eraseReady q (s.readyIndex thr) thr) := by
  refine h.change ?_ (fun x j hx => ?_) (fun j => ?_)
    ⟨?_, ?_, hs, fun x _ => congrFun hc x, fun x _ => congrFun hi x⟩
  · rw [hq]
    exact h.unlinked hthr
  · simp [h.mem_eraseReady, hx]
  · simp [h.mem_eraseReady, hstate]
  · rw [hc]
    exact h.cpupri thr
  · rw [hi]
    exact h.inhpri thr

/-- What a thread's priority is changed to, on a ready queue or not. -/
def repriority (thr : Addr) (p : Int) (s : Threads) : Threads :=
  let r := delReadyq thr s
  let s := r.2.setInhpri thr p
  if r.1 then Threads.addReadyq thr s else s

theorem repriority_eq (thr : Addr) (p : Int) (s : Threads) : ∃ F, repriority thr p s = { s with
      queues := F
      scInhpri := update s.scInhpri thr p
      ktSlpchannel := if s.scState thr = .ready then update s.ktSlpchannel thr none
        else s.ktSlpchannel } := by
  unfold repriority delReadyq
  by_cases hthr : s.scState thr = .ready
  · have hstate : update s.scState thr .ready = s.scState := by
      rw [← hthr]
      exact update_eq_self thr s.scState
    simp only [if_pos hthr, if_true, addReadyq, setSlpchannel, setState, setInhpri, hstate]
    exact ⟨_, rfl⟩
  · simp only [if_neg hthr]
    exact ⟨_, rfl⟩

/-- **A new inherited priority** for a thread that is not on a wait queue while it is ready: it
    moves to the queue for it. -/
theorem ReadyOk.repriority (h : ReadyOk s q) {p : Int} (hp : 0 ≤ p ∧ p ≤ 159) :
    ∃ q', ReadyOk (Threads.repriority thr p s) q' ∧ ∀ a, q' (.obj a) = q (.obj a) := by
  have hset : 0 ≤ update s.scInhpri thr p thr ∧ update s.scInhpri thr p thr ≤ 159 := by
    rw [update_self]
    exact hp
  unfold Threads.repriority delReadyq
  by_cases hthr : s.scState thr = .ready
  · simp only [if_pos hthr, if_true]
    refine ⟨pushReady (eraseReady q (s.readyIndex thr) thr) _ thr,
      h.change ((h.unlinked hthr).append (h.holds.not_mem_erase ((h.ready_iff thr).mp hthr)))
      (fun x j hx => ?_) (fun j => ?_) ⟨h.cpupri thr, hset, fun x hx => update_of_ne hx _ _,
        fun _ _ => rfl, fun x hx => update_of_ne hx _ _⟩, fun a => ?_⟩
    · simp [mem_pushReady, h.mem_eraseReady, hx]
    · rw [mem_pushReady, h.mem_eraseReady]
      refine ⟨fun hm => ⟨update_self _ _ _, ?_⟩, fun hm => .inr ⟨rfl, hm.2⟩⟩
      exact hm.elim (fun hm => absurd rfl hm.2) And.right
    · rw [pushReady_obj, eraseReady_obj]
  · simp only [if_neg hthr]
    exact ⟨q, h.aside (t := s.setInhpri thr p) hthr rfl hthr ⟨h.cpupri thr, hset, fun _ _ => rfl,
      fun _ _ => rfl, fun x hx => update_of_ne hx _ _⟩, fun _ => rfl⟩

/-! ## `scheduler` -/

theorem pickFrom_mem (h : s.queues.Holds q) {c : Chan} : ∀ (fuel : Nat) {p : Option Addr} {new : Addr},
    (∀ t, p = some t → t ∈ q c) → new ∈ q c → pickFrom s fuel p new ∈ q c
  | 0, _, _, _, hnew => hnew
  | _ + 1, none, _, _, hnew => hnew
  | fuel + 1, some t, new, hp, hnew => by
    have ht := hp t rfl
    refine pickFrom_mem h fuel (fun y hy => h.next_mem ht hy) ?_
    split
    · exact ht
    · exact hnew

/-- `scheduler` chooses a thread of the first ready queue that is not empty. -/
theorem pick_first (h : s.queues.Holds q) (hpick : s.pick = some thr) :
    ∃ i : Nat, thr ∈ q (.ready i) ∧ ∀ j : Nat, j < i → q (.ready j) = [] := by
  obtain ⟨t, ht, rfl⟩ := Option.map_eq_some_iff.mp hpick
  obtain ⟨before, i, behind, hrange, hi, hnone⟩ := findSome?_eq_some_iff.mp ht
  have hmem : t ∈ q (.ready i) := mem_of_head? ((h.head_eq _).symm.trans hi)
  refine ⟨i, pickFrom_mem h _ (fun y hy => h.next_mem hmem hy) hmem, fun j hj => ?_⟩
  have hsorted := pairwise_lt_range (n := maxReadyq)
  have hj' : j ∈ range maxReadyq := by
    have hi' : i ∈ range maxReadyq := by simp [hrange]
    rw [mem_range] at hi' ⊢
    omega
  rw [hrange, pairwise_append, pairwise_cons] at hsorted
  rw [hrange, mem_append, mem_cons] at hj'
  rcases hj' with hj' | rfl | hj'
  · rw [← head?_eq_none_iff, ← h.head_eq]
    exact hnone j hj'
  · exact absurd hj (Nat.lt_irrefl j)
  · exact absurd (hsorted.2.1.1 j hj') (Nat.lt_asymm hj)

theorem ReadyOk.pick_some (h : ReadyOk s q) (hpick : s.pick = some thr) : s.scState thr = .ready := by
  obtain ⟨i, hi, -⟩ := pick_first h.holds hpick
  exact h.state_of_mem hi

theorem ReadyOk.pick_none (h : ReadyOk s q) (hpick : s.pick = none) : s.scState thr ≠ .ready := by
  intro hthr
  have hmem := (h.ready_iff thr).mp hthr
  obtain ⟨h0, h32⟩ := h.index_range thr
  obtain ⟨i, hi⟩ := Int.eq_ofNat_of_zero_le h0
  have hnone := Option.map_eq_none_iff.mp hpick
  rw [findSome?_eq_none_iff] at hnone
  have hhead := hnone i (by
    rw [mem_range]
    unfold maxReadyq
    omega)
  rw [h.holds.head_eq, head?_eq_none_iff, ← hi] at hhead
  rw [hhead] at hmem
  cases hmem

/-- The state of every thread after a switch to `new`. -/
def switchStates (s : Threads) (new : Addr) : Addr → ThreadState :=
  Function.update (if s.scState s.currentThread = .running then
    Function.update s.scState s.currentThread .ready else s.scState) new .running

theorem ReadyOk.requeueCurrent (h : ReadyOk s q)
    (hfree : s.scState s.currentThread = .running → ∀ c, s.currentThread ∉ q c) :
    ∃ q', ReadyOk (requeueCurrent s) q' ∧ (∀ a, q' (.obj a) = q (.obj a)) ∧
      (requeueCurrent s).scState = if s.scState s.currentThread = .running then
        update s.scState s.currentThread .ready else s.scState := by
  unfold Threads.requeueCurrent
  simp only
  split
  · rename_i hrun
    exact ⟨_, h.enqueue (hfree hrun) rfl rfl (h.cpupri _) (h.inhpri _) (fun _ _ => rfl) fun _ _ => rfl,
      pushReady_obj q _ _, rfl⟩
  · exact ⟨q, h, fun _ => rfl, rfl⟩

theorem ReadyOk.switchTo (h : ReadyOk s q) (hthr : s.scState thr = .ready) :
    ReadyOk (switchTo thr s) (eraseReady q (s.readyIndex thr) thr) := by
  refine h.dequeue hthr rfl ?_ (fun x hx => update_of_ne hx _ _) rfl rfl
  show update s.scState thr .running thr ≠ .ready
  simp

structure SameThreads (s t : Threads) : Prop where
  cpupri : t.scCpupri = s.scCpupri
  inhpri : t.scInhpri = s.scInhpri
  cid : t.scCid = s.scCid
  slpchannel : t.ktSlpchannel = s.ktSlpchannel
  procReady : t.procReady = s.procReady

theorem sameThreads_requeueCurrent (s : Threads) : SameThreads s s.requeueCurrent := by
  unfold Threads.requeueCurrent
  simp only
  split <;> exact ⟨rfl, rfl, rfl, rfl, rfl⟩

theorem sameThreads_scheduler (s : Threads) : SameThreads s s.scheduler := by
  have hre := sameThreads_requeueCurrent s
  unfold scheduler
  split
  · exact ⟨rfl, rfl, rfl, rfl, rfl⟩
  · split
    · exact ⟨rfl, rfl, rfl, rfl, rfl⟩
    · exact ⟨hre.cpupri, hre.inhpri, hre.cid, hre.slpchannel, hre.procReady⟩

/-- **`scheduler`** goes on with the current thread, or switches to one that is ready. It goes on
    with a thread that cannot run only if there is no other. -/
theorem ReadyOk.scheduler (h : ReadyOk s q) (hcur : s.scState s.currentThread ≠ .ready)
    (hfree : s.scState s.currentThread = .running → ∀ c, s.currentThread ∉ q c) :
    ∃ q', ReadyOk s.scheduler q' ∧ (∀ a, q' (.obj a) = q (.obj a)) ∧
      (s.scheduler.currentThread = s.currentThread ∧ s.scheduler.scState = s.scState ∧
          (s.scState s.currentThread = .running ∨ ∀ t, s.scState t ≠ .ready) ∨
        ∃ new, s.scState new = .ready ∧ s.scheduler.currentThread = new ∧
          s.scheduler.scState = switchStates s new) := by
  unfold Threads.scheduler
  cases hpick : s.pick with
  | none =>
    exact ⟨q, h.congr rfl rfl rfl rfl, fun _ => rfl, .inl ⟨rfl, rfl, .inr fun t => h.pick_none hpick⟩⟩
  | some new =>
    have hnew := h.pick_some hpick
    simp only
    split
    · rename_i hidle
      exact ⟨q, h.congr rfl rfl rfl rfl, fun _ => rfl, .inl ⟨rfl, rfl, .inl hidle.2⟩⟩
    obtain ⟨q', hok, hobj, hstate⟩ := h.requeueCurrent hfree
    have hne : new ≠ s.currentThread := fun he => hcur (he ▸ hnew)
    have hnew' : s.requeueCurrent.scState new = .ready := by
      rw [hstate]
      split
      · rw [update_of_ne hne]
        exact hnew
      · exact hnew
    refine ⟨_, hok.switchTo hnew', fun a => ?_, .inr ⟨new, hnew, rfl, ?_⟩⟩
    · exact hobj a
    · show update s.requeueCurrent.scState new .running = _
      rw [hstate]
      rfl

/-! ## Raising priorities -/

/-- A priority may have gone up, to at most the greatest of its class, or down to that. -/
def Raised (s t : Threads) : Prop :=
  ∀ x, min (s.scCpupri x) (maxpri (s.scCid x)) ≤ t.scCpupri x ∧
    t.scCpupri x ≤ max (s.scCpupri x) (maxpri (s.scCid x))

structure RaiseFrame (s t : Threads) : Prop where
  raised : Raised s t
  kept : ∀ x, s.scState x ≠ .ready → t.scCpupri x = s.scCpupri x
  state : t.scState = s.scState
  inhpri : t.scInhpri = s.scInhpri
  cid : t.scCid = s.scCid
  slpchannel : t.ktSlpchannel = s.ktSlpchannel
  procReady : t.procReady = s.procReady
  current : t.currentThread = s.currentThread

/-- What is left when ready queues were taken out and their threads put back: they are the same
    threads, each on the queue for its priority. -/
structure Requeued (s t : Threads) (q q' : Chan → List Addr) : Prop where
  holds : t.queues.Holds q'
  indexed : ∀ {j x}, x ∈ q' (.ready j) → j = t.readyIndex x
  objects : ∀ a, q' (.obj a) = q (.obj a)
  members : ∀ x, (∃ j, x ∈ q' (.ready j)) ↔ ∃ j, x ∈ q (.ready j)
  same : t = { s with queues := t.queues, scCpupri := t.scCpupri }
  bounded : Raised s t
  others : ∀ {x}, (∀ j, x ∉ q (.ready j)) → t.scCpupri x = s.scCpupri x

theorem Requeued.refl (h : s.queues.Holds q)
    (hindexed : ∀ {j x}, x ∈ q (.ready j) → j = s.readyIndex x) : Requeued s s q q :=
  ⟨h, hindexed, fun _ => rfl, fun _ => Iff.rfl, rfl, fun _ => ⟨min_le_left _ _, le_max_left _ _⟩,
    fun _ => rfl⟩

theorem Requeued.trans {u : Threads} {q' q'' : Chan → List Addr} (h : Requeued s t q q')
    (h' : Requeued t u q' q'') : Requeued s u q q'' := by
  refine ⟨h'.holds, h'.indexed, fun a => (h'.objects a).trans (h.objects a),
    fun x => (h'.members x).trans (h.members x), by rw [h'.same, h.same], fun x => ?_, fun {x} hx => ?_⟩
  · have h1 := h.bounded x
    have h2 := h'.bounded x
    rw [show t.scCid = s.scCid by rw [h.same]] at h2
    exact ⟨(le_min h1.1 (min_le_right _ _)).trans h2.1,
      h2.2.trans (max_le h1.2 (le_max_right _ _))⟩
  · refine (h'.others fun j hj => ?_).trans (h.others hx)
    obtain ⟨k, hk⟩ := (h.members x).mp ⟨j, hj⟩
    exact hx k hk

theorem ReadyOk.requeued {q' : Chan → List Addr} (h : ReadyOk s q) (hr : Requeued s t q q') :
    ReadyOk t q' ∧ RaiseFrame s t := by
  have hstate : t.scState = s.scState := by rw [hr.same]
  refine ⟨⟨hr.holds, fun x => ⟨fun hx => ?_, fun hx => ?_⟩, hr.indexed, fun x => ?_, ?_⟩, hr.bounded,
    fun x hx => hr.others (h.not_mem_of_state hx), hstate, ?_, ?_, ?_, ?_, ?_⟩
  · rw [hstate] at hx
    obtain ⟨j, hj⟩ := (hr.members x).mpr ⟨_, (h.ready_iff x).mp hx⟩
    exact hr.indexed hj ▸ hj
  · rw [hstate]
    obtain ⟨j, hj⟩ := (hr.members x).mp ⟨_, hx⟩
    exact h.state_of_mem hj
  · have hrange := h.cpupri x
    have hnew := hr.bounded x
    revert hnew
    cases s.scCid x <;> simp only [maxpri] <;> omega
  · rw [hr.same]
    exact h.inhpri
  all_goals rw [hr.same]

/-- What becomes of the `sc_cpupri` of a thread that is raised. -/
def raisedPri (s : Threads) (thr : Addr) : Int :=
  min (s.scCpupri thr + if u32 ((s.clock : Int) - s.scThrreadystart thr) > 3000 then 4 else 2)
    (maxpri (s.scCid thr))

/-- The priorities when the threads of `l` were raised. -/
def raisedAll (s : Threads) (l : List Addr) (thr : Addr) : Int :=
  if thr ∈ l then s.raisedPri thr else s.scCpupri thr

theorem raisedAll_cons {l : List Addr} (hx : x ∉ l) :
    (raisePriority x s).raisedAll l = s.raisedAll (x :: l) := by
  funext z
  unfold raisedAll raisedPri
  by_cases hz : z = x
  · subst hz
    rw [if_neg hx, if_pos mem_cons_self]
    exact update_self _ _ _
  · have hother : (raisePriority x s).scCpupri z = s.scCpupri z := update_of_ne hz _ _
    simp only [mem_cons, hz, false_or, hother]
    rfl

/-- The loop over a chain of threads that are on no queue. The links of those that are still to come
    are not touched. -/
theorem raiseWalk_spec : ∀ {l : List Addr} {fuel : Nat} {p before : Option Addr} {s : Threads}
    {q : Chan → List Addr}, DList s.queues.next s.queues.prev p before l → l.Nodup →
    s.queues.Holds q → (∀ x ∈ l, ∀ c, x ∉ q c) → l.length ≤ fuel →
    ∃ t, raiseWalk fuel p s = some t ∧ t = { s with queues := t.queues, scCpupri := s.raisedAll l } ∧
      t.queues.Holds fun c => q c ++ l.filter fun x => .ready (t.readyIndex x) = c
  | [], fuel, p, before, s, q, h, _, hq, _, _ => by
    obtain rfl : p = none := h
    refine ⟨s, ?_, ?_, ?_⟩
    · unfold raiseWalk
      rfl
    · rfl
    · simpa using hq
  | x :: l, fuel, p, before, s, q, h, hnd, hq, hfree, hfuel => by
    obtain ⟨rfl, hprev, hrest⟩ := h
    obtain ⟨hx, hnd⟩ := nodup_cons.mp hnd
    cases fuel with
    | zero => exact absurd hfuel (by simp)
    | succ fuel =>
      have hne : ∀ z ∈ l, some z ≠ some x := fun z hz he => hx (Option.some.inj he ▸ hz)
      have htail : ∀ z ∈ l, ∀ c, some z ≠ s.queues.tail c := by
        intro z hz c he
        rw [hq.tail] at he
        exact hfree z (mem_cons_of_mem _ hz) c (mem_of_getLast? he.symm)
      have hrest' : DList (raisePriority x s).queues.next (raisePriority x s).queues.prev
          (s.queues.next x) (some x) l := by
        refine hrest.congr (fun z hz => ?_) fun z hz => store_of_ne (hne z hz)
        exact (store_of_ne (htail z hz _)).trans (store_of_ne (hne z hz))
      obtain ⟨t, hwalk, hsame, hholds⟩ := raiseWalk_spec hrest' hnd
        (hq.append (hfree x mem_cons_self))
        (fun z hz => not_mem_pushReady (hfree z (mem_cons_of_mem _ hz)) fun he => hx (he ▸ hz))
        (Nat.le_of_succ_le_succ hfuel)
      rw [raisedAll_cons hx] at hsame
      have hindex : (raisePriority x s).readyIndex x = t.readyIndex x := by
        refine readyIndex_congr ?_ ?_
        · rw [hsame]
          exact (update_self x _ _).trans (if_pos mem_cons_self).symm
        · rw [hsame]
      refine ⟨t, ?_, hsame, ?_⟩
      · exact hwalk
      · convert hholds using 2 with c
        show _ = pushReady q ((raisePriority x s).readyIndex x) x c ++ _
        rw [hindex, pushReady]
        by_cases hc : .ready (t.readyIndex x) = c
        · subst hc
          rw [update_self, filter_cons_of_pos (by simp), append_assoc]
          rfl
        · rw [update_of_ne (Ne.symm hc), filter_cons_of_neg (by simpa using hc)]

/-- The threads on the ready queues when queue `i` was taken out and put back. -/
theorem mem_raised : x ∈ update q (.ready i) [] (.ready j) ++
        (q (.ready i)).filter (fun x => .ready (t.readyIndex x) = Chan.ready j) ↔
      x ∈ q (.ready j) ∧ j ≠ i ∨ x ∈ q (.ready i) ∧ t.readyIndex x = j := by
  by_cases hj : j = i
  · subst hj
    simp
  · simp [hj]

/-- **One ready queue** is taken out, and its threads go to the ends of the queues for their new
    priorities. -/
theorem raiseQueue_spec (h : s.queues.Holds q)
    (hindexed : ∀ {j x}, x ∈ q (.ready j) → j = s.readyIndex x) (i : Int) :
    ∃ t, raiseQueue i s = some t ∧
      (∀ x, t.scCpupri x = if x ∈ q (.ready i) then s.raisedPri x else s.scCpupri x) ∧
      (∀ {x}, x ∉ q (.ready i) → t.readyIndex x = s.readyIndex x) ∧
      Requeued s t q fun c => update q (.ready i) [] c ++
        (q (.ready i)).filter fun x => .ready (t.readyIndex x) = c := by
  obtain ⟨t, hrun, hsame, hholds⟩ :=
    raiseWalk_spec (s := { s with queues := s.queues.setQueue (.ready i) none none })
      (h.list (.ready i)) (h.nodup _) h.setQueue_nil (fun x hx c hc => by
        by_cases hi : c = .ready i
        · rw [hi, update_self] at hc
          cases hc
        · rw [update_of_ne hi] at hc
          exact hi (h.apart hc hx))
      (length_le_walkFuel (h.nodup _))
  have hcpu : ∀ x, t.scCpupri x = if x ∈ q (.ready i) then s.raisedPri x else s.scCpupri x :=
    fun x => by rw [hsame]; rfl
  have hindex : ∀ {x}, x ∉ q (.ready i) → t.readyIndex x = s.readyIndex x := fun hx =>
    readyIndex_congr ((hcpu _).trans (if_neg hx)) (by rw [hsame])
  refine ⟨t, hrun, hcpu, hindex, hholds, fun {j x} hx => ?_, fun a => ?_, fun x => ⟨?_, ?_⟩, ?_,
    fun x => ?_, fun {x} hx => ?_⟩
  · rcases mem_raised.mp hx with ⟨hj, hne⟩ | ⟨-, hj⟩
    · rw [hindex fun hi => hne ((hindexed hj).trans (hindexed hi).symm)]
      exact hindexed hj
    · exact hj.symm
  · simp
  · rintro ⟨j, hj⟩
    exact (mem_raised.mp hj).elim (fun hj => ⟨_, hj.1⟩) fun hj => ⟨_, hj.1⟩
  · rintro ⟨j, hj⟩
    by_cases hne : j = i
    · exact ⟨_, mem_raised.mpr (.inr ⟨hne ▸ hj, rfl⟩)⟩
    · exact ⟨j, mem_raised.mpr (.inl ⟨hj, hne⟩)⟩
  · rw [hsame]
  · rw [hcpu]
    split
    · unfold raisedPri
      split <;> omega
    · exact ⟨min_le_left _ _, le_max_left _ _⟩
  · exact (hcpu x).trans (if_neg (hx i))

theorem raiseQueues_requeued : ∀ (n : Nat) (i : Int) {s : Threads} {q : Chan → List Addr},
    s.queues.Holds q → (∀ {j x}, x ∈ q (.ready j) → j = s.readyIndex x) →
    ∃ t q', raiseQueues n i s = some t ∧ Requeued s t q q'
  | 0, _, s, q, h, hindexed => ⟨s, q, rfl, .refl h hindexed⟩
  | n + 1, i, s, q, h, hindexed => by
    obtain ⟨t, ht, -, -, hone⟩ := raiseQueue_spec h hindexed i
    obtain ⟨u, q', hu, hrest⟩ := raiseQueues_requeued n (i + 1) hone.holds hone.indexed
    refine ⟨u, q', ?_, hone.trans hrest⟩
    unfold raiseQueues
    rw [ht]
    exact hu

/-- **`timerthread` raises priorities**: it comes to an end, and every ready thread is on the queue
    for its new priority. -/
theorem ReadyOk.recompute (h : ReadyOk s q) :
    ∃ t q', recompute s = some t ∧ ReadyOk t q' ∧ (∀ a, q' (.obj a) = q (.obj a)) ∧
      RaiseFrame s t := by
  obtain ⟨t, q', hrun, hr⟩ := raiseQueues_requeued 31 0 h.holds h.indexed
  obtain ⟨hok, hframe⟩ := h.requeued hr
  exact ⟨t, q', hrun, hok, hr.objects, hframe⟩

/-! ### One pass -/

/-- What a pass over the `n` ready queues from `i` on does: no thread is lost, each of these queues'
    threads is raised once, and those of one queue that stay together keep their order. -/
structure Pass (i : Int) (n : Nat) (s t : Threads) (q q' : Chan → List Addr) : Prop
    extends Requeued s t q q' where
  capped : ∀ {j x}, x ∈ q' (.ready j) → t.scCpupri x ≤ maxpri (t.scCid x)
  raised : ∀ {j x}, i ≤ j → j < i + n → x ∈ q (.ready j) → t.scCpupri x = s.raisedPri x
  kept : ∀ {x}, (∀ j, i ≤ j → j < i + n → x ∉ q (.ready j)) → t.scCpupri x = s.scCpupri x
  -- No thread gets to a queue that is still to come.
  later : ∀ {j}, i + n ≤ j → q' (.ready j) = q (.ready j)
  up : ∀ {j x}, x ∈ q (.ready j) → t.readyIndex x ≤ j
  order : ∀ j k, ((q (.ready j)).filter fun x => t.readyIndex x = k).Sublist (q' (.ready k))

theorem filter_index_sublist (h : ∀ x ∈ q (.ready j), t.readyIndex x = j) (k : Int) :
    ((q (.ready j)).filter fun x => t.readyIndex x = k).Sublist (q (.ready k)) := by
  by_cases hk : j = k
  · subst hk
    exact filter_sublist
  · rw [filter_eq_nil_iff.mpr]
    · exact nil_sublist _
    · intro x hx
      simpa [h x hx] using hk

section

variable (hindexed : ∀ {j x}, x ∈ q (.ready j) → j = s.readyIndex x)
  (hcap : ∀ {j x}, x ∈ q (.ready j) → s.scCpupri x ≤ maxpri (s.scCid x))
include hindexed hcap

theorem pass_one (h : s.queues.Holds q) (i : Int) :
    ∃ t q', raiseQueue i s = some t ∧ Pass i 1 s t q q' := by
  obtain ⟨t, hrun, hcpu, hindex, hr⟩ := raiseQueue_spec h hindexed i
  have hone : ∀ {j x}, x ∈ q (.ready j) → j ≠ i → x ∉ q (.ready i) := fun hj hne hi =>
    hne ((hindexed hj).trans (hindexed hi).symm)
  have hup : ∀ {x}, x ∈ q (.ready i) → t.readyIndex x ≤ i := by
    intro x hx
    have hle := hcap hx
    have hinh : t.scInhpri x = s.scInhpri x := by rw [hr.same]
    rw [hindexed hx]
    refine readyIndex_le ?_
    rw [priority_eq_max, priority_eq_max, hinh, hcpu, if_pos hx]
    unfold raisedPri
    split <;> omega
  refine ⟨t, _, hrun, hr, fun {j x} hx => ?_, fun {j x} h0 h1 hx => ?_, fun {x} hx => ?_, fun {j} hj => ?_,
    fun {j x} hx => ?_, fun j k => ?_⟩
  · have hcid : t.scCid = s.scCid := by rw [hr.same]
    rw [hcpu, hcid]
    rcases mem_raised.mp hx with ⟨hj, hne⟩ | ⟨hi, -⟩
    · rw [if_neg (hone hj hne)]
      exact hcap hj
    · rw [if_pos hi]
      exact min_le_right _ _
  · obtain rfl : j = i := by omega
    exact (hcpu x).trans (if_pos hx)
  · exact (hcpu x).trans (if_neg (hx i (le_refl i) (by simp)))
  · rw [update_of_ne (by simp; omega), filter_eq_nil_iff.mpr, append_nil]
    intro x hx
    have := hup hx
    simp
    omega
  · by_cases hne : j = i
    · subst hne
      exact hup hx
    · exact ((hindex (hone hx hne)).trans (hindexed hx).symm).le
  · by_cases hne : j = i
    · subst hne
      simp
    have hkeep : update q (.ready i) [] (.ready j) = q (.ready j) :=
      update_of_ne (by simpa using hne) _ _
    have hsub := filter_index_sublist (q := update q (.ready i) []) (t := t)
      (fun x hx => (hindex (hone (hkeep ▸ hx) hne)).trans (hindexed (hkeep ▸ hx)).symm) k
    rw [hkeep] at hsub
    exact hsub.trans (sublist_append_left _ _)

end

theorem Pass.cons {n : Nat} {u : Threads} {q' q'' : Chan → List Addr} (h : Pass i 1 s t q q')
    (h' : Pass (i + 1) n t u q' q'') : Pass i (n + 1) s u q q'' := by
  have hbehind : ∀ {j x}, x ∈ q (.ready j) → j ≤ i → ∀ k, i + 1 ≤ k → x ∉ q' (.ready k) := by
    intro j x hx hj k hk hxk
    have hup := h.up hx
    rw [← h.indexed hxk] at hup
    omega
  have hstay : ∀ {j x}, x ∈ q (.ready j) → j ≤ i → u.scCpupri x = t.scCpupri x := fun hx hj =>
    h'.kept fun k hk _ => hbehind hx hj k hk
  refine ⟨h.toRequeued.trans h'.toRequeued, h'.capped, fun {j x} h0 h1 hx => ?_, fun {x} hx => ?_,
    fun {j} hj => ?_, fun {j x} hx => ?_, fun j k => ?_⟩
  · by_cases hj : j = i
    · exact (hstay hx hj.le).trans (h.raised h0 (by omega) hx)
    have hlater := h.later (show i + (1 : Nat) ≤ j by omega)
    rw [h'.raised (by omega) (by omega) (hlater ▸ hx)]
    have hcpu : t.scCpupri x = s.scCpupri x := h.kept fun k h2 h3 hk =>
      hbehind hk (by omega) j (by omega) (hlater ▸ hx)
    unfold raisedPri
    rw [hcpu, h.same]
  · have hcpu := h.kept fun j h0 h1 => hx j h0 (by omega)
    refine (h'.kept fun j h0 h1 => ?_).trans hcpu
    rw [h.later (by omega)]
    exact hx j (by omega) (by omega)
  · rw [h'.later (by omega), h.later (by omega)]
  · obtain ⟨k, hk⟩ := (h.members x).mpr ⟨j, hx⟩
    have hle := h.up hx
    rw [← h.indexed hk] at hle
    exact (h'.up hk).trans hle
  · by_cases hj : j ≤ i
    · -- What has been passed is not raised again.
      have hsub := ((h.order j k).filter fun x => decide (readyIndex _ x = k)).trans (h'.order k k)
      rw [filter_filter] at hsub
      convert hsub using 1
      refine filter_congr fun x hx => ?_
      rw [readyIndex_congr (hstay hx hj) (by rw [h'.same]), Bool.and_self]
    · have hord := h'.order j k
      rwa [h.later (by omega)] at hord

theorem raiseQueues_pass : ∀ (n : Nat) (i : Int) {s : Threads} {q : Chan → List Addr},
    s.queues.Holds q → (∀ {j x}, x ∈ q (.ready j) → j = s.readyIndex x) →
    (∀ {j x}, x ∈ q (.ready j) → s.scCpupri x ≤ maxpri (s.scCid x)) →
    ∃ t q', raiseQueues n i s = some t ∧ Pass i n s t q q'
  | 0, i, s, q, h, hindexed, hcap => by
    refine ⟨s, q, rfl, .refl h hindexed, hcap, fun _ _ _ => ?_, fun _ => rfl, fun _ => rfl,
      fun hx => (hindexed hx).ge, fun j k => filter_index_sublist (fun x hx => (hindexed hx).symm) k⟩
    omega
  | n + 1, i, s, q, h, hindexed, hcap => by
    obtain ⟨t, q', ht, hone⟩ := pass_one hindexed hcap h i
    obtain ⟨u, q'', hu, hrest⟩ := raiseQueues_pass n (i + 1) hone.holds hone.indexed hone.capped
    refine ⟨u, q'', ?_, hone.cons hrest⟩
    unfold raiseQueues
    rw [ht]
    exact hu

end Threads

end AtomOs
