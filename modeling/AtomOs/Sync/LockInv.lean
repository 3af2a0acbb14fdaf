import AtomOs.Sync.Locks

/-!
# What holds of locks between two segments

`LockOk k q o`: the threads are in order with the queues `q`; the list of objects of a thread `t` is
`o t`, and it is the list of the locks that it owns; a lock's value says whether it has an owner;
and a thread that sleeps on an object is in its queue, which for a lock means that the lock is held.

There is one lemma for each of the segments of `_lock`, `unlock`, `rlock`, `runlock`, `event_sleep`
and `event_wakeup`.
-/

namespace AtomOs

open Lib Threads Function

variable {p : Int} {q' : Chan → List Addr} {s : Threads} {thr : Addr}

namespace Kernel

variable {k : Kernel} {q : Chan → List Addr} {o : Addr → List Addr} {l t : Addr}

/-! ## The lists of owned objects -/

/-- The lists of owned objects are `o`. -/
def Owned (k : Kernel) (o : Addr → List Addr) : Prop :=
  ∃ tail, Queues.Holds { next := k.slNext, prev := k.slPrev, head := k.ktSynchobjlist, tail } o

section

variable (h : Owned k o)
include h

theorem Owned.head (t : Addr) : k.ktSynchobjlist t = (o t).head? := by
  obtain ⟨tail, h⟩ := h
  exact h.head_eq t

theorem Owned.list_nil (t : Addr) : k.ktSynchobjlist t = none ↔ o t = [] := by
  rw [h.head, List.head?_eq_none_iff]

theorem Owned.not_mem_erase (hl : l ∈ o t) (t' : Addr) : l ∉ update o t ((o t).erase l) t' := by
  obtain ⟨tail, h⟩ := h
  exact h.not_mem_erase hl t'

theorem Owned.addSynchobj (hl : ∀ t', l ∉ o t') :
    Owned (k.addSynchobj l t) (update o t (l :: o t)) := by
  have hhead := h.head t
  have hne : some l ≠ k.ktSynchobjlist t := fun he => by
    rw [hhead] at he
    exact hl t (List.mem_of_head? he.symm)
  obtain ⟨tail, h⟩ := h
  exact ⟨_, h.push hl rfl (store_comm hne) rfl rfl⟩

theorem Owned.delSynchobj (hl : l ∈ o t) :
    Owned (k.delSynchobj l t) (update o t ((o t).erase l)) := by
  obtain ⟨tail, h⟩ := h
  have hself : some l ≠ k.slNext l := by
    intro he
    obtain ⟨l1, l2, hsplit⟩ := List.append_of_mem hl
    have hlist := h.list t
    have hnd := h.nodup t
    rw [hsplit] at hlist hnd
    have hnext : k.slNext l = l2.head? := hlist.next_eq
    rw [hnext] at he
    exact (List.nodup_cons.mp (List.nodup_append.mp hnd).2.1).1 (List.mem_of_head? he.symm)
  have hprev : store k.slPrev (k.slNext l) (k.slPrev l) l = k.slPrev l := store_of_ne hself
  have hun := h.unlink_clear hl
  unfold Owned Kernel.delSynchobj
  simp only [hprev]
  refine ⟨_, hun.outside ?_ rfl (fun _ _ _ => rfl) fun _ _ _ => rfl⟩
  show _ = if k.slPrev l = none then _ else _
  split
  · rename_i hnone
    rw [hnone, store_null]
  · rfl

end

/-! ## Waking all that sleep on an object -/

/-- What waking threads leaves alone. -/
structure WakeFrame (s t : Threads) : Prop where
  cpupri : t.scCpupri = s.scCpupri
  inhpri : t.scInhpri = s.scInhpri
  cid : t.scCid = s.scCid
  procReady : t.procReady = s.procReady
  current : t.currentThread = s.currentThread

/-- All threads that sleep on `a` have been woken. -/
structure AllWoken (a : Addr) (s t : Threads) (q q' : Chan → List Addr) : Prop extends WakeFrame s t where
  queues : ∀ c, q' (.obj c) = update q (.obj a) [] (.obj c)
  state : ∀ x, t.scState x = if x ∈ q (.obj a) then .ready else s.scState x
  channel : ∀ x, t.ktSlpchannel x = if x ∈ q (.obj a) then none else s.ktSlpchannel x

theorem wakeFrame_wakeFirst (a : Addr) (s : Threads) : WakeFrame s (wakeFirst a s) := by
  unfold wakeFirst
  cases s.queues.take (.obj a) with
  | mk first F => cases first <;> exact ⟨rfl, rfl, rfl, rfl, rfl⟩

theorem slpchannel_wakeFirst (h : Parked s q) (a x : Addr) : (wakeFirst a s).ktSlpchannel x =
      if x ∈ (q (.obj a)).head? then none else s.ktSlpchannel x := by
  unfold wakeFirst
  cases hq : q (.obj a) with
  | nil =>
    rw [h.ready.holds.take_nil hq]
    simp
  | cons y l =>
    have hfirst := (h.ready.holds.take hq).1
    cases htake : s.queues.take (.obj a) with
    | mk first F =>
      rw [htake] at hfirst
      obtain rfl : first = some y := hfirst
      show update s.ktSlpchannel y none x = _
      rw [update_apply]
      simp [eq_comm]

variable {x a gl : Addr}

theorem ite_mem_cons {β : Type*} {w : Addr} {ws : List Addr} {b c : β} :
    (if x ∈ ws then b else if x ∈ (w :: ws).head? then b else c) =
      if x ∈ w :: ws then b else c := by
  by_cases hx : w = x
  · simp [hx]
  · have hx' : x ≠ w := fun he => hx he.symm
    simp [hx, hx']

/-- **All threads that sleep on an object become ready.** -/
theorem wakeAll_spec : ∀ {ws : List Addr} {fuel : Nat} {a : Addr} {s : Threads} {q : Chan → List Addr},
    Parked s q → q (.obj a) = ws → ws.length ≤ fuel →
    ∃ t q', wakeAll fuel a s = some t ∧ Parked t q' ∧ AllWoken a s t q q'
  | [], fuel, a, s, q, h, hq, _ => by
    have hhead : s.queues.head (.obj a) = none := by
      rw [h.ready.holds.head_eq, hq]
      rfl
    refine ⟨s, q, ?_, h, ⟨rfl, rfl, rfl, rfl, rfl⟩, fun c => ?_, fun x => by simp [hq], fun x => by simp [hq]⟩
    · unfold wakeAll
      rw [hhead]
    · rw [← hq, update_eq_self]
  | w :: ws, fuel, a, s, q, h, hq, hfuel => by
    have hhead : s.queues.head (.obj a) = some w := by
      rw [h.ready.holds.head_eq, hq]
      rfl
    obtain ⟨q1, h1, hobj1, hstate1⟩ := h.wakeFirst a
    have hslp1 := slpchannel_wakeFirst h a
    have hf := wakeFrame_wakeFirst a s
    cases fuel with
    | zero => exact absurd hfuel (by simp)
    | succ fuel =>
      have hq1 : q1 (.obj a) = ws := by
        rw [hobj1, update_self, hq]
        rfl
      obtain ⟨t, q', hrun, ht, hw⟩ := wakeAll_spec h1 hq1 (Nat.le_of_succ_le_succ hfuel)
      refine ⟨t, q', ?_, ht, ⟨hw.cpupri.trans hf.cpupri, hw.inhpri.trans hf.inhpri, hw.cid.trans hf.cid,
        hw.procReady.trans hf.procReady, hw.current.trans hf.current⟩, fun c => ?_, fun x => ?_, fun x => ?_⟩
      · unfold wakeAll
        rw [hhead]
        exact hrun
      · rw [hw.queues]
        by_cases hc : c = a
        · subst hc
          rw [update_self, update_self]
        · rw [update_of_ne (by simpa using hc), update_of_ne (by simpa using hc),
            hobj1, update_of_ne (by simpa using hc)]
      · rw [hw.state, hstate1, hq, hq1]
        exact ite_mem_cons
      · rw [hw.channel, hslp1, hq, hq1]
        exact ite_mem_cons

theorem AllWoken.runs {t : Threads} (hw : AllWoken a s t q q') (h : Runs s q) (hpark : Parked t q') :
    Runs t q' := by
  refine hpark.runs ?_
  rw [hw.current, hw.state, if_neg (h.current_free (.obj a))]
  exact h.current_running

/-! ## Lending a priority -/

/-- An object of this type has an owner. -/
def IsLock (k : Kernel) (l : Addr) : Prop := k.slType l = .lock ∨ k.slType l = .rlock

structure LendFrame (s t : Threads) : Prop where
  state : t.scState = s.scState
  cpupri : t.scCpupri = s.scCpupri
  cid : t.scCid = s.scCid
  procReady : t.procReady = s.procReady
  current : t.currentThread = s.currentThread
  channel : ∀ x, s.scState x ≠ .ready → t.ktSlpchannel x = s.ktSlpchannel x
  cleared : ∀ x, t.ktSlpchannel x = s.ktSlpchannel x ∨ t.ktSlpchannel x = none
  inhpri : ∀ x, s.scInhpri x ≤ t.scInhpri x

theorem LendFrame.refl (s : Threads) : LendFrame s s :=
  ⟨rfl, rfl, rfl, rfl, rfl, fun _ _ => rfl, fun _ => .inl rfl, fun _ => le_refl _⟩

theorem LendFrame.trans {t u : Threads} (h : LendFrame s t) (h' : LendFrame t u) :
    LendFrame s u := by
  refine ⟨h'.state.trans h.state, h'.cpupri.trans h.cpupri, h'.cid.trans h.cid,
    h'.procReady.trans h.procReady, h'.current.trans h.current, fun x hx => ?_, fun x => ?_,
    fun x => (h.inhpri x).trans (h'.inhpri x)⟩
  · rw [h'.channel x (by rw [h.state]; exact hx), h.channel x hx]
  · rcases h'.cleared x with hx | hx
    · rw [hx]
      exact h.cleared x
    · exact .inr hx

theorem lendFrame_repriority (hlt : s.scInhpri thr < p) : LendFrame s (repriority thr p s) := by
  obtain ⟨F, heq⟩ := repriority_eq thr p s
  rw [heq]
  refine ⟨rfl, rfl, rfl, rfl, rfl, fun x hx => ?_, fun x => ?_, fun x => ?_⟩
  · split
    · rename_i hthr
      exact update_of_ne (fun he => hx (by rw [he]; exact hthr)) _ _
    · rfl
  · dsimp only
    split
    · rw [update_apply]
      split
      · exact .inr rfl
      · exact .inl rfl
    · exact .inl rfl
  · dsimp only
    rw [update_apply]
    split
    · rename_i hx
      rw [hx]
      exact hlt.le
    · exact le_refl _

/-- The owner of a lock has at least the priority of every thread that waits for it. -/
def Lent (k : Kernel) (q : Chan → List Addr) : Prop :=
  ∀ l t w, k.IsLock l → k.ownerThread l = some t → w ∈ q (.obj l) →
    k.threads.priority w ≤ k.threads.priority t

/-- The same, except that for one object the owner may have less, if those that wait have at most
    `p`. -/
def LentBut (gl : Addr) (p : Int) (k : Kernel) (q : Chan → List Addr) : Prop :=
  ∀ l t w, k.IsLock l → k.ownerThread l = some t → w ∈ q (.obj l) →
    k.threads.priority w ≤ k.threads.priority t ∨ l = gl ∧ k.threads.priority w ≤ p

def below (s : Threads) (p : Int) : Finset Addr := Finset.univ.filter fun x => s.priority x < p

/-- What does not change while a priority is lent: who sleeps where, and that a lock with a queue is
    held. -/
structure Waiting (k : Kernel) (q : Chan → List Addr) : Prop where
  channel : ∀ {l t}, t ∈ q (.obj l) → k.threads.ktSlpchannel t = some l
  asleep : ∀ {l t}, t ∈ q (.obj l) → k.threads.scState t = .sleep
  queued : ∀ {l t}, k.threads.scState t = .sleep → k.threads.ktSlpchannel t = some l → t ∈ q (.obj l)
  held : ∀ {l t}, t ∈ q (.obj l) → k.IsLock l → k.ownerThread l ≠ none

/-- The part of this that lending needs. A thread that sleeps on something else than a lock need not
    be in its queue. -/
structure Lined (k : Kernel) (q : Chan → List Addr) : Prop where
  channel : ∀ {l t}, t ∈ q (.obj l) → k.threads.ktSlpchannel t = some l
  asleep : ∀ {l t}, t ∈ q (.obj l) → k.threads.scState t = .sleep
  queued : ∀ {l t}, k.IsLock l → k.threads.scState t = .sleep → k.threads.ktSlpchannel t = some l →
    t ∈ q (.obj l)
  held : ∀ {l t}, t ∈ q (.obj l) → k.IsLock l → k.ownerThread l ≠ none

theorem Waiting.lined (h : Waiting k q) : Lined k q := ⟨h.channel, h.asleep, fun _ => h.queued, h.held⟩

section others

variable (hobj : ∀ a, q' (.obj a) = q (.obj a))
  (hsleep : ∀ x, s.scState x = .sleep ↔ k.threads.scState x = .sleep)
  (hchan : ∀ x, k.threads.scState x = .sleep → s.ktSlpchannel x = k.threads.ktSlpchannel x)
include hobj hsleep hchan

theorem Lined.others (h : Lined k q) : Lined { k with threads := s } q' := by
  refine ⟨fun {l t} ht => ?_, fun {l t} ht => ?_, fun {l t} hl hs hc => ?_, fun {l t} ht => ?_⟩
  · rw [hobj] at ht
    exact (hchan t (h.asleep ht)).trans (h.channel ht)
  · rw [hobj] at ht
    exact (hsleep t).mpr (h.asleep ht)
  · have hs' := (hsleep t).mp hs
    rw [hobj]
    exact h.queued hl hs' ((hchan t hs').symm.trans hc)
  · rw [hobj] at ht
    exact h.held ht

theorem Waiting.others (h : Waiting k q) : Waiting { k with threads := s } q' := by
  have hlined := h.lined.others hobj hsleep hchan
  refine ⟨hlined.channel, hlined.asleep, fun {l t} hs hc => ?_, hlined.held⟩
  have hs' := (hsleep t).mp hs
  rw [hobj]
  exact h.queued hs' ((hchan t hs').symm.trans hc)

end others

theorem LendFrame.asleep (hf : LendFrame k.threads s) (x : Addr) (hx : k.threads.scState x = .sleep) :
    s.ktSlpchannel x = k.threads.ktSlpchannel x := hf.channel x (by rw [hx]; simp)

/-- A thread that the lock leads to: its owner, or one that the lock its owner sleeps on leads to. -/
inductive OnChain (k : Kernel) (x : Addr) : Addr → Prop
  | owner {gl : Addr} (h : k.ownerThread gl = some x) : OnChain k x gl
  | next {gl thr gl' : Addr} (h : k.ownerThread gl = some thr)
      (hsleep : k.threads.scState thr = .sleep) (hchan : k.threads.ktSlpchannel thr = some gl')
      (hrest : OnChain k x gl') : OnChain k x gl

theorem OnChain.owns (h : OnChain k x gl) : ∃ l, k.ownerThread l = some x := by
  induction h with
  | owner h => exact ⟨_, h⟩
  | next _ _ _ _ ih => exact ih

theorem OnChain.lend (hf : LendFrame k.threads s) (h : OnChain { k with threads := s } x gl) :
    OnChain k x gl := by
  induction h with
  | owner h => exact .owner h
  | next h hsleep hchan _ ih =>
    have hsleep' := (congrFun hf.state _).symm.trans hsleep
    exact .next h hsleep' ((hf.asleep _ hsleep').symm.trans hchan) ih

theorem raise_owner (hok : ReadyOk s q) (hp : 0 ≤ p ∧ p ≤ 159)
    (hlt : s.scCpupri thr < p ∧ s.scInhpri thr < p) :
    ∃ q', ReadyOk (repriority thr p s) q' ∧ (∀ a, q' (.obj a) = q (.obj a)) ∧
      LendFrame s (repriority thr p s) ∧
      (∀ x, (repriority thr p s).priority x = if x = thr then p else s.priority x) ∧
      (∀ x, (repriority thr p s).scInhpri x = if x = thr then p else s.scInhpri x) ∧
      ∃ F c h, repriority thr p s = { s with queues := F, ktSlpchannel := c, scInhpri := h } := by
  obtain ⟨q', hok', hobj⟩ :=
    show ∃ q', ReadyOk (repriority thr p s) q' ∧ _ from hok.repriority hp
  obtain ⟨F, heq⟩ := repriority_eq thr p s
  refine ⟨q', hok', hobj, lendFrame_repriority hlt.2, fun x => ?_, fun x => ?_, F, _, _, heq⟩
  · rw [heq, priority_eq_max, priority_eq_max]
    dsimp only
    by_cases hx : x = thr
    · rw [if_pos hx, hx, update_self]
      exact max_eq_right hlt.1.le
    · rw [if_neg hx, update_of_ne hx]
  · rw [heq]
    exact update_apply _ _ _ _

/-- After that, the only thread that may have more than the owner of the lock it waits for is the one
    whose priority went up. -/
theorem LentBut.raise (hlent : LentBut gl p k q) (hgl : k.ownerThread gl = some thr)
    (hlt : k.threads.priority thr < p) (hobj : ∀ a, q' (.obj a) = q (.obj a))
    (hprio : ∀ x, s.priority x = if x = thr then p else k.threads.priority x) :
    ∀ l t w, k.IsLock l → k.ownerThread l = some t → w ∈ q' (.obj l) →
      s.priority w ≤ s.priority t ∨ w = thr ∧ s.priority w ≤ p := by
  intro l t w hl ht hw
  rw [hobj] at hw
  have hgrow : k.threads.priority t ≤ s.priority t := by
    rw [hprio t]
    split
    · rename_i he
      rw [he]
      exact hlt.le
    · exact le_refl _
  by_cases hwt : w = thr
  · exact .inr ⟨hwt, by rw [hprio, if_pos hwt]⟩
  rw [hprio w, if_neg hwt]
  rcases hlent l t w hl ht hw with hle | ⟨rfl, hle⟩
  · exact .inl (hle.trans hgrow)
  · cases hgl.symm.trans ht
    rw [hprio, if_pos rfl]
    exact .inl hle

theorem mem_below : x ∈ below s p ↔ s.priority x < p := by
  unfold below
  rw [Finset.mem_filter]
  exact and_iff_right (Finset.mem_univ x)

theorem card_below_lt {t : Threads} (hlt : s.priority thr < p)
    (hprio : ∀ x, t.priority x = if x = thr then p else s.priority x) :
    (below t p).card < (below s p).card := by
  refine Finset.card_lt_card ((Finset.ssubset_iff_of_subset fun x hx => ?_).mpr ⟨thr, ?_, ?_⟩)
  · rw [mem_below, hprio] at hx
    rw [mem_below]
    split at hx
    · exact absurd hx (lt_irrefl _)
    · exact hx
  · exact mem_below.mpr hlt
  · rw [mem_below, hprio, if_pos rfl]
    exact lt_irrefl _

/-- **`lend_priority`** ends. It changes the inherited priorities of owners only; and if every owner
    had at least the priority of those that wait for its locks, but for the lock of the current
    thread, then this holds for all locks, also where owners wait themselves. -/
theorem lendPriority_spec {fuel : Nat} (hok : ReadyOk k.threads q)
    (hw : Lined k q) (hgl : k.IsLock gl → k.ownerThread gl ≠ none)
    (hfuel : (below k.threads (k.threads.priority k.current)).card < fuel) :
    ∃ s q', lendPriority fuel gl k = some { k with threads := s } ∧ ReadyOk s q' ∧
      (∀ a, q' (.obj a) = q (.obj a)) ∧ LendFrame k.threads s ∧
      (LentBut gl (k.threads.priority k.current) k q →
        Lent { k with threads := s } q') ∧
      (∀ x, s.scInhpri x ≠ k.threads.scInhpri x →
        s.scInhpri x = k.threads.priority k.current ∧ OnChain k x gl) ∧
      ∃ F c h, s = { k.threads with queues := F, ktSlpchannel := c, scInhpri := h } := by
  induction fuel generalizing gl k q with
  | zero => exact absurd hfuel (Nat.not_lt_zero _)
  | succ fuel ih =>
    have hstop : (∀ t w, k.IsLock gl → k.ownerThread gl = some t →
        k.threads.priority w ≤ k.threads.priority k.current →
          k.threads.priority w ≤ k.threads.priority t) →
        LentBut gl (k.threads.priority k.current) k q → Lent k q := by
      intro hmore hlent l t w hl ht hwq
      rcases hlent l t w hl ht hwq with hle | ⟨rfl, hle⟩
      · exact hle
      · exact hmore t w hl ht hle
    unfold lendPriority
    split
    · rename_i htype
      refine ⟨k.threads, q, rfl, hok, fun _ => rfl, LendFrame.refl _, hstop fun t w hl => ?_,
        fun x hx => absurd rfl hx, _, _, _, rfl⟩
      exact absurd hl (by unfold IsLock; simpa [not_or] using htype)
    rename_i htype
    have hl : k.IsLock gl := by
      by_contra hno
      exact htype (not_or.mp hno)
    cases howner : k.ownerThread gl with
    | none => exact absurd howner (hgl hl)
    | some thr =>
      simp only
      split
      · rename_i hlt
        have hpri := hok.priority_range k.current
        generalize hp : k.threads.priority k.current = p at *
        have hthr : k.threads.priority thr < p := by
          rw [priority_eq_max]
          exact max_lt hlt.1 hlt.2
        obtain ⟨q1, hok1, hobj1, hf, hprio, hinh, hsame⟩ := raise_owner hok hpri hlt
        generalize repriority thr p k.threads = s1 at *
        have hw1 : Lined { k with threads := s1 } q1 :=
          hw.others hobj1 (fun x => by rw [hf.state]) hf.asleep
        have howned : ∀ x, s1.scInhpri x ≠ k.threads.scInhpri x →
            s1.scInhpri x = p ∧ OnChain k x gl := by
          intro x hx
          rw [hinh] at hx ⊢
          split at hx
          · rename_i he
            exact ⟨if_pos he, .owner (he ▸ howner)⟩
          · exact absurd rfl hx
        have hdone : (∀ l, thr ∉ q1 (.obj l)) → LentBut gl p k q →
            Lent { k with threads := s1 } q1 := by
          intro hfree hlent l t w hl ht hwq
          rcases hlent.raise howner hthr hobj1 hprio l t w hl ht hwq with hle | ⟨rfl, -⟩
          · exact hle
          · exact absurd hwq (hfree l)
        split
        · rename_i hsleep
          cases hchan : s1.ktSlpchannel thr with
          | none =>
            refine ⟨s1, q1, rfl, hok1, hobj1, hf, hdone fun l hl => ?_, howned, hsame⟩
            exact absurd ((hw1.channel hl).symm.trans hchan) (by simp)
          | some gl' =>
            have hcur : s1.priority ({ k with threads := s1 } : Kernel).current = p := by
              show s1.priority s1.currentThread = p
              rw [hf.current, hprio]
              split
              · rfl
              · exact hp
            have hless := card_below_lt hthr hprio
            obtain ⟨s2, q2, hrun, hok2, hobj2, hf2, hlent2, hinh2, hsame2⟩ :=
              ih (k := { k with threads := s1 }) hok1 hw1
                (fun hl' => hw1.held (hw1.queued hl' hsleep hchan) hl') (by
                show (below s1 (s1.priority _)).card < fuel
                rw [hcur]
                omega)
            refine ⟨s2, q2, hrun, hok2, fun a => (hobj2 a).trans (hobj1 a), hf.trans hf2,
              fun hlent => hlent2 fun l t w hl ht hwq => ?_, fun x hx => ?_, ?_⟩
            · rcases hlent.raise howner hthr hobj1 hprio l t w hl ht hwq with hle | ⟨rfl, hle⟩
              · exact .inl hle
              · exact .inr ⟨Option.some.inj ((hw1.channel hwq).symm.trans hchan), hle.trans hcur.ge⟩
            · by_cases hx2 : s2.scInhpri x = s1.scInhpri x
              · rw [hx2] at hx ⊢
                exact howned x hx
              · obtain ⟨hval, hon⟩ := hinh2 x hx2
                have hsleep' := (congrFun hf.state thr).symm.trans hsleep
                exact ⟨hval.trans hcur, .next howner hsleep'
                  ((hf.asleep thr hsleep').symm.trans hchan) (hon.lend hf)⟩
            · obtain ⟨F, c, h, rfl⟩ := hsame
              exact hsame2
        · rename_i hawake
          exact ⟨s1, q1, rfl, hok1, hobj1, hf, hdone fun l hl => hawake (hw1.asleep hl), howned, hsame⟩
      · rename_i hnlt
        refine ⟨k.threads, q, rfl, hok, fun _ => rfl, LendFrame.refl _, hstop fun t w _ ht hle => ?_,
          fun x hx => absurd rfl hx, _, _, _, rfl⟩
        cases howner.symm.trans ht
        refine hle.trans ?_
        rw [priority_eq_max k.threads thr]
        by_contra hno
        exact hnlt ⟨by omega, by omega⟩

/-! ## The invariant -/

/-- Threads, queues, owners and lists agree. -/
structure LockOk (k : Kernel) (q : Chan → List Addr) (o : Addr → List Addr) : Prop where
  runs : Runs k.threads q
  owned : Owned k o
  owner_iff : ∀ l t, k.ownerThread l = some t ↔ l ∈ o t
  val_iff : ∀ l, k.lVal l = true ↔ k.ownerThread l ≠ none
  waiting : Waiting k q

/-- The same inside of a step, when the current thread may have stopped running. -/
structure Halted (k : Kernel) (q : Chan → List Addr) (o : Addr → List Addr) : Prop where
  parked : Parked k.threads q
  owned : Owned k o
  owner_iff : ∀ l t, k.ownerThread l = some t ↔ l ∈ o t
  val_iff : ∀ l, k.lVal l = true ↔ k.ownerThread l ≠ none
  waiting : Waiting k q

theorem LockOk.halted (h : LockOk k q o) : Halted k q o :=
  ⟨h.runs.parked, h.owned, h.owner_iff, h.val_iff, h.waiting⟩

theorem Halted.lockOk (h : Halted k q o) (hrun : k.threads.scState k.current = .running) : LockOk k q o :=
  ⟨h.parked.runs hrun, h.owned, h.owner_iff, h.val_iff, h.waiting⟩

theorem LockOk.free (h : LockOk k q o) (hval : k.lVal l ≠ true) :
    k.ownerThread l = none ∧ (∀ t, l ∉ o t) ∧ (k.IsLock l → q (.obj l) = []) := by
  have hnone : k.ownerThread l = none := by
    by_contra hsome
    exact hval ((h.val_iff l).mpr hsome)
  refine ⟨hnone, fun t ht => ?_, fun hl => List.eq_nil_iff_forall_not_mem.mpr fun t ht => ?_⟩
  · have hsome := (h.owner_iff l t).mpr ht
    rw [hnone] at hsome
    cases hsome
  · exact h.waiting.held ht hl hnone

theorem LockOk.others (h : LockOk k q o) (hruns : Runs s q') (hobj : ∀ a, q' (.obj a) = q (.obj a))
    (hsleep : ∀ x, s.scState x = .sleep ↔ k.threads.scState x = .sleep)
    (hchan : ∀ x, k.threads.scState x = .sleep → s.ktSlpchannel x = k.threads.ktSlpchannel x) :
    LockOk { k with threads := s } q' o :=
  ⟨hruns, h.owned, h.owner_iff, h.val_iff, h.waiting.others hobj hsleep hchan⟩

theorem LockOk.level (h : LockOk k q o) (f : Addr → Nat) : LockOk { k with rlLevel := f } q o :=
  ⟨h.runs, h.owned, h.owner_iff, h.val_iff, h.waiting.channel, h.waiting.asleep, h.waiting.queued,
    h.waiting.held⟩

/-- **The current thread takes a free lock.** -/
theorem LockOk.take (h : LockOk k q o) (hval : k.lVal l ≠ true) :
    LockOk (k.take l) q (update o k.current (l :: o k.current)) := by
  obtain ⟨hnone, hfree, -⟩ := h.free hval
  have hrunning : k.threads.scState k.current = .running := h.runs.current_running
  have howned : Owned (k.take l) (update o k.current (l :: o k.current)) :=
    h.owned.addSynchobj hfree
  have howner : ∀ l', (k.take l).ownerThread l' = if l' = l then some k.current else k.ownerThread l' :=
    fun l' => update_apply _ _ _ _
  have hchan : ∀ {x}, k.threads.scState x = .sleep →
      (k.take l).threads.ktSlpchannel x = k.threads.ktSlpchannel x := by
    intro x hx
    have hne : x ≠ k.current := fun he => by
      rw [he, hrunning] at hx
      cases hx
    exact update_of_ne hne _ _
  refine ⟨h.runs.keep (h.runs.ready.congr rfl rfl rfl rfl) (fun _ => rfl) rfl rfl rfl, howned, fun l' t => ?_,
    fun l' => ?_, fun {l' t} ht => ?_, h.waiting.asleep, fun {l' t} hs hc => ?_, fun {l' t} ht hl' => ?_⟩
  · rw [howner]
    by_cases ht : t = k.current
    · subst ht
      rw [update_self, List.mem_cons, ← h.owner_iff]
      by_cases hl : l' = l
      · simp [hl]
      · simp [hl]
    · rw [update_of_ne ht, ← h.owner_iff]
      by_cases hl : l' = l
      · rw [hl, if_pos rfl, hnone]
        simpa using fun he => ht he.symm
      · rw [if_neg hl]
  · rw [howner]
    show update k.lVal l true l' = true ↔ _
    by_cases hl : l' = l
    · simp [hl]
    · rw [update_of_ne hl, if_neg hl]
      exact h.val_iff l'
  · exact (hchan (h.waiting.asleep ht)).trans (h.waiting.channel ht)
  · exact h.waiting.queued hs ((hchan hs).symm.trans hc)
  · rw [howner]
    split
    · simp
    · exact h.waiting.held ht hl'

theorem LockOk.waiting_sleepOn (h : LockOk k q o) (hheld : k.IsLock l → k.ownerThread l ≠ none) :
    Waiting { k with threads := sleepOn l k.threads }
      (update q (.obj l) (q (.obj l) ++ [k.current])) := by
  have hrunning : k.threads.scState k.current = .running := h.runs.current_running
  have hne : ∀ {x}, k.threads.scState x = .sleep → x ≠ k.current := fun hx he => by
    rw [he, hrunning] at hx
    cases hx
  refine ⟨fun {c t} ht => ?_, fun {c t} ht => ?_, fun {c t} hs hc => ?_, fun {c t} ht hl => ?_⟩
  · show update k.threads.ktSlpchannel k.current (some l) t = some c
    rcases mem_sleepOn.mp ht with ht | ⟨rfl, rfl⟩
    · rw [update_of_ne (hne (h.waiting.asleep ht))]
      exact h.waiting.channel ht
    · rw [update_self]
  · show update k.threads.scState k.current .sleep t = .sleep
    rcases mem_sleepOn.mp ht with ht | ⟨rfl, rfl⟩
    · rw [update_of_ne (hne (h.waiting.asleep ht))]
      exact h.waiting.asleep ht
    · rw [update_self]
  · have hs' : update k.threads.scState k.current .sleep t = .sleep := hs
    have hc' : update k.threads.ktSlpchannel k.current (some l) t = some c := hc
    by_cases ht : t = k.current
    · rw [ht, update_self] at hc'
      exact mem_sleepOn.mpr (.inr ⟨ht, (Option.some.inj hc').symm⟩)
    · rw [update_of_ne ht] at hs' hc'
      exact mem_sleepOn.mpr (.inl (h.waiting.queued hs' hc'))
  · rcases mem_sleepOn.mp ht with ht | ⟨rfl, rfl⟩
    · exact h.waiting.held ht hl
    · exact hheld hl

theorem card_below_lt_walkFuel (s : Threads) (t : Addr) : (below s (s.priority t)).card < walkFuel := by
  have hlt : (below s (s.priority t)).card < Fintype.card Addr :=
    Finset.card_lt_univ_of_notMem (x := t) fun ht => lt_irrefl _ (mem_below.mp ht)
  rwa [Fintype.card_fin] at hlt

section

variable (h : LockOk k q o) (hcid : k.threads.scCid k.current ≠ .idle)
include h hcid

theorem LockOk.switchAway {q1 : Chan → List Addr} (hok : ReadyOk s q1)
    (hw : Waiting { k with threads := s } q1) (hcur : s.currentThread = k.current)
    (hcids : s.scCid = k.threads.scCid)
    (hstate : s.scState = update k.threads.scState k.current .sleep) :
    ∃ q', LockOk { k with threads := s.scheduler } q' o ∧ ∀ c, q' (.obj c) = q1 (.obj c) := by
  have hsleep1 := asleep_of_update hstate
  obtain ⟨q', hruns, hobj, hsleep, -⟩ := h.runs.sleepSwitch hcid hok hcur hcids hstate
    fun {c x} hx => (hsleep1 x).mp (hw.asleep hx)
  have hw1 := Waiting.others (k := { k with threads := s }) (s := s.scheduler) hobj
    (fun x => (hsleep x).trans (hsleep1 x).symm)
    (fun x _ => congrFun (sameThreads_scheduler s).slpchannel x) hw
  exact ⟨q', ⟨hruns, h.owned, h.owner_iff, h.val_iff, hw1⟩, hobj⟩

/-- **The current thread waits for a lock that is held.** -/
theorem LockOk.block (hval : k.lVal l = true) :
    ∃ s q', k.block l = some { k with threads := s } ∧ LockOk { k with threads := s } q' o ∧
      (∀ c, q' (.obj c) = update q (.obj l) (q (.obj l) ++ [k.current]) (.obj c)) ∧
      s.scCpupri = k.threads.scCpupri ∧ s.scCid = k.threads.scCid ∧
      (Lent k q → Lent { k with threads := s } q') ∧
      ∀ x, s.scInhpri x ≠ k.threads.scInhpri x → ∃ l, k.ownerThread l = some x := by
  have hw := h.waiting_sleepOn (l := l) fun _ => (h.val_iff l).mp hval
  obtain ⟨s, q1, hrun, hok, hobj, hf, hlent, hinh, -⟩ := lendPriority_spec (h.runs.sleepOn_ok l) hw.lined
    (fun _ => (h.val_iff l).mp hval) (card_below_lt_walkFuel _ _)
  have hw1 := hw.others hobj (fun x => by rw [hf.state]) hf.asleep
  obtain ⟨q', hlock, hobj'⟩ := h.switchAway hcid hok hw1 hf.current hf.cid hf.state
  have hsame := sameThreads_scheduler s
  have hprio : ∀ x, s.scheduler.priority x = s.priority x := fun x => by
    rw [priority_eq_max, priority_eq_max, hsame.cpupri, hsame.inhpri]
  refine ⟨s.scheduler, q', ?_, hlock, fun c => ?_, ?_, ?_, fun hold => ?_, fun x hx => ?_⟩
  · unfold Kernel.block
    rw [hrun]
    rfl
  · rw [hobj', hobj]
  · rw [hsame.cpupri, hf.cpupri]
    rfl
  · rw [hsame.cid, hf.cid]
    rfl
  · have hfull := hlent fun c t w hl ht hw => by
      rcases mem_sleepOn.mp hw with hw | ⟨rfl, rfl⟩
      · exact .inl (hold c t w hl ht hw)
      · exact .inr ⟨rfl, le_refl _⟩
    intro c t w hl ht hw
    rw [hobj'] at hw
    show s.scheduler.priority w ≤ s.scheduler.priority t
    rw [hprio, hprio]
    exact hfull c t w hl ht hw
  · rw [hsame.inhpri] at hx
    exact (hinh x hx).2.owns

/-- **The current thread sleeps on an object that has no owner**, such as an event. -/
theorem LockOk.sleep (htype : ¬ k.IsLock l) :
    ∃ q', LockOk { k with threads := (sleepOn l k.threads).scheduler } q' o ∧
      ∀ c, q' (.obj c) = update q (.obj l) (q (.obj l) ++ [k.current]) (.obj c) :=
  h.switchAway hcid (h.runs.sleepOn_ok l) (h.waiting_sleepOn fun hl => absurd hl htype) rfl rfl rfl

end

theorem Waiting.woken (h : Waiting k q) (hw : AllWoken a k.threads s q q') :
    Waiting { k with threads := s } q' := by
  have hmem : ∀ {c t}, t ∈ q' (.obj c) → t ∈ q (.obj c) ∧ t ∉ q (.obj a) := by
    intro c t ht
    rw [hw.queues] at ht
    by_cases hc : c = a
    · subst hc
      rw [update_self] at ht
      cases ht
    · rw [update_of_ne (by simpa using hc)] at ht
      refine ⟨ht, fun hta => hc ?_⟩
      exact Option.some.inj ((h.channel ht).symm.trans (h.channel hta))
  refine ⟨fun {c t} ht => ?_, fun {c t} ht => ?_, fun {c t} hs hc => ?_, fun {c t} ht => ?_⟩
  · exact (hw.channel t).trans ((if_neg (hmem ht).2).trans (h.channel (hmem ht).1))
  · exact (hw.state t).trans ((if_neg (hmem ht).2).trans (h.asleep (hmem ht).1))
  · have hta : t ∉ q (.obj a) := fun hta => by
      have hready := (hw.state t).trans (if_pos hta)
      rw [show s.scState t = .sleep from hs] at hready
      cases hready
    have hq := h.queued ((if_neg hta).symm.trans ((hw.state t).symm.trans hs))
      ((if_neg hta).symm.trans ((hw.channel t).symm.trans hc))
    rw [hw.queues, update_of_ne]
    · exact hq
    · intro he
      rw [he] at hq
      exact hta hq
  · exact h.held (hmem ht).1

theorem Halted.wake (h : Halted k q o) (e : Addr) :
    ∃ s q', k.eventWakeup e = some { k with threads := s } ∧ Halted { k with threads := s } q' o ∧
      AllWoken e k.threads s q q' := by
  obtain ⟨s, q', hrun, hpark, hw⟩ :=
    wakeAll_spec h.parked rfl (length_le_walkFuel (h.parked.ready.holds.nodup (.obj e)))
  refine ⟨s, q', ?_, ⟨hpark, h.owned, h.owner_iff, h.val_iff, h.waiting.woken hw⟩, hw⟩
  unfold Kernel.eventWakeup
  rw [hrun]
  rfl

structure Released (l : Addr) (k k' : Kernel) (q q' : Chan → List Addr) : Prop
    extends AllWoken l k.threads k'.threads q q' where
  owner : k'.ownerThread = update k.ownerThread l none
  type : k'.slType = k.slType
  level : k'.rlLevel = k.rlLevel

/-- **The current thread gives a lock back.** -/
theorem Halted.release (h : Halted k q o) (howner : k.ownerThread l = some k.current) :
    ∃ k' q', k.release l = some k' ∧ Halted k' q' (update o k.current ((o k.current).erase l)) ∧
      Released l k k' q q' := by
  obtain ⟨s, q', hrun, hpark, hwoken⟩ :=
    wakeAll_spec h.parked rfl (length_le_walkFuel (h.parked.ready.holds.nodup (.obj l)))
  have hl : l ∈ o k.current := (h.owner_iff l _).mp howner
  have howned : Owned (Kernel.delSynchobj l k.current { k with threads := s })
      (update o k.current ((o k.current).erase l)) :=
    Owned.delSynchobj (k := { k with threads := s }) h.owned hl
  have hw := h.waiting.woken hwoken
  have hempty : q' (.obj l) = [] := by rw [hwoken.queues, update_self]
  unfold Kernel.release
  rw [hrun]
  refine ⟨_, q', rfl, ⟨hpark, howned, fun l' t => ?_, fun l' => ?_, hw.channel, hw.asleep, hw.queued,
    fun {l' t} ht hl' => ?_⟩, hwoken, rfl, rfl, rfl⟩
  · show update k.ownerThread l none l' = some t ↔ _
    by_cases hl' : l' = l
    · subst hl'
      exact iff_of_false (by simp) (h.owned.not_mem_erase hl t)
    rw [update_of_ne hl', h.owner_iff]
    by_cases ht : t = k.current
    · subst ht
      rw [update_self, List.mem_erase_of_ne hl']
    · rw [update_of_ne ht]
  · show update k.lVal l false l' = true ↔ update k.ownerThread l none l' ≠ none
    by_cases hl' : l' = l
    · rw [hl', update_self, update_self]
      simp
    · rw [update_of_ne hl', update_of_ne hl']
      exact h.val_iff l'
  · show update k.ownerThread l none l' ≠ none
    by_cases he : l' = l
    · rw [he, hempty] at ht
      cases ht
    · rw [update_of_ne he]
      exact hw.held ht hl'

/-- **All threads that sleep on an object become ready**, as in `event_wakeup`. -/
theorem LockOk.wake (h : LockOk k q o) (e : Addr) :
    ∃ s q', k.eventWakeup e = some { k with threads := s } ∧ LockOk { k with threads := s } q' o ∧
      AllWoken e k.threads s q q' := by
  obtain ⟨s, q', hrun, hok, hw⟩ := h.halted.wake e
  exact ⟨s, q', hrun, hok.lockOk (hw.runs h.runs hok.parked).current_running, hw⟩

theorem LockOk.release (h : LockOk k q o) (howner : k.ownerThread l = some k.current) :
    ∃ k' q', k.release l = some k' ∧ LockOk k' q' (update o k.current ((o k.current).erase l)) ∧
      Released l k k' q q' := by
  obtain ⟨k', q', hrun, hok, hr⟩ := h.halted.release howner
  exact ⟨k', q', hrun, hok.lockOk (hr.runs h.runs hok.parked).current_running, hr⟩

theorem Halted.reset (h : Halted k q o) (hcur : k.threads.scState k.current ≠ .ready) :
    Halted { k with threads := k.threads.setInhpri k.current 0 } q o := by
  have hready : ReadyOk (k.threads.setInhpri k.current 0) q := by
    refine h.parked.ready.aside hcur rfl hcur
      ⟨h.parked.ready.cpupri _, ?_, fun _ _ => rfl, fun _ _ => rfl, fun x hx => update_of_ne hx _ _⟩
    show 0 ≤ update k.threads.scInhpri k.current 0 k.current ∧
      update k.threads.scInhpri k.current 0 k.current ≤ 159
    rw [update_self]
    omega
  exact ⟨⟨hready, h.parked.alone, h.parked.asleep, h.parked.idle, h.parked.few⟩, h.owned, h.owner_iff,
    h.val_iff, h.waiting.channel, h.waiting.asleep, h.waiting.queued, h.waiting.held⟩

theorem LockOk.reset (h : LockOk k q o) :
    LockOk { k with threads := k.threads.setInhpri k.current 0 } q o :=
  have hrunning : k.threads.scState k.current = .running := h.runs.current_running
  (h.halted.reset (by simp [hrunning])).lockOk hrunning

theorem LockOk.dropInherited (h : LockOk k q o) :
    LockOk k.dropInherited q o ∧ ∀ x, k.dropInherited.threads.scInhpri x =
      if x = k.current ∧ o x = [] then 0 else k.threads.scInhpri x := by
  have hlist := h.owned.list_nil k.current
  unfold Kernel.dropInherited
  split
  · rename_i hnil
    rw [hlist] at hnil
    refine ⟨h.reset, fun x => ?_⟩
    show update k.threads.scInhpri k.current 0 x = _
    by_cases hx : x = k.current
    · simp [hx, hnil]
    · simp [hx]
  · rename_i hsome
    rw [hlist] at hsome
    refine ⟨h, fun x => ?_⟩
    rw [if_neg]
    rintro ⟨rfl, hnil⟩
    exact hsome hnil

/-! ## The clock -/

theorem LockOk.preempt (h : LockOk k q o) :
    ∃ q', LockOk { k with threads := k.threads.scheduler } q' o ∧
      ∀ a, q' (.obj a) = q (.obj a) := by
  obtain ⟨q', hruns, hobj, hsleep⟩ := h.runs.preempt
  have hsame := sameThreads_scheduler k.threads
  exact ⟨q', h.others hruns hobj hsleep fun x _ => congrFun hsame.slpchannel x, hobj⟩

theorem LockOk.recompute (h : LockOk k q o) :
    ∃ t q', k.threads.recompute = some t ∧ LockOk { k with threads := t } q' o ∧
      (∀ a, q' (.obj a) = q (.obj a)) ∧ RaiseFrame k.threads t := by
  obtain ⟨t, q', hrun, hruns, hobj, hf⟩ := h.runs.recompute
  exact ⟨t, q', hrun, h.others hruns hobj (fun x => by rw [hf.state]) fun x _ =>
    congrFun hf.slpchannel x, hobj, hf⟩

theorem rrClTick_keeps (thr : Addr) (s : Threads) : (rrClTick thr s).scState = s.scState ∧
    (rrClTick thr s).ktSlpchannel = s.ktSlpchannel ∧ (rrClTick thr s).scInhpri = s.scInhpri ∧
    (rrClTick thr s).scCid = s.scCid := by
  unfold rrClTick
  simp only
  split <;> exact ⟨rfl, rfl, rfl, rfl⟩

theorem LockOk.tick (h : LockOk k q o) :
    LockOk { k with threads := rrClTick k.threads.currentThread k.threads } q o := by
  obtain ⟨hstate, hchan, -⟩ := rrClTick_keeps k.threads.currentThread k.threads
  exact h.others h.runs.tick (fun _ => rfl) (fun x => by rw [hstate]) fun x _ => congrFun hchan x

end Kernel

end AtomOs
