import AtomOs.Proc.Table
import Mathlib.Data.Set.Card

/-!
# The process table in a run

As long as no process comes to its end, the three lists share out the structures that are allocated, a
process that is live is on the list of the used or the suspended ones and nothing else is found by its
pid, and the slots of the descriptor table are those of the live processes.

**`table_sound`** says this of every run of such steps, and that the first other step ends it: nobody
gives back the slot of a process that has come to its end, or of one for which `create_thread` has failed.
`destroyed_still_used` is what one `syscall_wait` does to the lists.
-/

namespace AtomOs.ProcTable

open Lib Function List

variable {s s' : ProcTable} {q : ProcessList → List Addr} {p : Addr}

/-! ## The lists -/

/-- The lists are `q`. The code has no pointer to the last structure of a list. -/
def Linked (s : ProcTable) (q : ProcessList → List Addr) : Prop :=
  ∃ tail, (⟨s.procNext, s.procPrev, s.head, tail⟩ : Queues ProcessList Addr).Holds q

theorem Linked.head_eq (h : s.Linked q) (i : ProcessList) : s.head i = (q i).head? := by
  obtain ⟨tail, h⟩ := h
  exact h.head_eq i

variable {i : ProcessList} {mem : Option Addr}

theorem Linked.pushFront (h : s.Linked q) (hp : ∀ j, p ∉ q j) :
    (s.pushFront i p).Linked (update q i (p :: q i)) := by
  have hne : some p ≠ s.head i := by
    intro he
    rw [h.head_eq i] at he
    exact hp i (mem_of_head? he.symm)
  obtain ⟨tail, h⟩ := h
  exact ⟨_, h.push hp rfl (store_comm hne) rfl rfl⟩

theorem exists_mem_processList (q : ProcessList → List Addr) (x : Addr) :
    (∃ i, x ∈ q i) ↔ x ∈ q .used ∨ x ∈ q .suspended ∨ x ∈ q .unused := by
  constructor
  · rintro ⟨i, hi⟩
    cases i with
    | used => exact .inl hi
    | suspended => exact .inr (.inl hi)
    | unused => exact .inr (.inr hi)
  · rintro (hi | hi | hi)
    exacts [⟨_, hi⟩, ⟨_, hi⟩, ⟨_, hi⟩]

theorem exists_mem_push {x : Addr} : (∃ j, x ∈ update q i (p :: q i) j) ↔ x = p ∨ ∃ j, x ∈ q j := by
  constructor
  · rintro ⟨j, hj⟩
    by_cases hji : j = i
    · subst hji
      rw [update_self] at hj
      exact (mem_cons.mp hj).imp_right fun hx => ⟨j, hx⟩
    · rw [update_of_ne hji] at hj
      exact .inr ⟨j, hj⟩
  · rintro (rfl | ⟨j, hj⟩)
    · exact ⟨i, by rw [update_self]; exact mem_cons_self⟩
    · refine ⟨j, ?_⟩
      by_cases hji : j = i
      · subst hji
        rw [update_self]
        exact mem_cons_of_mem _ hj
      · rwa [update_of_ne hji]

/-- The first unused structure leaves its list. Its `proc_prev` is `NULL` already. -/
theorem Linked.take_unused (h : s.Linked q) {l : List Addr} (hq : q .unused = p :: l)
    (hnext : s'.procNext = store s.procNext (some p) none)
    (hprev : s'.procPrev = store s.procPrev (s.procNext p) none)
    (hhead : s'.head = update s.head .unused (s.procNext p)) :
    s'.Linked (update q .unused l) := by
  obtain ⟨tail, h⟩ := h
  have hlist := h.list .unused
  rw [hq] at hlist
  have htake := (h.take hq).2
  simp only [Queues.take, show s.head .unused = some p from hlist.1] at htake
  rw [store_self (show store s.procPrev (s.procNext p) none p = none from by
    unfold store
    split
    · rfl
    · exact hlist.2.1)] at htake
  rw [← hnext, ← hprev, ← hhead] at htake
  exact ⟨_, htake⟩

theorem Linked.suspend (h : s.Linked q) (hp : p ∈ q .used) :
    (s.suspend p).Linked (update (update q .used ((q .used).erase p)) .suspended
      (p :: q .suspended)) := by
  obtain ⟨tail, h⟩ := h
  have hlinked : (s.unlinkUsed p).Linked _ := ⟨_, h.unlink hp⟩
  exact Linked.pushFront (s := { s with procState := _ }.unlinkUsed p) hlinked (h.not_mem_erase hp)

/-! ## The invariant -/

/-- The lists `q` share out the structures. -/
structure Shared (s : ProcTable) (q : ProcessList → List Addr) : Prop where
  linked : s.Linked q
  allocated_iff : ∀ p, s.allocated p = true ↔ ∃ i, p ∈ q i
  inUse_iff : ∀ p, s.inUse p = true ↔ p ∈ q .used ∨ p ∈ q .suspended
  ready : ∀ p, s.inUse p = true → s.procState p = .ready → p ∈ q .used

/-- The descriptor table is that of the processes in use. -/
structure Slots (s : ProcTable) : Prop where
  slot : ∀ p, s.inUse p = true → s.ldtTable (s.procLdtindex p) = true
  slot_inj : ∀ p p', s.inUse p = true → s.inUse p' = true →
    s.procLdtindex p = s.procLdtindex p' → p = p'
  owner : ∀ i, s.ldtTable i = true → ∃ p, s.inUse p = true ∧ s.procLdtindex p = i

structure TableOk (s : ProcTable) (q : ProcessList → List Addr) : Prop extends s.Shared q, s.Slots

theorem Shared.apart (h : s.Shared q) {j : ProcessList} (hi : p ∈ q i) (hj : p ∈ q j) : i = j := by
  obtain ⟨tail, hl⟩ := h.linked
  exact hl.apart hi hj

theorem Shared.nodup (h : s.Shared q) (i : ProcessList) : (q i).Nodup := by
  obtain ⟨tail, hl⟩ := h.linked
  exact hl.nodup i

theorem TableOk.same (h : s.TableOk q) (hnext : s'.procNext = s.procNext)
    (hprev : s'.procPrev = s.procPrev) (hhead : s'.head = s.head)
    (hldt : s'.ldtTable = s.ldtTable) (hindex : s'.procLdtindex = s.procLdtindex)
    (halloc : s'.allocated = s.allocated) (huse : s'.inUse = s.inUse)
    (hready : ∀ p, s'.procState p = .ready → s.procState p = .ready) : s'.TableOk q where
  linked := by
    unfold Linked
    rw [hnext, hprev, hhead]
    exact h.linked
  allocated_iff := halloc ▸ h.allocated_iff
  inUse_iff := huse ▸ h.inUse_iff
  ready := fun p hp hr => h.ready p (huse ▸ hp) (hready p hr)
  slot := by
    rw [huse, hldt, hindex]
    exact h.slot
  slot_inj := by
    rw [huse, hindex]
    exact h.slot_inj
  owner := by
    rw [hldt, huse, hindex]
    exact h.owner

/-! ## Creation -/

theorem allocLdtIndex_some {i : Fin maxProcesses} (h : s.allocLdtIndex = some i) :
    s.ldtTable i = false := by
  have hi := find?_some h
  simpa using hi

/-- What `alloc_process` does: a structure that was unused, or that is new, is on no list now. -/
theorem Shared.allocProcess (h : s.Shared q)
    (hmem : ∀ a, mem = some a → s.allocated a = false) (ha : s.allocProcess mem = some (p, s')) :
    ∃ l, s'.Linked (update q .unused l) ∧
      (∀ j, p ∉ update q .unused l j) ∧
      (∀ x, s'.allocated x = true ↔ x = p ∨ ∃ i, x ∈ update q .unused l i) ∧
      s.inUse p = false ∧
      s' = { s with
        procNext := s'.procNext, procPrev := s'.procPrev, head := s'.head
        unusedprocCount := s'.unusedprocCount, allocated := s'.allocated } := by
  unfold ProcTable.allocProcess at ha
  cases hq : q .unused with
  | nil =>
    -- `kmalloc` gives the structure
    rw [h.linked.head_eq, hq] at ha
    obtain ⟨a, hmema, hpa⟩ := Option.map_eq_some_iff.mp ha
    obtain ⟨rfl, rfl⟩ := Prod.mk.inj hpa
    have hnew : ∀ i, a ∉ q i := by
      intro i hi
      have := (h.allocated_iff a).mpr ⟨i, hi⟩
      rw [hmem a hmema] at this
      cases this
    have hself : update q .unused [] = q := by rw [← hq, update_eq_self]
    refine ⟨[], ?_, ?_, ?_, ?_, rfl⟩
    · rw [hself]
      exact h.linked
    · rw [hself]
      exact hnew
    · intro x
      rw [hself]
      show update s.allocated a true x = true ↔ _
      by_cases hx : x = a
      · simp [hx]
      · rw [update_of_ne hx, h.allocated_iff x]
        simp [hx]
    · rw [Bool.eq_false_iff]
      intro hu
      rcases (h.inUse_iff a).mp hu with hi | hi
      · exact hnew _ hi
      · exact hnew _ hi
  | cons x l =>
    rw [h.linked.head_eq, hq] at ha
    obtain ⟨rfl, rfl⟩ := Prod.mk.inj (Option.some.inj ha)
    have hx : x ∈ q .unused := by
      rw [hq]
      exact mem_cons_self
    have hback : update (update q .unused l) .unused (x :: update q .unused l .unused) = q := by
      rw [update_self, update_idem, ← hq, update_eq_self]
    refine ⟨l, h.linked.take_unused hq rfl rfl rfl, ?_, fun y => ?_, ?_, rfl⟩
    · obtain ⟨tail, hl⟩ := h.linked
      have hout := hl.not_mem_erase hx
      rwa [hq, erase_cons_head] at hout
    · rw [h.allocated_iff y, ← exists_mem_push, hback]
    · rw [Bool.eq_false_iff]
      intro hu
      rcases (h.inUse_iff x).mp hu with hi | hi
      · exact absurd (h.apart hi hx) (by decide)
      · exact absurd (h.apart hi hx) (by decide)

theorem Slots.init (h : s.Slots) {slot : Fin maxProcesses} (hfree : s.ldtTable slot = false)
    (hp : s.inUse p = false) (hldt : s'.ldtTable = update s.ldtTable slot true)
    (hindex : s'.procLdtindex = update s.procLdtindex p slot)
    (huse : s'.inUse = update s.inUse p true) : s'.Slots := by
  have hother : ∀ x, x ≠ p → s'.inUse x = true →
      s.inUse x = true ∧ s'.procLdtindex x = s.procLdtindex x := by
    intro x hx hu
    rw [huse, update_of_ne hx] at hu
    rw [hindex, update_of_ne hx]
    exact ⟨hu, rfl⟩
  have hself : s'.procLdtindex p = slot := by rw [hindex, update_self]
  -- a slot in use is not the free one
  have hne : ∀ x, s.inUse x = true → s.procLdtindex x ≠ slot := by
    intro x hu he
    have := h.slot x hu
    rw [he, hfree] at this
    cases this
  refine ⟨?_, ?_, ?_⟩
  · intro x hu
    by_cases hx : x = p
    · rw [hx, hself, hldt, update_self]
    · obtain ⟨hu, hi⟩ := hother x hx hu
      rw [hi, hldt, update_of_ne (hne x hu)]
      exact h.slot x hu
  · intro x y hx hy he
    by_cases hxp : x = p
    · by_cases hyp : y = p
      · rw [hxp, hyp]
      · obtain ⟨hy, hi⟩ := hother y hyp hy
        rw [hxp, hself, hi] at he
        exact absurd he.symm (hne y hy)
    · obtain ⟨hx, hi⟩ := hother x hxp hx
      by_cases hyp : y = p
      · rw [hyp, hself, hi] at he
        exact absurd he (hne x hx)
      · obtain ⟨hy, hj⟩ := hother y hyp hy
        rw [hi, hj] at he
        exact h.slot_inj x y hx hy he
  · intro i hi
    by_cases his : i = slot
    · exact ⟨p, by rw [huse, update_self], hself.trans his.symm⟩
    rw [hldt, update_of_ne his] at hi
    obtain ⟨x, hx, hxi⟩ := h.owner i hi
    have hxp : x ≠ p := by
      rintro rfl
      rw [hp] at hx
      cases hx
    refine ⟨x, ?_, ?_⟩
    · rw [huse, update_of_ne hxp]
      exact hx
    · rw [hindex, update_of_ne hxp]
      exact hxi

theorem createProcess_blocked (hb : s.Blocked mem) (parent : Addr) (procno : Nat) (threadOk : Bool) :
    (s.createProcess parent procno mem threadOk).2 = s := by
  unfold ProcTable.createProcess
  cases hslot : s.allocLdtIndex with
  | none => rfl
  | some slot =>
    obtain ⟨hhead, rfl⟩ := hb.resolve_left (by simp [hslot])
    simp only [ProcTable.allocProcess, hhead, Option.map_none]
    rw [update_idem, ← allocLdtIndex_some hslot, update_eq_self]

/-- What `create_process` has done otherwise: a structure that was not in use has a slot that was
    free. -/
structure Filled (s s' : ProcTable) (threadOk : Bool) (p : Addr) (slot : Fin maxProcesses) : Prop where
  fresh : s.inUse p = false
  free : s.ldtTable slot = false
  ldtTable : s'.ldtTable = update s.ldtTable slot true
  inUse : s'.inUse = update s.inUse p true
  hasThread : s'.hasThread = update s.hasThread p threadOk
  procState : s'.procState = update s.procState p .ready

/-- **`create_process` keeps the table.** -/
theorem TableOk.createProcess (h : s.TableOk q) (hb : ¬ s.Blocked mem) (parent : Addr) (procno : Nat)
    (hmem : ∀ a, mem = some a → s.allocated a = false) (threadOk : Bool) :
    ∃ q' p slot, (s.createProcess parent procno mem threadOk).2.TableOk q' ∧
      (s.createProcess parent procno mem threadOk).1 = (if threadOk then .ok p else .noThread) ∧
      s.Filled (s.createProcess parent procno mem threadOk).2 threadOk p slot := by
  obtain ⟨slot, hslot⟩ := Option.ne_none_iff_exists'.mp fun hno => hb (.inl hno)
  have hfree := allocLdtIndex_some hslot
  obtain ⟨⟨p, t⟩, ha⟩ : ∃ r, ({ s with ldtTable := update s.ldtTable slot true }).allocProcess mem =
      some r := by
    unfold ProcTable.allocProcess
    cases hhead : s.head .unused with
    | some x => exact ⟨_, rfl⟩
    | none =>
      obtain ⟨a, rfl⟩ := Option.ne_none_iff_exists'.mp fun hno => hb (.inr ⟨hhead, hno⟩)
      exact ⟨_, rfl⟩
  unfold ProcTable.createProcess
  simp only [hslot, ha]
  -- allocation does not look at the descriptor table
  have hshared : ({ s with ldtTable := update s.ldtTable slot true }).Shared q :=
    ⟨h.linked, h.allocated_iff, h.inUse_iff, h.ready⟩
  obtain ⟨l, hlinked, hout, halloc, hp, ht⟩ := hshared.allocProcess hmem ha
  have huse : t.inUse = s.inUse := by rw [ht]
  have hthread : t.hasThread = s.hasThread := by rw [ht]
  have hstate : t.procState = s.procState := by rw [ht]
  have hldt : t.ldtTable = update s.ldtTable slot true := by rw [ht]
  have hindex : t.procLdtindex = s.procLdtindex := by rw [ht]
  have hused : update (update q .unused l) .used
      (p :: update q .unused l .used) .used = p :: q .used := rfl
  have huse' : update t.inUse p true = update s.inUse p true := by rw [huse]
  have hthread' : update t.hasThread p threadOk = update s.hasThread p threadOk := by rw [hthread]
  have hstate' : update t.procState p .ready = update s.procState p .ready := by rw [hstate]
  have hindex' : update t.procLdtindex p slot = update s.procLdtindex p slot := by rw [hindex]
  refine ⟨update (update q .unused l) .used (p :: update q .unused l .used), p, slot, ⟨⟨?_, ?_, ?_, ?_⟩, ?_⟩,
    rfl, hp, hfree, hldt, huse', hthread', hstate'⟩
  · exact Linked.pushFront (s := t.initProcess p parent procno slot) hlinked hout
  · intro x
    rw [exists_mem_push]
    exact halloc x
  · intro x
    show update t.inUse p true x = true ↔ _ ∨ x ∈ q .suspended
    rw [huse, hused]
    by_cases hx : x = p
    · simp [hx]
    · rw [update_of_ne hx, h.inUse_iff x]
      simp [hx]
  · intro x hu hr
    rw [hused, mem_cons]
    by_cases hx : x = p
    · exact .inl hx
    have hu : update t.inUse p true x = true := hu
    have hr : update t.procState p .ready x = .ready := hr
    rw [update_of_ne hx, huse] at hu
    rw [update_of_ne hx, hstate] at hr
    exact .inr (h.ready x hu hr)
  · exact h.toSlots.init hfree hp hldt hindex' huse'

/-! ## The other steps -/

theorem TableOk.terminateProcess (h : s.TableOk q) (p : Addr) : (s.terminateProcess p).TableOk q := by
  unfold ProcTable.terminateProcess
  split
  · exact h.same rfl rfl rfl rfl rfl rfl rfl fun _ hr => hr
  · exact h

theorem TableOk.suspend (h : s.TableOk q) (hp : s.inUse p = true) (hr : s.procState p = .ready) :
    ∃ q', (s.suspend p).TableOk q' := by
  have hused := h.ready p hp hr
  have hmem : ∀ x, x ∈ q .used ∨ x ∈ q .suspended ↔
      x ∈ (q .used).erase p ∨ x ∈ p :: q .suspended := by
    intro x
    by_cases hx : x = p
    · simp [hx, hused]
    · simp [hx]
  refine ⟨_, ⟨h.linked.suspend hused, ?_, ?_, ?_⟩, ⟨h.slot, h.slot_inj, h.owner⟩⟩
  · intro x
    show s.allocated x = true ↔ _
    rw [h.allocated_iff x, exists_mem_processList, exists_mem_processList, ← or_assoc, ← or_assoc]
    exact or_congr_left (hmem x)
  · intro x
    show s.inUse x = true ↔ _
    rw [h.inUse_iff x]
    exact hmem x
  · intro x hu hx
    have hx : update s.procState p .suspended x = .ready := hx
    show x ∈ (q .used).erase p
    by_cases hxp : x = p
    · rw [hxp, update_self] at hx
      cases hx
    · rw [update_of_ne hxp] at hx
      exact (h.nodup .used).mem_erase_iff.mpr ⟨hxp, h.ready x hu hx⟩

/-- Every process in use is live. A structure that is not in use does not look terminated either. -/
structure AllLive (s : ProcTable) : Prop where
  thread : ∀ p, s.inUse p = true → s.hasThread p = true
  state : ∀ p, s.procState p ≠ .terminated

theorem AllLive.live_iff (h : s.AllLive) (p : Addr) : s.Live p ↔ s.inUse p = true :=
  ⟨fun hp => hp.1, fun hp => ⟨hp, h.thread p hp, h.state p⟩⟩

theorem AllLive.terminateProcess (h : s.AllLive) (p : Addr) : (s.terminateProcess p).AllLive := by
  unfold ProcTable.terminateProcess
  split
  · exact ⟨h.thread, h.state⟩
  · exact h

theorem AllLive.syscallWait (h : s.AllLive) (parent : Addr) : s.syscallWait parent = none := by
  unfold ProcTable.syscallWait
  rw [find?_eq_none.mpr fun c _ => by simpa using h.state c]
  rfl

theorem Filled.allLive {slot : Fin maxProcesses} (hf : s.Filled s' true p slot) (h : s.AllLive) :
    s'.AllLive := by
  refine ⟨fun x hx => ?_, fun x => ?_⟩
  · rw [hf.inUse] at hx
    rw [hf.hasThread]
    by_cases hxp : x = p
    · rw [hxp, update_self]
    · rw [update_of_ne hxp] at hx ⊢
      exact h.thread x hx
  · rw [hf.procState]
    by_cases hxp : x = p
    · rw [hxp, update_self]
      simp
    · rw [update_of_ne hxp]
      exact h.state x

/-- **A step of these runs keeps the table.** -/
theorem TableOk.step (h : s.TableOk q) (hl : s.AllLive) {op : Op} (hok : s.OpOk op)
    (hs : s.step op = some s') : (∃ q', s'.TableOk q') ∧ s'.AllLive := by
  cases op with
  | create parent procno mem threadOk =>
    obtain ⟨⟨-, hg⟩, hs⟩ := Option.ite_none_right_eq_some.mp hs
    cases hs
    by_cases hb : s.Blocked mem
    · rw [createProcess_blocked hb]
      exact ⟨⟨q, h⟩, hl⟩
    · obtain rfl := hok.resolve_right hb
      obtain ⟨q', p, slot, hq', -, hf⟩ := h.createProcess hb parent procno
        (by rintro a rfl; simpa using hg) true
      exact ⟨⟨q', hq'⟩, hf.allLive hl⟩
  | exit p =>
    obtain ⟨-, hs⟩ := Option.ite_none_right_eq_some.mp hs
    cases hs
    exact ⟨⟨q, h.terminateProcess p⟩, hl.terminateProcess p⟩
  | kill pid =>
    obtain ⟨r, -, rfl⟩ := Option.map_eq_some_iff.mp (show s.syscallKill pid = some s' from hs)
    cases r with
    | none => exact ⟨⟨q, h⟩, hl⟩
    | some p => exact ⟨⟨q, h.terminateProcess p⟩, hl.terminateProcess p⟩
  | finish p => exact hok.elim
  | wait parent =>
    obtain ⟨-, hs⟩ := Option.ite_none_right_eq_some.mp hs
    cases (hl.syscallWait parent).symm.trans hs
  | suspend p =>
    obtain ⟨hg, hs⟩ := Option.ite_none_right_eq_some.mp hs
    cases hs
    refine ⟨h.suspend hg.1 hg.2, hl.thread, fun x => ?_⟩
    show update s.procState p .suspended x ≠ .terminated
    rw [update_apply]
    split
    · simp
    · exact hl.state x

/-! ## What it means -/

theorem findPid_eq (pid : Nat) : ∀ {l : List Addr} {start before : Option Addr} {fuel : Nat},
    DList s.procNext s.procPrev start before l → l.length ≤ fuel →
    s.findPid pid fuel start = some (l.find? fun p => s.procId p = pid)
  | [], _, _, _, h, _ => by
    rw [show _ = none from h]
    unfold findPid
    rfl
  | x :: l, _, _, 0, _, hle => absurd hle (by simp)
  | x :: l, _, _, fuel + 1, h, hle => by
    rw [h.1, findPid, find?_cons]
    by_cases hx : s.procId x = pid
    · rw [if_pos hx, decide_eq_true hx]
    · rw [if_neg hx, decide_eq_false hx]
      exact findPid_eq pid h.2.2 (by simpa using hle)

theorem Shared.findPid (h : s.Shared q) (pid : Nat) (i : ProcessList) :
    s.findPid pid walkFuel (s.head i) = some ((q i).find? fun p => s.procId p = pid) := by
  obtain ⟨tail, hl⟩ := h.linked
  exact findPid_eq pid (hl.list i) (length_le_walkFuel (h.nodup i))

theorem Shared.lookup (h : s.Shared q) (pid : Nat) :
    ∃ r, s.lookup pid = some r ∧ ∀ p, r = some p → s.inUse p = true ∧ s.procId p = pid := by
  unfold ProcTable.lookup
  rw [h.findPid, h.findPid]
  have hfound : ∀ i p, (q i).find? (fun p => s.procId p = pid) = some p →
      p ∈ q i ∧ s.procId p = pid := by
    intro i p hp
    exact ⟨mem_of_find?_eq_some hp, by simpa using find?_some hp⟩
  cases hu : (q .used).find? (fun p => s.procId p = pid) with
  | some p =>
    refine ⟨some p, rfl, ?_⟩
    rintro _ ⟨rfl⟩
    obtain ⟨hp, hid⟩ := hfound .used p hu
    exact ⟨(h.inUse_iff p).mpr (.inl hp), hid⟩
  | none =>
    refine ⟨_, rfl, ?_⟩
    intro p hp
    obtain ⟨hp, hid⟩ := hfound .suspended p hp
    exact ⟨(h.inUse_iff p).mpr (.inr hp), hid⟩

theorem Slots.card_eq (h : s.Slots) :
    Nat.card {i // s.ldtTable i = true} = Nat.card {p // s.inUse p = true} := by
  refine (Nat.card_congr (Equiv.ofBijective
    (fun p : {p // s.inUse p = true} => (⟨s.procLdtindex p, h.slot p p.2⟩ :
      {i // s.ldtTable i = true})) ⟨?_, ?_⟩)).symm
  · intro p p' he
    exact Subtype.ext (h.slot_inj p p' p.2 p'.2 (congrArg Subtype.val he))
  · rintro ⟨i, hi⟩
    obtain ⟨p, hp, hpi⟩ := h.owner i hi
    exact ⟨⟨p, hp⟩, Subtype.ext hpi⟩

theorem Slots.card_live (h : s.Slots) (hl : s.AllLive) :
    Nat.card {i // s.ldtTable i = true} = Nat.card {p // s.Live p} := by
  rw [h.card_eq, Nat.card_congr (Equiv.subtypeEquivRight hl.live_iff)]

/-- There is a free slot as long as fewer than `MAXPROCESSES` are taken. -/
theorem allocLdtIndex_of_card (hcard : Nat.card {i // s.ldtTable i = true} < maxProcesses) :
    s.allocLdtIndex ≠ none := by
  intro hi
  have hall : ∀ i, s.ldtTable i = true := by
    intro i
    simpa using find?_eq_none.mp hi i (mem_finRange i)
  rw [Nat.card_congr (Equiv.subtypeUnivEquiv hall), Nat.card_fin] at hcard
  exact lt_irrefl _ hcard

/-- The three lists, as the code walks them, share out the structures that are allocated; what is
    found by its pid is live; there are as many slots as live processes; and a process is created as
    long as these are fewer than `MAXPROCESSES` and there is memory for it. -/
def Sound (s : ProcTable) : Prop :=
  ∃ q : ProcessList → List Addr,
    (∀ i, DList s.procNext s.procPrev (s.head i) none (q i) ∧ (q i).Nodup) ∧
    (∀ p, (s.allocated p = true → ∃! i, p ∈ q i) ∧ (s.allocated p = false → ∀ i, p ∉ q i)) ∧
    (∀ i pid, ∃ r, s.findPid pid walkFuel (s.head i) = some r ∧ ∀ p, r = some p → p ∈ q i) ∧
    (∀ pid, ∃ r, s.lookup pid = some r ∧ ∀ p, r = some p → s.Live p) ∧
    Nat.card {i // s.ldtTable i = true} = Nat.card {p // s.Live p} ∧
    ∀ parent procno mem, Nat.card {p // s.Live p} < maxProcesses →
      (∀ a, mem = some a → s.allocated a = false) → mem ≠ none ∨ q .unused ≠ [] →
      ∃ p, (s.createProcess parent procno mem true).1 = .ok p

theorem TableOk.sound (h : s.TableOk q) (hl : s.AllLive) : s.Sound := by
  have hcard := h.toSlots.card_live hl
  refine ⟨q, ?_, ?_, ?_, ?_, hcard, fun parent procno mem hlt hmem hroom => ?_⟩
  · obtain ⟨tail, hq⟩ := h.linked
    exact fun i => ⟨hq.list i, hq.nodup i⟩
  · intro p
    refine ⟨?_, ?_⟩
    · intro hp
      obtain ⟨i, hi⟩ := (h.allocated_iff p).mp hp
      exact ⟨i, hi, fun j hj => h.apart hj hi⟩
    · intro hp i hi
      rw [(h.allocated_iff p).mpr ⟨i, hi⟩] at hp
      cases hp
  · intro i pid
    exact ⟨_, h.toShared.findPid pid i, fun p hp => mem_of_find?_eq_some hp⟩
  · intro pid
    obtain ⟨r, hr, hin⟩ := h.toShared.lookup pid
    exact ⟨r, hr, fun p hp => (hl.live_iff p).mpr (hin p hp).1⟩
  · have hb : ¬ s.Blocked mem := by
      rintro (hno | ⟨hhead, rfl⟩)
      · exact allocLdtIndex_of_card (hcard ▸ hlt) hno
      · rw [h.linked.head_eq, head?_eq_none_iff] at hhead
        exact hroom.elim (absurd rfl) fun hne => hne hhead
    obtain ⟨-, p, -, -, hres, -⟩ := h.createProcess hb parent procno hmem true
    exact ⟨p, hres⟩

/-! ## The end of a process -/

theorem orphan_live (parent : Addr) : ∀ (cs : List Addr) (s : ProcTable),
    (∀ c ∈ cs, s.procState c ≠ .terminated) →
    orphan parent cs s = (cs, { s with procParent := (orphan parent cs s).2.procParent })
  | [], _, _ => rfl
  | c :: cs, s, hcs => by
    have ih := orphan_live parent cs
      { s with procParent := update s.procParent c (some parent) }
      fun d hd => hcs d (mem_cons_of_mem c hd)
    rw [orphan, if_neg (hcs c mem_cons_self)]
    rw [ih]

theorem AllLive.finish (h : s.AllLive) (hf : s.finish p = some s') :
    s'.ldtTable = s.ldtTable ∧ ∀ x, s'.Live x → s.inUse x = true ∧ x ≠ p := by
  unfold ProcTable.finish at hf
  cases hparent : s.procParent p with
  | none =>
    rw [hparent] at hf
    cases hf
  | some parent =>
    rw [hparent] at hf
    simp only at hf
    rw [orphan_live parent _ s fun c _ => h.state c] at hf
    simp only at hf
    split at hf
    · cases hf
      refine ⟨rfl, fun x hx => ⟨hx.1, ?_⟩⟩
      rintro rfl
      exact hx.2.2 (update_self _ _ _)
    · obtain ⟨-, hf⟩ := Option.ite_none_right_eq_some.mp hf
      have huse : ∀ {x}, update s.inUse p false x = true → s.inUse x = true ∧ x ≠ p := fun {x} hx => by
        by_cases hxp : x = p
        · rw [hxp, update_self] at hx
          cases hx
        · exact ⟨(update_of_ne hxp _ _).symm.trans hx, hxp⟩
      unfold destroyProcess at hf
      simp only at hf
      split at hf
      · cases hf
        exact ⟨rfl, fun x hx => huse hx.1⟩
      · cases hf
        exact ⟨rfl, fun x hx => huse hx.1⟩

theorem card_lt_card_of_imp {α : Type*} [Finite α] {P Q : α → Prop} {x : α} (himp : ∀ y, P y → Q y)
    (hx : Q x) (hno : ¬ P x) : Nat.card {y // P y} < Nat.card {y // Q y} :=
  Set.ncard_lt_ncard (s := {y | P y}) (t := {y | Q y}) ⟨himp, fun hsub => hno (hsub hx)⟩ (Set.toFinite _)

/-- **Any other step ends it**: there are more slots in use than live processes. -/
theorem TableOk.leaves (h : s.TableOk q) (hl : s.AllLive) {op : Op} (hok : ¬ s.OpOk op)
    (hs : s.step op = some s') : ¬ s'.Sound := by
  suffices Nat.card {p // s'.Live p} < Nat.card {i // s'.ldtTable i = true} by
    rintro ⟨-, -, -, -, -, hcard, -⟩
    exact absurd hcard this.ne'
  have hcard := h.toSlots.card_live hl
  cases op with
  | create parent procno mem threadOk =>
    obtain ⟨hthread, hb⟩ := not_or.mp hok
    obtain rfl : threadOk = false := by simpa using hthread
    obtain ⟨⟨-, hg⟩, hs⟩ := Option.ite_none_right_eq_some.mp hs
    cases hs
    obtain ⟨-, p, slot, -, -, hf⟩ := h.createProcess hb parent procno (by rintro a rfl; simpa using hg) false
    -- the new process has no thread, and the slot is one more
    have hsame : ∀ x, ((s.createProcess parent procno mem false).2.Live x) → s.Live x := by
      rintro x ⟨huse, hthread, -⟩
      rw [hf.hasThread] at hthread
      have hxp : x ≠ p := by
        rintro rfl
        rw [update_self] at hthread
        cases hthread
      rw [hf.inUse, update_of_ne hxp] at huse
      exact (hl.live_iff x).mpr huse
    have hslots : Nat.card {i // s.ldtTable i = true} <
        Nat.card {i // (s.createProcess parent procno mem false).2.ldtTable i = true} := by
      rw [hf.ldtTable]
      refine card_lt_card_of_imp (x := slot) (fun i hi => ?_) (update_self _ _ _) (by simp [hf.free])
      rw [update_apply]
      split
      · rfl
      · exact hi
    refine lt_of_le_of_lt ?_ hslots
    rw [hcard]
    exact Nat.card_le_card_of_injective (Subtype.map id hsame) (Subtype.map_injective hsame injective_id)
  | finish p =>
    obtain ⟨⟨hp, -⟩, hs⟩ := Option.ite_none_right_eq_some.mp hs
    obtain ⟨hldt, hlive⟩ := hl.finish hs
    rw [hldt, hcard]
    exact card_lt_card_of_imp (fun x hx => (hl.live_iff x).mpr (hlive x hx).1) ((hl.live_iff p).mpr hp)
      fun hno => (hlive p hno).2 rfl
  | exit | kill | wait | suspend => exact absurd trivial hok

/-- **In every run in which no process comes to its end, the table is sound**, and only as long. -/
theorem table_sound (h : s.TableOk q) (hl : s.AllLive) (hrun : Reaches step OpOk s s') :
    s'.Sound ∧ ∀ op t, s'.step op = some t → (t.Sound ↔ s'.OpOk op) := by
  obtain ⟨⟨q', h'⟩, hl'⟩ := hrun.invariant (fun s => (∃ q, s.TableOk q) ∧ s.AllLive) ⟨⟨q, h⟩, hl⟩
    fun ⟨⟨_, hinv⟩, hlive⟩ hok hs => hinv.step hlive hok hs
  refine ⟨h'.sound hl', fun op t hs => ⟨fun hsound => ?_, fun hok => ?_⟩⟩
  · by_contra hok
    exact h'.leaves hl' hok hs hsound
  · obtain ⟨⟨q₁, h₁⟩, hl₁⟩ := h'.step hl' hok hs
    exact h₁.sound hl₁

/-! ## The table at the start -/

/-- The table when the kernel has set up the system process `p`, which is not created by
    `create_process`. -/
def boot (p : Addr) : ProcTable where
  procNext := fun _ => none
  procPrev := fun _ => none
  head := fun i => if i = .used then some p else none
  unusedprocCount := 0
  ldtTable := fun i => i = 0
  procId := fun _ => 0
  procLdtindex := fun _ => 0
  procState := fun _ => .ready
  procWaitable := fun _ => false
  procParent := fun _ => none
  procChildlist := fun _ => []
  hasThread := fun x => x = p
  dying := fun _ => false
  allocated := fun x => x = p
  inUse := fun x => x = p

theorem boot_tableOk (p : Addr) : (boot p).TableOk fun i => if i = .used then [p] else [] := by
  refine ⟨⟨⟨fun i => if i = .used then some p else none, ?_, ?_, ?_, ?_⟩, ?_, ?_, ?_⟩, ?_, ?_, ?_⟩
  · intro i
    cases i with
    | used => exact ⟨rfl, rfl, rfl⟩
    | suspended => rfl
    | unused => rfl
  · rintro (_ | _ | _) <;> rfl
  · rintro (_ | _ | _) <;> simp
  · rintro (_ | _ | _) (_ | _ | _) x hi hj <;> simp_all
  · intro x
    simp [boot]
  · intro x
    simp [boot]
  · intro x hx _
    simpa [boot] using hx
  · intro x _
    rfl
  · intro x y hx hy _
    simp only [boot, decide_eq_true_eq] at hx hy
    rw [hx, hy]
  · intro i hi
    have hi : i = 0 := by simpa [boot] using hi
    exact ⟨p, by simp [boot], hi.symm⟩

theorem boot_allLive (p : Addr) : (boot p).AllLive := ⟨fun _ hx => hx, fun _ => by simp [boot]⟩

/-- A run with a failed creation and two processes, one of which exits and is suspended; when it comes to
    its end the table is not sound any more. -/
theorem table_sound_two : ∃ s' t, Reaches step OpOk (boot 1) s' ∧ s'.Sound ∧ s'.head .used = some 2 ∧
    s'.head .suspended = some 3 ∧ s'.step (.finish 3) = some t ∧ ¬ t.Sound := by
  obtain ⟨s', hrun, hused, hsusp, hfin⟩ : ∃ s' ∈ runOps step OpOk (boot 1)
      [.create 1 4 none false, .create 1 5 (some 2) true, .create 2 6 (some 3) true, .exit 3,
        .suspend 3], s'.head .used = some 2 ∧ s'.head .suspended = some 3 ∧
          (s'.step (.finish 3)).isSome := by decide +kernel
  have hreach := reaches_of_runOps hrun
  obtain ⟨hsound, hnext⟩ := table_sound (boot_tableOk 1) (boot_allLive 1) hreach
  obtain ⟨t, ht⟩ := Option.isSome_iff_exists.mp hfin
  exact ⟨s', t, hreach, hsound, hused, hsusp, ht, fun hno => (hnext _ t ht).mp hno⟩

/-- **The process that a `syscall_wait` has destroyed is the first of the used and of the unused
    ones, is found by its pid and keeps its slot.** -/
theorem destroyed_still_used : ∃ s', Reaches step (fun _ _ => True) (boot 1) s' ∧
    s'.inUse 2 = false ∧ s'.head .used = some 2 ∧ s'.head .unused = some 2 ∧
    s'.lookup 5 = some (some 2) ∧ s'.ldtTable 1 = true ∧ ¬ s'.Sound := by
  obtain ⟨s', hrun, huse, hused, hunused, hid, hldt⟩ : ∃ s' ∈ runOps step (fun _ _ => True) (boot 1)
        [.create 1 5 (some 2) true, .exit 2, .finish 2, .wait 1],
      s'.inUse 2 = false ∧ s'.head .used = some 2 ∧ s'.head .unused = some 2 ∧
      s'.procId 2 = 5 ∧ s'.ldtTable 1 = true := by decide +kernel
  have hlookup : s'.lookup 5 = some (some 2) := by
    unfold lookup
    rw [hused, walkFuel, findPid, if_pos hid]
    rfl
  refine ⟨s', reaches_of_runOps hrun, huse, hused, hunused, hlookup, hldt, ?_⟩
  rintro ⟨q, -, -, -, hfound, -⟩
  obtain ⟨r, hr, hin⟩ := hfound 5
  rw [hlookup, Option.some.injEq] at hr
  rw [(hin 2 hr.symm).1] at huse
  cases huse

end AtomOs.ProcTable
