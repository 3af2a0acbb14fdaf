import AtomOs.Time.TimerRun

/-!
# Ticks while timers run out

`timerthread` goes through the timers that have run out with interrupts enabled, and stores the new
head of the list in `timers` only at the end. In between a tick lowers the count of the old head,
which may have left the list and been freed, and the timers that are left never hear of that tick:
`tick_lost`. **`ticks_counted`** is about the runs without such a tick.
-/

namespace AtomOs

open Lib

variable {H : Type} {L : List Addr} {val : Addr → Int}

/-- The statement at which `timerthread` is, with its `t1` and `t2`. -/
inductive PassPc
  | start
  | test (t1 : Option Addr)
  | next (t1 : Addr)
  | carry (t1 : Addr) (t2 : Option Addr)
  | prev (t1 : Addr) (t2 : Option Addr)
  | clear (t1 : Addr) (t2 : Option Addr)
  | unuse (t1 : Addr) (t2 : Option Addr)
  | handle (t1 : Addr) (t2 : Option Addr)
  | finish (t1 : Option Addr)
  | done
  deriving DecidableEq

/-- A pass over the timers. `gone` are those that have left the list, and may have been freed by
    their handlers; `bad` is set by a tick that writes to one of them. `taken` says that the head has
    given its count to the timer behind it and `timers` still points to it. -/
structure Pass (H : Type) where
  list : TimerList H
  pc : PassPc
  gone : List Addr
  ticks : Nat
  bad : Bool
  taken : Bool

variable {p p' q : Pass H}

/-- The next statement of the pass. -/
def passStep (p : Pass H) : Option (Pass H) :=
  match p.pc with
  | .start => some { p with pc := .test p.list.timers }
  | .test none => some { p with pc := .finish none }
  | .test (some t1) => some { p with
      pc := if p.list.timerCount t1 ≤ 0 then .next t1 else .finish (some t1) }
  | .next t1 => some { p with pc := .carry t1 (p.list.timerNext t1) }
  | .carry t1 t2 => some { p with
      list := p.list.addCount (p.list.timerCount t1) t2, pc := .prev t1 t2, taken := true }
  | .prev t1 t2 => some { p with
      list := { p.list with timerPrev := store p.list.timerPrev t2 none }, pc := .clear t1 t2 }
  | .clear t1 t2 => some { p with
      list := { p.list with
        timerNext := store p.list.timerNext (some t1) none
        timerPrev := store p.list.timerPrev (some t1) none }
      gone := t1 :: p.gone
      pc := .unuse t1 t2 }
  | .unuse t1 t2 => some { p with list := p.list.setCount t1 (-1), pc := .handle t1 t2 }
  -- the handler, and `t1 = t2`
  | .handle _ t2 => some { p with pc := .test t2 }
  | .finish t1 => some { p with list := { p.list with timers := t1 }, pc := .done, taken := false }
  | .done => none

inductive PassOp
  | thread
  | tick

def passOp (p : Pass H) : PassOp → Option (Pass H)
  | .thread => passStep p
  | .tick => some { p with
      list := timerTick p.list
      ticks := p.ticks + 1
      bad := p.bad || p.list.timers.any fun t => decide (t ∈ p.gone) }

/-- No tick between the first timer that is taken off the list and the store to `timers`. -/
def QuietTicks (p : Pass H) : PassOp → Prop
  | .thread => True
  | .tick => p.taken = false

instance (p : Pass H) : (op : PassOp) → Decidable (QuietTicks p op)
  | .thread => inferInstanceAs (Decidable True)
  | .tick => inferInstanceAs (Decidable (p.taken = false))

def Pass.init (s : TimerList H) : Pass H := ⟨s, .start, [], 0, false, false⟩

/-! ## The pass comes to its end -/

/-- The thread alone comes from `p` to `q`, and is done. -/
def Ends (p q : Pass H) : Prop :=
  Relation.ReflTransGen (fun p q => passStep p = some q) p q ∧ q.pc = .done

theorem Ends.step (h : Ends p q) (hstep : passStep p = some p') : Ends p' q := by
  obtain ⟨hrun, hdone⟩ := h
  cases hrun.cases_head with
  | inl heq =>
    rw [heq, passStep, hdone] at hstep
    cases hstep
  | inr hhead =>
    obtain ⟨u, hu, hrest⟩ := hhead
    cases hu.symm.trans hstep
    exact ⟨hrest, hdone⟩

theorem Ends.of_step (hstep : passStep p = some p') (h : Ends p' q) : Ends p q :=
  ⟨.head hstep h.1, h.2⟩

theorem ends_expireOne {t1 : Addr} (hpc : p.pc = .test (some t1)) (hdue : p.list.timerCount t1 ≤ 0)
    (h : Ends { p with
      list := expireOne t1 p.list, pc := .test (p.list.timerNext t1), gone := t1 :: p.gone,
      taken := true } q) : Ends p q := by
  obtain ⟨s, pc, gone, ticks, bad, taken⟩ := p
  obtain rfl : pc = .test (some t1) := hpc
  refine .of_step rfl ?_
  rw [if_pos hdue]
  refine .of_step rfl (.of_step rfl (.of_step rfl (.of_step rfl (.of_step rfl (.of_step rfl ?_)))))
  simp only [expireOne] at h ⊢
  generalize s.timerNext t1 = t2 at h ⊢
  cases t2 <;> exact h

theorem ends_expireLoop : ∀ {fuel : Nat} {t1 t : Option Addr} {fired : List (Addr × H)}
    {s : TimerList H} {p : Pass H}, p.pc = .test t1 → expireLoop fuel t1 p.list = some (fired, t, s) →
    Ends p { p with
      list := { s with timers := t }, pc := .done, gone := (fired.map Prod.fst).reverse ++ p.gone,
      taken := false }
  | fuel, none, t, fired, s, ⟨_, _, gone, ticks, bad, taken⟩, rfl, h => by
    unfold expireLoop at h
    cases h
    exact .of_step rfl (.of_step rfl ⟨.refl, rfl⟩)
  | 0, some t1, t, fired, s, p, hpc, h => by cases h
  | fuel + 1, some t1, t, fired, s, p, hpc, h => by
    unfold expireLoop at h
    split at h
    · rename_i hdue
      obtain ⟨⟨fired', t', s'⟩, hr, he⟩ := Option.map_eq_some_iff.mp h
      cases he
      have hrest := ends_expireLoop (p := { p with
        list := expireOne t1 p.list, pc := .test (p.list.timerNext t1), gone := t1 :: p.gone,
        taken := true }) rfl hr
      refine ends_expireOne hpc hdue ?_
      simpa using hrest
    · rename_i hdue
      obtain ⟨s, pc, gone, ticks, bad, taken⟩ := p
      obtain rfl : pc = .test (some t1) := hpc
      cases h
      refine .of_step rfl ?_
      rw [if_neg hdue]
      exact .of_step rfl ⟨.refl, rfl⟩

/-! ## Every tick counts -/

/-- Before the first timer is taken off: where the thread is, from the start of the pass on. -/
structure Early (L : List Addr) (val : Addr → Int) (p : Pass H) : Prop where
  view : TimerView p.list L fun x => val x - 20 * p.ticks
  gone : p.gone = []
  good : p.bad = false
  taken : p.taken = false
  here : match p.pc with
    | .start => True
    | .test t1 | .finish t1 => t1 = p.list.timers
    | .next t1 => p.list.timers = some t1 ∧ val t1 ≤ 20 * p.ticks
    | .carry t1 t2 => p.list.timers = some t1 ∧ val t1 ≤ 20 * p.ticks ∧ t2 = p.list.timerNext t1
    | _ => False

/-- At the end: the first timers have run out, and the others have the time left that they should. -/
structure Ended (L : List Addr) (val : Addr → Int) (p : Pass H) : Prop where
  done : p.pc = .done
  good : p.bad = false
  taken : p.taken = false
  split : ∃ a b, L = a ++ b ∧ (∀ x ∈ a, val x ≤ 20 * p.ticks) ∧ (∀ x ∈ p.gone, x ∈ a) ∧
    TimerView p.list b fun x => val x - 20 * p.ticks

theorem Early.due (h : Early L val p) {t1 : Addr} (ht : p.list.timers = some t1) :
    p.list.timerCount t1 = val t1 - 20 * p.ticks := by
  rw [h.view.deltas.head (h.view.list.head_eq.symm.trans ht), sub_zero]

theorem Early.ends_test (h : Early L val p) :
    ∃ q, Ends { p with pc := .test p.list.timers } q ∧ Ended L val q := by
  obtain ⟨a, b, t, rfl, hloop, ha, -, hlist, hdeltas, -, -⟩ :=
    expireLoop_spec h.view.list h.view.nodup h.view.deltas
      (fun y hy => ⟨h.view.low y hy, h.view.high y hy⟩) (length_le_walkFuel h.view.nodup)
  refine ⟨_, ends_expireLoop rfl hloop, rfl, h.good, rfl, a, b, rfl, ?_, ?_, ?_⟩
  · intro x hx
    have hle := ha x hx
    simp only at hle ⊢
    omega
  · intro x hx
    simpa [h.gone] using hx
  · exact h.view.sublist (List.sublist_append_right a b) hlist hdeltas

theorem Ends.eq_of_done (h : Ends p q) (hdone : p.pc = .done) : p = q := by
  refine h.1.cases_head.resolve_right ?_
  rintro ⟨u, hu, -⟩
  rw [passStep, hdone] at hu
  cases hu

/-- While timers are taken off, the thread alone goes on. -/
structure Taking (L : List Addr) (val : Addr → Int) (p : Pass H) : Prop where
  good : p.bad = false
  taken : p.taken = true
  ends : ∃ q, Ends p q ∧ Ended L val q

theorem Taking.step (h : Taking L val p) (hstep : passStep p = some p') :
    Taking L val p' ∨ Ended L val p' := by
  obtain ⟨q, hends, hq⟩ := h.ends
  have hends' := hends.step hstep
  have hkept : p'.bad = p.bad ∧ (p'.taken = true ∨ p'.pc = .done) := by
    have htaken := h.taken
    unfold passStep at hstep
    split at hstep
    all_goals cases hstep
    all_goals simp [htaken]
  rcases hkept with ⟨hbad, htaken | hdone⟩
  · exact .inl ⟨hbad.trans h.good, htaken, q, hends', hq⟩
  · obtain rfl := hends'.eq_of_done hdone
    exact .inr hq

/-- From anywhere before the first timer: the thread has come there from the head of the list. -/
theorem Early.ends (h : Early L val p) : ∃ q, Ends p q ∧ Ended L val q := by
  obtain ⟨q, hends, hq⟩ := h.ends_test
  have hhere := h.here
  have hdue := @h.due
  obtain ⟨hview, hgone, hgood, htaken, -⟩ := h
  obtain ⟨s, pc, gone, ticks, bad, taken⟩ := p
  have hnext : ∀ {t1}, s.timers = some t1 → val t1 ≤ 20 * ticks →
      Ends ⟨s, .next t1, gone, ticks, bad, taken⟩ q := by
    intro t1 ht hle
    have hcount := hdue ht
    simp only [ht] at hcount hends
    refine hends.step ?_
    simp only [passStep]
    rw [if_pos (by omega)]
  cases pc with
  | start => exact ⟨q, .of_step rfl hends, hq⟩
  | test t1 =>
    obtain rfl : t1 = s.timers := hhere
    exact ⟨q, hends, hq⟩
  | next t1 => exact ⟨q, hnext hhere.1 hhere.2, hq⟩
  | carry t1 t2 =>
    obtain rfl : t2 = s.timerNext t1 := hhere.2.2
    exact ⟨q, (hnext hhere.1 hhere.2.1).step rfl, hq⟩
  | finish t1 =>
    obtain rfl : t1 = s.timers := hhere
    obtain rfl : gone = [] := hgone
    exact ⟨_, .of_step rfl ⟨.refl, rfl⟩, rfl, hgood, rfl, [], L, rfl, by simp, by simp, hview⟩
  | prev | clear | unuse | handle | done => exact absurd hhere id

theorem Early.step (h : Early L val p) (hstep : passStep p = some p') :
    Early L val p' ∨ Taking L val p' ∨ Ended L val p' := by
  obtain ⟨q, hends, hq⟩ := h.ends
  have hhere := h.here
  have hdue := @h.due
  obtain ⟨hview, hgone, hgood, htaken, -⟩ := h
  obtain ⟨s, pc, gone, ticks, bad, taken⟩ := p
  cases pc with
  | start =>
    cases hstep
    exact .inl ⟨hview, hgone, hgood, htaken, rfl⟩
  | test t1 =>
    obtain rfl : t1 = s.timers := hhere
    cases ht : s.timers with
    | none =>
      simp only [passStep, ht] at hstep
      cases hstep
      exact .inl ⟨hview, hgone, hgood, htaken, ht.symm⟩
    | some t1 =>
      simp only [passStep, ht] at hstep
      cases hstep
      have hcount := hdue ht
      simp only at hcount
      refine .inl ⟨hview, hgone, hgood, htaken, ?_⟩
      by_cases hle : s.timerCount t1 ≤ 0
      · simp only [if_pos hle]
        exact ⟨ht, by omega⟩
      · simp only [if_neg hle]
        exact ht.symm
  | next t1 =>
    cases hstep
    exact .inl ⟨hview, hgone, hgood, htaken, hhere.1, hhere.2, rfl⟩
  | carry t1 t2 =>
    have hends' := hends.step hstep
    cases hstep
    exact .inr (.inl ⟨hgood, rfl, q, hends', hq⟩)
  | finish t1 =>
    have hends' := hends.step hstep
    cases hstep
    obtain rfl := hends'.eq_of_done rfl
    exact .inr (.inr hq)
  | prev | clear | unuse | handle | done => exact absurd hhere id

theorem TimerView.tick_from {s : TimerList H} {b : List Addr} {n : Nat}
    (h : TimerView s b fun x => val x - 20 * n)
    (hfit : ∀ x ∈ b, -2147483648 ≤ val x - 20 * (n + 1 : Nat)) :
    TimerView (timerTick s) b fun x => val x - 20 * (n + 1 : Nat) := by
  refine (h.tick fun x hx => ?_).1.congr fun x _ => by push_cast; ring
  have hhead := h.list.head_eq.symm.trans hx
  have hlow := hfit x (List.mem_of_head? hhead)
  rw [h.deltas.head hhead]
  push_cast at hlow
  linarith

theorem timerTick_links (s : TimerList H) :
    (timerTick s).timers = s.timers ∧ (timerTick s).timerNext = s.timerNext := by
  unfold timerTick
  split
  · exact ⟨rfl, rfl⟩
  · simp only
    split <;> exact ⟨rfl, rfl⟩

/-- The invariant of a pass, as long as the counts fit. -/
def PassOk (L : List Addr) (val : Addr → Int) (p : Pass H) : Prop :=
  Early L val p ∨ Taking L val p ∨ Ended L val p

theorem PassOk.tick (h : PassOk L val p) (hnd : L.Nodup) (hquiet : p.taken = false)
    (hfit : ∀ x ∈ L, -2147483648 ≤ val x - 20 * (p.ticks + 1 : Nat)) (hstep : passOp p .tick = some p') :
    PassOk L val p' := by
  cases hstep
  obtain ⟨htimers, hnext⟩ := timerTick_links p.list
  rcases h with h | h | ⟨hdone, hgood, -, a, b, rfl, ha, hgone, hview⟩
  · refine .inl ⟨h.view.tick_from hfit, h.gone, ?_, h.taken, ?_⟩
    · simp [h.good, h.gone]
    · have hhere := h.here
      simp only [htimers, hnext]
      cases hpc : p.pc <;> rw [hpc] at hhere <;> simp only at hhere ⊢
      case test | finish => exact hhere
      case next t1 => exact ⟨hhere.1, by push_cast; omega⟩
      case carry t1 t2 => exact ⟨hhere.1, by push_cast; omega, hhere.2.2⟩
  · exact nomatch hquiet.symm.trans h.taken
  · refine .inr (.inr ⟨hdone, ?_, hquiet, a, b, rfl, ?_, hgone, ?_⟩)
    · -- the head of what is left is not among those that are gone
      simp only [hgood, Bool.false_or, Option.any_eq_false]
      intro x hx
      refine decide_eq_false fun hmem => ?_
      refine (List.nodup_append.mp hnd).2.2 x (hgone x hmem) x (List.mem_of_head? ?_) rfl
      rw [← hview.list.head_eq, hx]
    · intro x hx
      have hle := ha x hx
      push_cast
      omega
    · exact hview.tick_from fun x hx => hfit x (List.mem_append_right a hx)

theorem passStep_ticks (hstep : passStep p = some p') : p'.ticks = p.ticks := by
  unfold passStep at hstep
  split at hstep
  all_goals cases hstep
  all_goals rfl

theorem PassOk.thread (h : PassOk L val p) (hstep : passStep p = some p') : PassOk L val p' := by
  rcases h with h | h | h
  · exact h.step hstep
  · exact .inr (h.step hstep)
  · rw [passStep, h.done] at hstep
    cases hstep

/-- **Ticks during a pass.** If no tick comes between the first timer that is taken off the list and
    the store to `timers`, then no tick writes to a timer that has left the list, the pass comes to
    its end from wherever it is, and then the timers that are left have 20 less for every tick, and
    only timers whose time was over are gone. -/
theorem ticks_counted {s : TimerList H} (hview : TimerView s L val) {p : Pass H}
    (h : Reaches passOp QuietTicks (Pass.init s) p)
    (hfit : ∀ x ∈ L, -2147483648 ≤ val x - 20 * p.ticks) :
    p.bad = false ∧ (∃ q, Ends p q) ∧
    (p.pc = .done → ∃ a b, L = a ++ b ∧ (∀ x ∈ a, val x ≤ 20 * p.ticks) ∧
      ∀ x ∈ b, remaining p.list x = some (val x - 20 * p.ticks)) := by
  have hinv : PassOk L val p := by
    refine h.invariant (fun p => (∀ x ∈ L, -2147483648 ≤ val x - 20 * p.ticks) → PassOk L val p)
      (fun _ => .inl ?_) ?_ hfit
    · exact ⟨hview.congr fun x _ => by simp [Pass.init], rfl, rfl, rfl, trivial⟩
    · intro p p' op hp hok hstep hfit
      cases op with
      | thread => exact (hp (by rwa [← passStep_ticks hstep])).thread hstep
      | tick =>
        cases hstep
        refine (hp fun x hx => ?_).tick hview.nodup hok hfit rfl
        have hx := hfit x hx
        push_cast at hx
        omega
  refine ⟨?_, ?_, fun hdone => ?_⟩
  · rcases hinv with h | h | h <;> exact h.good
  · rcases hinv with h | h | h
    · exact h.ends.imp fun q hq => hq.1
    · exact h.ends.imp fun q hq => hq.1
    · exact ⟨p, .refl, h.done⟩
  · rcases hinv with h | h | ⟨-, -, -, a, b, hL, ha, -, hb⟩
    · have hhere := h.here
      rw [hdone] at hhere
      exact absurd hhere id
    · obtain ⟨q, hends, hq⟩ := h.ends
      obtain rfl := hends.eq_of_done hdone
      exact nomatch h.taken.symm.trans hq.taken
    · refine ⟨a, b, hL, ha, fun x hx => ?_⟩
      rw [hb.remaining_eq, if_pos hx]

/-- A timer that has run out is in front of one that has not. -/
def dueTimers : TimerList Nat :=
  ⟨some 1, fun x => if x = 1 then 0 else 100, fun x => if x = 1 then some 2 else none,
    fun x => if x = 2 then some 1 else none, fun _ => 0, true⟩

/-- A tick while the pass looks at the head, and one when it is over. -/
theorem ticks_counted_two : ∃ p, Reaches passOp QuietTicks (Pass.init dueTimers) p ∧
    p.pc = .done ∧ p.ticks = 2 ∧ p.bad = false := by
  have hview : TimerView dueTimers [1, 2] fun x => if x = 1 then 0 else 100 := by
    refine ⟨?_, by decide, ?_, by decide, by simp, by simp, by simp⟩
    · exact ⟨rfl, rfl, rfl, rfl, rfl⟩
    · exact ⟨rfl, rfl, trivial⟩
  obtain ⟨p, hp, hdone, hticks⟩ : ∃ p ∈ runOps passOp QuietTicks (Pass.init dueTimers)
      [.thread, .tick, .thread, .thread, .thread, .thread, .thread, .thread, .thread, .thread,
        .thread, .tick], p.pc = .done ∧ p.ticks = 2 := by decide +kernel
  have hreach := reaches_of_runOps hp
  exact ⟨p, hreach, hdone, hticks, (ticks_counted hview hreach (by rw [hticks]; simp)).1⟩

/-- **A tick is lost**, and written to a timer that is gone, if it comes when the handler of the head
    has run. -/
theorem tick_lost : ∃ p, Reaches passOp (fun _ _ => True) (Pass.init dueTimers) p ∧ p.pc = .done ∧
    p.ticks = 1 ∧ p.bad = true ∧ remaining p.list 2 = some 100 := by
  obtain ⟨p, hp, hend⟩ : ∃ p ∈ runOps passOp (fun _ _ => True) (Pass.init dueTimers)
      [.thread, .thread, .thread, .thread, .thread, .thread, .thread, .thread, .tick, .thread,
        .thread], p.pc = .done ∧ p.ticks = 1 ∧ p.bad = true ∧ remaining p.list 2 = some 100 := by
    decide +kernel
  exact ⟨p, reaches_of_runOps hp, hend⟩

end AtomOs
