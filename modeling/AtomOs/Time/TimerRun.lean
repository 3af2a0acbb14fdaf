import AtomOs.Time.Timers
import Mathlib.Data.List.Pairwise

/-!
# Timers run out when they should

`TimerView` says what the pointers and counts of the timer list stand for: a list of timers with the
time that each has left, in order of that time. The counts are the differences, so each operation is
a splice and one store at the successor, and the 32-bit arithmetic is exact as long as the times
left and their differences fit.

**`timer_list_exact`** is about whole runs, with a `Ledger` of what was started, stopped and fired
kept beside the list. Two things break the list. A timer that is started while it is queued has its
links cleared before `starttimer` looks for it, which cuts off everything behind it
(`restarted_timer_cuts_list`). And a time that does not fit into 31 bits wraps.
-/

namespace AtomOs

open Lib List

variable {H : Type} {s t : TimerList H} {x y : Addr} {L : List Addr} {val : Addr → Int}

/-! ## What the pointers stand for -/

/-- The queued timers are `L`, and `val` is the time that each has left. -/
structure TimerView (s : TimerList H) (L : List Addr) (val : Addr → Int) : Prop where
  list : DList s.timerNext s.timerPrev s.timers none L
  nodup : L.Nodup
  deltas : Deltas s.timerCount val 0 L
  mono : L.Pairwise fun x y => val x ≤ val y
  low : ∀ x ∈ L, -2147483648 ≤ val x
  high : ∀ x ∈ L, val x < 2147483648
  spread : ∀ x ∈ L, ∀ y ∈ L, val x - val y < 2147483648

theorem TimerView.congr {val' : Addr → Int} (h : TimerView s L val) (heq : ∀ x ∈ L, val' x = val x) :
    TimerView s L val' := by
  refine ⟨h.list, h.nodup, h.deltas.congr (fun _ _ => rfl) heq, ?_, ?_, ?_, ?_⟩
  · exact h.mono.imp_of_mem fun {x y} hx hy hle => by rwa [heq x hx, heq y hy]
  · exact fun x hx => by rw [heq x hx]; exact h.low x hx
  · exact fun x hx => by rw [heq x hx]; exact h.high x hx
  · exact fun x hx y hy => by rw [heq x hx, heq y hy]; exact h.spread x hx y hy

theorem queuedFrom_eq (tobj : Addr) : ∀ {L : List Addr} {fuel : Nat} {t1 before : Option Addr},
    DList s.timerNext s.timerPrev t1 before L → L.length ≤ fuel →
      queuedFrom s tobj fuel t1 = some (decide (tobj ∈ L))
  | [], fuel, t1, before, h, _ => by
    obtain rfl : t1 = none := h
    unfold queuedFrom
    simp
  | x :: L, fuel, t1, before, h, hfuel => by
    obtain ⟨rfl, -, hrest⟩ := h
    cases fuel with
    | zero => exact absurd hfuel (by simp)
    | succ fuel =>
      unfold queuedFrom
      by_cases hx : x = tobj
      · simp [hx]
      · have hne : tobj ≠ x := fun he => hx he.symm
        rw [if_neg hx, queuedFrom_eq tobj hrest (Nat.le_of_succ_le_succ hfuel)]
        simp [hne]

theorem TimerView.queued_eq (h : TimerView s L val) (tobj : Addr) :
    queued s tobj = some (decide (tobj ∈ L)) :=
  queuedFrom_eq tobj h.list (length_le_walkFuel h.nodup)

theorem remainingFrom_eq (tobj : Addr) : ∀ {L : List Addr} {fuel : Nat} {t1 before : Option Addr}
    {base : Int}, DList s.timerNext s.timerPrev t1 before L → Deltas s.timerCount val base L →
      L.length ≤ fuel →
        remainingFrom s tobj fuel base t1 = if tobj ∈ L then some (val tobj) else none
  | [], fuel, t1, before, base, h, _, _ => by
    obtain rfl : t1 = none := h
    unfold remainingFrom
    simp
  | x :: L, fuel, t1, before, base, h, hd, hfuel => by
    obtain ⟨rfl, -, hrest⟩ := h
    obtain ⟨hcount, hd⟩ := hd
    cases fuel with
    | zero => exact absurd hfuel (by simp)
    | succ fuel =>
      have hsum : base + s.timerCount x = val x := by rw [hcount]; ring
      unfold remainingFrom
      by_cases hx : x = tobj
      · rw [if_pos hx, hsum, hx, if_pos mem_cons_self]
      · have hne : tobj ≠ x := fun he => hx he.symm
        rw [if_neg hx, hsum, remainingFrom_eq tobj hrest hd (Nat.le_of_succ_le_succ hfuel)]
        simp [hne]

theorem TimerView.remaining_eq (h : TimerView s L val) (tobj : Addr) :
    remaining s tobj = if tobj ∈ L then some (val tobj) else none :=
  remainingFrom_eq tobj h.list h.deltas (length_le_walkFuel h.nodup)

/-! ## Counts -/

theorem setCount_same (s : TimerList H) (x : Addr) (c : Int) :
    (s.setCount x c).timerCount x = i32 c := if_pos rfl

theorem setCount_of_ne (s : TimerList H) {x y : Addr} (c : Int) (h : y ≠ x) :
    (s.setCount x c).timerCount y = s.timerCount y := if_neg h

theorem setCount_setCount (s : TimerList H) (x : Addr) (c d : Int) :
    (s.setCount x c).setCount x d = s.setCount x d := by
  unfold TimerList.setCount
  congr 1
  funext y
  by_cases hy : y = x
  · rw [if_pos hy, if_pos hy]
  · rw [if_neg hy, if_neg hy]
    exact if_neg hy

theorem setCount_self {c : Int} (h : s.timerCount x = c) (hlow : -2147483648 ≤ c)
    (hhigh : c < 2147483648) : s.setCount x c = s := by
  have hcount : (fun y => if y = x then i32 c else s.timerCount y) = s.timerCount := by
    funext y
    split
    · rename_i hy
      rw [hy, h, i32_of_range hlow hhigh]
    · rfl
  unfold TimerList.setCount
  rw [hcount]

section addCount

variable (s : TimerList H) (c : Int) (p : Option Addr)

theorem addCount_timers : (s.addCount c p).timers = s.timers := by cases p <;> rfl

theorem addCount_handler : (s.addCount c p).timerHandler = s.timerHandler := by cases p <;> rfl

theorem addCount_flag : (s.addCount c p).timeoutflag = s.timeoutflag := by cases p <;> rfl

theorem addCount_same (x : Addr) :
    (s.addCount c (some x)).timerCount x = i32 (s.timerCount x + c) := setCount_same s x _

variable {p} in
theorem addCount_of_ne (h : p ≠ some y) : (s.addCount c p).timerCount y = s.timerCount y := by
  cases p with
  | none => rfl
  | some z => exact setCount_of_ne s _ fun he => h (congrArg some he.symm)

end addCount

/-! ## Starting -/

/-- The loop of `insert_timerobj` stops behind the last timer that runs out no later. On the way the
    count of the new timer becomes the difference to the timer passed. -/
theorem insertWalk_spec {m : Int} : ∀ {L : List Addr} {fuel : Nat} {t1 t2 : Option Addr}
    {s : TimerList H} {base : Int}, DList s.timerNext s.timerPrev t1 t2 L →
    Deltas s.timerCount val base L → x ∉ L → s.timerCount x = m - base → base ≤ m →
    m - base < 2147483648 → L.length ≤ fuel →
    (∀ y ∈ L, m - val y < 2147483648) →
    ∃ a b, L = a ++ b ∧
      insertWalk x fuel t1 t2 s =
        some (b.head?, a.getLast?.or t2, s.setCount x (m - lastVal val base a)) ∧
      (∀ y ∈ a, val y ≤ m) ∧ (∀ y, b.head? = some y → m < val y) ∧
      0 ≤ m - lastVal val base a ∧ m - lastVal val base a < 2147483648
  | [], fuel, t1, t2, s, base, h, _, _, hx, hbase, hm, _, _ => by
    obtain rfl : t1 = none := h
    refine ⟨[], [], rfl, ?_, by simp, by simp, ?_, hm⟩
    · unfold insertWalk
      rw [lastVal_nil, setCount_self hx (by omega) hm]
      rfl
    · rw [lastVal_nil]
      omega
  | y :: L, fuel, t1, t2, s, base, h, hd, hxL, hx, hbase, hm, hfuel, hspread => by
    obtain ⟨rfl, -, hrest⟩ := h
    obtain ⟨hy, hd⟩ := hd
    obtain ⟨hxy, hxL⟩ := not_or.mp (mt mem_cons.mpr hxL)
    cases fuel with
    | zero => exact absurd hfuel (by simp)
    | succ fuel =>
      unfold insertWalk
      by_cases hle : val y ≤ m
      · rw [if_pos (by omega)]
        have hcount : s.timerCount x - s.timerCount y = m - val y := by omega
        have hym := hspread y mem_cons_self
        rw [hcount]
        obtain ⟨a, b, rfl, hwalk, ha, hb, hlow, hhigh⟩ :=
          insertWalk_spec (s := s.setCount x (m - val y)) hrest
            (hd.congr (fun z hz => setCount_of_ne s _ fun he => hxL (he ▸ hz)) fun _ _ => rfl) hxL
            (by rw [setCount_same, i32_of_range (by omega) hym]) hle hym
            (Nat.le_of_succ_le_succ hfuel) (forall_mem_cons.mp hspread).2
        refine ⟨y :: a, b, rfl, ?_, ?_, hb, ?_, ?_⟩
        · rw [lastVal_cons, getLast?_cons_or]
          rw [setCount_setCount] at hwalk
          exact hwalk
        · exact forall_mem_cons.mpr ⟨hle, ha⟩
        · rw [lastVal_cons]
          exact hlow
        · rw [lastVal_cons]
          exact hhigh
      · rw [if_neg (by omega)]
        refine ⟨[], y :: L, rfl, ?_, by simp, ?_, ?_, hm⟩
        · rw [lastVal_nil, setCount_self hx (by omega) hm]
          rfl
        · intro z hz
          cases hz
          omega
        · rw [lastVal_nil]
          omega

/-- The new timer goes between those that run out no later and those that run out later. -/
theorem TimerView.splice {a b : List Addr} (h : TimerView s (a ++ b) val) (hx : x ∉ a ++ b)
    (hnonneg : 0 ≤ val x) (hhigh : val x < 2147483648) (ha : ∀ y ∈ a, val y ≤ val x)
    (hb : ∀ y ∈ b, val x ≤ val y) (hspread : ∀ y ∈ a ++ b, val x - val y < 2147483648)
    (hnext : t.timerNext = store (store s.timerNext (some x) b.head?) a.getLast? (some x))
    (hprev : t.timerPrev = store (store s.timerPrev (some x) a.getLast?) b.head? (some x))
    (htimers : t.timers = if a = [] then some x else s.timers)
    (hcount : t.timerCount x = val x - lastVal val 0 a)
    (hhead : ∀ y, b.head? = some y → t.timerCount y = val y - val x)
    (hsame : ∀ z ∈ a ++ b, b.head? ≠ some z → t.timerCount z = s.timerCount z) :
    TimerView t (a ++ x :: b) val := by
  have hperm : (a ++ x :: b).Perm (x :: (a ++ b)) := perm_middle
  have hmem : ∀ y, y ∈ a ++ x :: b ↔ y = x ∨ y ∈ a ++ b := fun y =>
    hperm.mem_iff.trans mem_cons
  obtain ⟨hda, hdb⟩ := deltas_append.mp h.deltas
  obtain ⟨hnda, hndb, hab⟩ := nodup_append.mp h.nodup
  refine ⟨?_, ?_, ?_, ?_, ?_, ?_, ?_⟩
  · have hins := h.list.insert hx h.nodup (by simp)
    rw [Option.or_none] at hins
    rw [hnext, hprev, htimers]
    exact hins
  · exact hperm.nodup_iff.mpr (nodup_cons.mpr ⟨hx, h.nodup⟩)
  · refine deltas_append.mpr ⟨hda.congr (fun z hz => ?_) fun _ _ => rfl, hcount, ?_⟩
    · refine hsame z (mem_append_left _ hz) fun he => ?_
      exact hab z hz z (mem_of_head? he) rfl
    · refine hdb.rebase hndb (fun y hy => ?_) fun z hz hne => hsame z (mem_append_right _ hz) hne
      rw [hhead y hy, hdb.head hy]
      ring
  · obtain ⟨hma, hmb, hmab⟩ := pairwise_append.mp h.mono
    refine pairwise_append.mpr ⟨hma, pairwise_cons.mpr ⟨hb, hmb⟩, fun y hy z hz => ?_⟩
    rcases mem_cons.mp hz with rfl | hz
    · exact ha y hy
    · exact hmab y hy z hz
  · intro y hy
    rcases (hmem y).mp hy with rfl | hy
    · omega
    · exact h.low y hy
  · intro y hy
    rcases (hmem y).mp hy with rfl | hy
    · exact hhigh
    · exact h.high y hy
  · intro y hy z hz
    rcases (hmem y).mp hy with rfl | hy
    · rcases (hmem z).mp hz with rfl | hz
      · omega
      · exact hspread z hz
    · rcases (hmem z).mp hz with rfl | hz
      · have hyhigh := h.high y ‹y ∈ a ++ b›
        omega
      · exact h.spread y ‹y ∈ a ++ b› z ‹z ∈ a ++ b›

theorem TimerView.head_le (h : TimerView s (y :: L) val) : ∀ z ∈ y :: L, val y ≤ val z := by
  intro z hz
  rcases mem_cons.mp hz with rfl | hz
  · exact le_refl _
  · exact rel_of_pairwise_cons h.mono hz

/-- **`insert_timerobj`** of a timer whose links are cleared. -/
theorem TimerView.insert (h : TimerView s L val) (hx : x ∉ L) (hcount : s.timerCount x = val x)
    (hnonneg : 0 ≤ val x) (hhigh : val x < 2147483648)
    (hspread : ∀ y ∈ L, val x - val y < 2147483648) (hnext : s.timerNext x = none)
    (hprev : s.timerPrev x = none) :
    ∃ a b t, L = a ++ b ∧ insertTimerobj x s = some t ∧ TimerView t (a ++ x :: b) val ∧
      (∀ y ∈ a, val y ≤ val x) ∧ (∀ y ∈ b, val x < val y) ∧
      t.timerHandler = s.timerHandler ∧ t.timeoutflag = s.timeoutflag := by
  unfold insertTimerobj
  cases L with
  | nil =>
    obtain hnone : s.timers = none := h.list
    rw [hnone]
    refine ⟨[], [], _, rfl, rfl, ?_, by simp, by simp, rfl, rfl⟩
    exact h.splice (a := []) (b := []) hx hnonneg hhigh (by simp) (by simp) hspread
      (store_self hnext).symm (store_self hprev).symm rfl (by rw [lastVal_nil, sub_zero]; exact hcount)
      (by simp) (by simp)
  | cons y L =>
    obtain ⟨hhead, hpy, hrest⟩ := h.list
    obtain ⟨hy, hd⟩ := h.deltas
    have hne : ∀ z ∈ y :: L, z ≠ x := fun z hz he => hx (he ▸ hz)
    rw [hhead]
    by_cases hlt : s.timerCount y > s.timerCount x
    · -- The new timer is the first.
      have hxy : val x < val y := by omega
      have hyhigh := h.high y mem_cons_self
      simp only [if_pos hlt]
      refine ⟨[], y :: L, _, rfl, rfl, ?_, by simp, ?_, rfl, rfl⟩
      · refine h.splice (a := []) (b := y :: L) hx hnonneg hhigh (by simp)
          (fun z hz => (le_of_lt hxy).trans (h.head_le z hz)) hspread ?_ ?_ rfl ?_ ?_ ?_
        · rfl
        · show store s.timerPrev (some y) (some x) = _
          rw [getLast?_nil, store_self hprev]
          rfl
        · rw [lastVal_nil, sub_zero, ← hcount]
          exact setCount_of_ne s _ (hne y mem_cons_self).symm
        · intro z hz
          cases hz
          refine (setCount_same s _ _).trans ?_
          rw [i32_of_range (by omega) (by omega)]
          omega
        · intro z _ hz
          exact setCount_of_ne s _ fun he => hz (congrArg some he.symm)
      · exact fun z hz => lt_of_lt_of_le hxy (h.head_le z hz)
    · -- Behind the timers that run out no later.
      obtain ⟨a, b, hab, hwalk, ha, hb, hlow, hhigh'⟩ :=
        insertWalk_spec (m := val x) h.list h.deltas hx (by rw [hcount, sub_zero]) hnonneg
          (by omega) (length_le_walkFuel h.nodup) hspread
      have ha0 : a ≠ [] := by
        rintro rfl
        have hyb := hb y (by rw [← nil_append b, ← hab]; rfl)
        omega
      have hball := lt_of_lt_head (pairwise_append.mp (hab ▸ h.mono)).2.1 hb
      rw [hhead] at hwalk
      simp only [if_neg hlt, hwalk, Option.or_none]
      refine ⟨a, b, _, hab, rfl, ?_, ha, hball, ?_, ?_⟩
      · rw [hab] at h hx hspread hne
        refine h.splice hx hnonneg hhigh ha (fun z hz => (hball z hz).le) hspread rfl rfl ?_ ?_ ?_ ?_
        · rw [if_neg ha0]
          exact addCount_timers _ _ _
        · refine (addCount_of_ne _ _ fun he => ?_).trans ?_
          · exact hx (mem_append_right _ (mem_of_head? he))
          · rw [setCount_same, i32_of_range (by omega) hhigh']
        · intro z hz
          have hzb := mem_of_head? hz
          have hzx := hne z (mem_append_right _ hzb)
          have hzhigh := h.high z (mem_append_right _ hzb)
          have hzlt := hball z hzb
          obtain ⟨-, hdb⟩ := deltas_append.mp h.deltas
          have hdiff : (s.setCount x (val x - lastVal val 0 a)).timerCount z +
              -(s.setCount x (val x - lastVal val 0 a)).timerCount x = val z - val x := by
            rw [setCount_of_ne s _ hzx, setCount_same, i32_of_range (by omega) hhigh', hdb.head hz]
            ring
          rw [hz]
          refine (addCount_same _ _ _).trans ?_
          rw [hdiff, i32_of_range (by omega) (by omega)]
        · intro z hz hzhead
          exact (addCount_of_ne _ _ hzhead).trans (setCount_of_ne s _ (hne z hz))
      · exact addCount_handler _ _ _
      · exact addCount_flag _ _ _

/-! ## Stopping, ticking, running out -/

theorem TimerView.sublist {L' : List Addr} (h : TimerView s L val) (hsub : L'.Sublist L)
    (hlist : DList t.timerNext t.timerPrev t.timers none L')
    (hdeltas : Deltas t.timerCount val 0 L') : TimerView t L' val :=
  ⟨hlist, h.nodup.sublist hsub, hdeltas, h.mono.sublist hsub,
    fun x hx => h.low x (hsub.subset hx), fun x hx => h.high x (hsub.subset hx),
    fun x hx y hy => h.spread x (hsub.subset hx) y (hsub.subset hy)⟩

theorem TimerView.diff_range {a b : List Addr} (h : TimerView s (a ++ b) val) (hy : y ∈ b) :
    -2147483648 ≤ val y - lastVal val 0 a ∧ val y - lastVal val 0 a < 2147483648 := by
  have hyL := mem_append_right a hy
  unfold lastVal
  cases hlast : a.getLast? with
  | none =>
    have hlow := h.low y hyL
    have hhigh := h.high y hyL
    simp only [Option.map_none, Option.getD_none, sub_zero]
    exact ⟨hlow, hhigh⟩
  | some z =>
    have hz := mem_of_getLast? hlast
    have hle := (pairwise_append.mp h.mono).2.2 z hz y hy
    have hspread := h.spread y hyL z (mem_append_left b hz)
    simp only [Option.map_some, Option.getD_some]
    omega

/-- **`remove_timerobj`** changes no other timer's time. -/
theorem TimerView.remove {a b : List Addr} (h : TimerView s (a ++ x :: b) val) :
    TimerView (removeTimerobj x s) (a ++ b) val := by
  have hxL : x ∈ a ++ x :: b := by simp
  obtain ⟨hx, hnd⟩ := nodup_cons.mp (nodup_middle.mp h.nodup)
  have hxa : x ∉ a := fun hxa => hx (mem_append_left _ hxa)
  have hne : ∀ z ∈ a ++ b, some z ≠ some x := fun z hz he => hx (Option.some.inj he ▸ hz)
  have hnext := h.list.next_eq
  refine h.sublist ((sublist_cons_self x b).append_left a) ?_ ?_
  · have hrem := h.list.remove h.nodup (by simp) hxL
    rw [erase_append_right _ hxa, erase_cons_head] at hrem
    have hhead : (if s.timerPrev x = none then s.timerNext x else s.timers) =
        if s.timers = some x then s.timerNext x else s.timers := by
      simp only [h.list.prev_none hxL]
    show DList _ _ (if s.timerPrev x = none then s.timerNext x else s.timers) _ _
    rw [hhead]
    exact hrem.congr (fun z hz => store_of_ne (hne z hz)) fun z hz => store_of_ne (hne z hz)
  · obtain ⟨hda, hxd, hdb⟩ := deltas_append.mp h.deltas
    obtain ⟨-, hndb, hab⟩ := nodup_append.mp hnd
    show Deltas (s.addCount (s.timerCount x) (s.timerNext x)).timerCount val 0 (a ++ b)
    rw [hnext]
    refine deltas_append.mpr ⟨hda.congr (fun z hz => ?_) fun _ _ => rfl, ?_⟩
    · exact addCount_of_ne s _ fun he => hab z hz z (mem_of_head? he) rfl
    · refine hdb.rebase hndb (fun y hy => ?_) fun z _ hz => addCount_of_ne s _ hz
      have hyb := mem_of_head? hy
      have hyd := hdb.head hy
      obtain ⟨hlow, hhigh⟩ := h.diff_range (mem_cons_of_mem x hyb)
      rw [hy, addCount_same, i32_of_range (by omega) (by omega), hxd]
      ring

theorem TimerView.tick (h : TimerView s L val)
    (hfit : ∀ x, s.timers = some x → -2147483648 ≤ s.timerCount x - 20) :
    TimerView (timerTick s) L (fun x => val x - 20) ∧
      (timerTick s).timerHandler = s.timerHandler ∧
      ((∃ x ∈ L, val x - 20 ≤ 0) → (timerTick s).timeoutflag = true) := by
  unfold timerTick
  cases L with
  | nil =>
    obtain hnone : s.timers = none := h.list
    rw [hnone]
    exact ⟨⟨h.list, nodup_nil, trivial, List.Pairwise.nil, by simp, by simp, by simp⟩, rfl, by simp⟩
  | cons y L =>
    obtain ⟨hhead, -, -⟩ := h.list
    have hy : s.timerCount y = val y := by rw [h.deltas.1, sub_zero]
    have hylow := hfit y hhead
    have hyhigh := h.high y mem_cons_self
    have hcount : (s.setCount y (s.timerCount y - 20)).timerCount y = val y - 20 := by
      rw [setCount_same, i32_of_range hylow (by omega), hy]
    have hview : TimerView (s.setCount y (s.timerCount y - 20)) (y :: L) (fun x => val x - 20) := by
      refine ⟨h.list, h.nodup, ?_, ?_, ?_, ?_, ?_⟩
      · refine (h.deltas.shift (-20) fun z _ => rfl).rebase h.nodup ?_ ?_
        · intro z hz
          cases hz
          rw [hcount, hy]
          ring
        · intro z _ hz
          exact setCount_of_ne s _ fun he => hz (congrArg some he.symm)
      · exact h.mono.imp fun hle => by linarith
      · intro z hz
        have hyz := h.head_le z hz
        linarith
      · intro z hz
        have hzhigh := h.high z hz
        linarith
      · intro z hz w hw
        have hzw := h.spread z hz w hw
        linarith
    rw [hhead]
    simp only [hcount]
    split
    · exact ⟨⟨hview.list, hview.nodup, hview.deltas, hview.mono, hview.low, hview.high,
        hview.spread⟩, rfl, fun _ => rfl⟩
    rename_i hpos
    refine ⟨hview, rfl, ?_⟩
    rintro ⟨z, hz, hle⟩
    have hyz := h.head_le z hz
    omega

/-- The loop of `timerthread` takes the timers that have run out from the front. Its `timers` is
    stale until it ends, so the pointer it is at stands for the head. -/
theorem expireLoop_spec : ∀ {L : List Addr} {fuel : Nat} {t1 : Option Addr} {s : TimerList H},
    DList s.timerNext s.timerPrev t1 none L → L.Nodup → Deltas s.timerCount val 0 L →
    (∀ x ∈ L, -2147483648 ≤ val x ∧ val x < 2147483648) → L.length ≤ fuel →
    ∃ a b t, L = a ++ b ∧
      expireLoop fuel t1 s = some (a.map fun x => (x, s.timerHandler x), b.head?, t) ∧
      (∀ y ∈ a, val y ≤ 0) ∧ (∀ y, b.head? = some y → 0 < val y) ∧
      DList t.timerNext t.timerPrev b.head? none b ∧ Deltas t.timerCount val 0 b ∧
      t.timerHandler = s.timerHandler ∧ t.timeoutflag = s.timeoutflag
  | [], fuel, t1, s, h, _, hd, _, _ => by
    obtain rfl : t1 = none := h
    refine ⟨[], [], s, rfl, ?_, by simp, by simp, rfl, hd, rfl, rfl⟩
    unfold expireLoop
    rfl
  | x :: L, fuel, t1, s, h, hnd, hd, hrange, hfuel => by
    obtain ⟨rfl, hprev, hrest⟩ := h
    obtain ⟨hx, hdL⟩ := hd
    obtain ⟨hxL, hndL⟩ := nodup_cons.mp hnd
    rw [sub_zero] at hx
    cases fuel with
    | zero => exact absurd hfuel (by simp)
    | succ fuel =>
      unfold expireLoop
      by_cases hdue : val x ≤ 0
      · have hhead : s.timerNext x = L.head? := hrest.head_eq
        have hlist : DList (expireOne x s).timerNext (expireOne x s).timerPrev (s.timerNext x) none
            L := by
          have hpop := DList.pop none none (show DList _ _ (some x) none (x :: L) from
            ⟨rfl, hprev, hrest⟩) hnd
          unfold expireOne
          rw [hhead]
          exact hpop
        have hcounts : Deltas (expireOne x s).timerCount val 0 L := by
          refine hdL.rebase hndL (fun y hy => ?_) fun z hz hne => ?_
          · have hyL := mem_of_head? hy
            have hyx : y ≠ x := fun he => hxL (he ▸ hyL)
            have hyd := hdL.head hy
            obtain ⟨hylow, hyhigh⟩ := hrange y (mem_cons_of_mem _ hyL)
            refine (setCount_of_ne _ _ hyx).trans ?_
            rw [hhead, hy, addCount_same, hx, i32_of_range (by omega) (by omega)]
            ring
          · have hzx : z ≠ x := fun he => hxL (he ▸ hz)
            refine (setCount_of_ne _ _ hzx).trans ?_
            rw [hhead]
            exact addCount_of_ne _ _ hne
        rw [hx, if_pos hdue]
        obtain ⟨a, b, t, rfl, hloop, ha, hb, hlist', hd', hhandler', hflag'⟩ :=
          expireLoop_spec hlist hndL hcounts (forall_mem_cons.mp hrange).2
            (Nat.le_of_succ_le_succ hfuel)
        refine ⟨x :: a, b, t, rfl, ?_, forall_mem_cons.mpr ⟨hdue, ha⟩, hb, hlist', hd',
          hhandler'.trans (addCount_handler _ _ _), hflag'.trans (addCount_flag _ _ _)⟩
        rw [hloop, show (expireOne x s).timerHandler = s.timerHandler from addCount_handler _ _ _]
        rfl
      · refine ⟨[], x :: L, s, rfl, ?_, by simp, ?_, ⟨rfl, hprev, hrest⟩, ⟨by omega, hdL⟩, rfl, rfl⟩
        · rw [hx, if_neg hdue]
          rfl
        · intro z hz
          cases hz
          omega

/-! ## Runs -/

/-- What was asked for when a timer was started, when that was, and how many had been started
    before it. -/
structure Started (H : Type) where
  duration : Nat
  since : Nat
  seq : Nat
  handler : H

def Started.deadline (r : Started H) : Nat := r.since + r.duration

/-- The order in which timers are to fire. -/
def Started.Before (r q : Started H) : Prop :=
  r.deadline < q.deadline ∨ r.deadline = q.deadline ∧ r.seq < q.seq

/-- The record of a run: the time, how many timers were started, and which of them are running. -/
structure Ledger (H : Type) where
  now : Nat
  starts : Nat
  active : Addr → Option (Started H)

def Ledger.empty : Ledger H := ⟨0, 0, fun _ => none⟩

/-- A timer's duration, less the time since it was started. -/
def Ledger.left (g : Ledger H) (x : Addr) : Option Int :=
  (g.active x).map fun r => (r.duration : Int) - ((g.now : Int) - r.since)

inductive TimerOp (H : Type)
  | start (tobj : Addr) (msec : Nat) (h : H)
  | stop (tobj : Addr)
  | tick
  | round

inductive TimerAnswer (H : Type)
  | ret (r : Int)
  | done
  | fired (l : List (Addr × H))
  deriving DecidableEq

def timerStep (s : TimerList H) : TimerOp H → Option (TimerAnswer H × TimerList H)
  | .start tobj msec h => (starttimer tobj msec h s).map fun r => (.ret r.1, r.2)
  | .stop tobj => (stoptimer tobj s).map fun r => (.ret r.1, r.2)
  | .tick => some (.done, timerTick s)
  | .round => (timerRound s).map fun r => (.fired r.1, r.2)

/-- The record is kept of what callers see: a timer is running from a start that returned 0 until
    it is stopped or fires. -/
def Ledger.record (g : Ledger H) : TimerOp H → TimerAnswer H → Ledger H
  | .start tobj msec h, .ret r =>
    if r = 0 then
      { g with starts := g.starts + 1
               active := fun x => if x = tobj then some ⟨msec, g.now, g.starts, h⟩ else g.active x }
    else g
  | .stop tobj, _ => { g with active := fun x => if x = tobj then none else g.active x }
  | .tick, _ => { g with now := g.now + 20 }
  | .round, .fired l => { g with active := fun x => if x ∈ l.map Prod.fst then none else g.active x }
  | _, _ => g

def ledgerStep (p : TimerList H × Ledger H) (op : TimerOp H) : Option (TimerList H × Ledger H) :=
  (timerStep p.1 op).map fun r => (r.2, p.2.record op r.1)

/-- When a step keeps the times exact: a timer is started for less than `2 ^ 31` ms, also when
    counted from the first timer if that is overdue, and is not queued; and no tick finds the first
    timer overdue by `2 ^ 31` ms. -/
def TimerOpOk (p : TimerList H × Ledger H) : TimerOp H → Prop
  | .start tobj msec _ => queued p.1 tobj = some false ∧ msec < 2147483648 ∧
      ∀ y ∈ p.1.timers, (msec : Int) - p.1.timerCount y < 2147483648
  | .stop _ => True
  | .tick => ∀ y ∈ p.1.timers, -2147483648 ≤ p.1.timerCount y - 20
  | .round => True

-- The instance for `Option` is named: the one for `Fin` would try every address.
instance (p : TimerList H × Ledger H) : ∀ op : TimerOp H, Decidable (TimerOpOk p op)
  | .start _ msec _ =>
    have := Option.decidableForallMem (p := fun y => (msec : Int) - p.1.timerCount y < 2147483648)
      p.1.timers
    inferInstanceAs (Decidable (_ ∧ _ ∧ _))
  | .stop _ => inferInstanceAs (Decidable True)
  | .tick => Option.decidableForallMem (p := fun y => -2147483648 ≤ p.1.timerCount y - 20) p.1.timers
  | .round => inferInstanceAs (Decidable True)

/-- The list stands for the record. -/
structure LedgerView (s : TimerList H) (g : Ledger H) (L : List Addr) : Prop where
  view : TimerView s L fun x => (g.left x).getD 0
  mem : ∀ x, x ∈ L ↔ g.active x ≠ none
  sorted : L.Pairwise fun x y => ∀ r q, g.active x = some r → g.active y = some q → r.Before q
  seqs : ∀ x r, g.active x = some r → r.seq < g.starts ∧ s.timerHandler x = r.handler

variable {g : Ledger H}

theorem Ledger.left_of_active {r : Started H} (h : g.active x = some r) :
    (g.left x).getD 0 = (r.deadline : Int) - g.now := by
  unfold Ledger.left Started.deadline
  rw [h]
  simp only [Option.map_some, Option.getD_some]
  push_cast
  ring

theorem LedgerView.remaining_eq (h : LedgerView s g L) (x : Addr) : remaining s x = g.left x := by
  rw [h.view.remaining_eq]
  split
  · rename_i hx
    obtain ⟨r, hr⟩ := Option.ne_none_iff_exists'.mp ((h.mem x).mp hx)
    unfold Ledger.left
    rw [hr]
    rfl
  · rename_i hx
    have hnone : g.active x = none := not_not.mp (mt (h.mem x).mpr hx)
    unfold Ledger.left
    rw [hnone]
    rfl

theorem Ledger.left_congr {g g' : Ledger H} (hnow : g'.now = g.now) (h : g'.active x = g.active x) :
    g'.left x = g.left x := by
  unfold Ledger.left
  rw [h, hnow]

theorem TimerView.outside (h : TimerView s L val) (hx : x ∉ L) (htimers : t.timers = s.timers)
    (hcount : ∀ y, y ≠ x → t.timerCount y = s.timerCount y)
    (hnext : ∀ y, y ≠ x → t.timerNext y = s.timerNext y)
    (hprev : ∀ y, y ≠ x → t.timerPrev y = s.timerPrev y) : TimerView t L val := by
  have hne : ∀ y ∈ L, y ≠ x := fun y hy he => hx (he ▸ hy)
  refine h.sublist (List.Sublist.refl L) ?_ ?_
  · rw [htimers]
    exact h.list.congr (fun y hy => hnext y (hne y hy)) fun y hy => hprev y (hne y hy)
  · exact h.deltas.congr (fun y hy => hcount y (hne y hy)) fun _ _ => rfl

theorem store_at_of_ne (f : Addr → Option Addr) (v : Option Addr) (h : y ≠ x) :
    store f (some x) v y = f y := store_of_ne fun he => h (Option.some.inj he)

section

variable (h : LedgerView s g L)
include h

theorem LedgerView.start {msec : Nat} {hd : H} (hok : TimerOpOk (s, g) (.start x msec hd)) :
    ∃ t L', starttimer x msec hd s = some (0, t) ∧
      LedgerView t (g.record (.start x msec hd) (.ret 0)) L' := by
  obtain ⟨hqueued, hmsec, hfirst⟩ := hok
  have hx : x ∉ L := by
    rw [h.view.queued_eq] at hqueued
    simpa using hqueued
  have hne : ∀ y ∈ L, y ≠ x := fun y hy he => hx (he ▸ hy)
  generalize hg : g.record (.start x msec hd) (.ret 0) = g'
  have hactive : ∀ y, g'.active y = if y = x then some ⟨msec, g.now, g.starts, hd⟩ else g.active y := by
    rw [← hg]
    intro y
    rfl
  have hnow : g'.now = g.now := by rw [← hg]; rfl
  have hstarts : g'.starts = g.starts + 1 := by rw [← hg]; rfl
  have hxactive : g'.active x = some ⟨msec, g.now, g.starts, hd⟩ := (hactive x).trans (if_pos rfl)
  have hkept : ∀ y, y ≠ x → g'.active y = g.active y := fun y hy => (hactive y).trans (if_neg hy)
  have hleft : ∀ y, y ≠ x → (g'.left y).getD 0 = (g.left y).getD 0 := fun y hy => by
    rw [Ledger.left_congr hnow (hkept y hy)]
  have hxleft : (g'.left x).getD 0 = msec := by
    rw [Ledger.left_of_active hxactive, hnow]
    unfold Started.deadline
    push_cast
    ring
  -- The links of the timer are cleared; the list does not see it.
  have hcleared : TimerView (initTimer x msec hd s) L fun y => (g.left y).getD 0 :=
    h.view.outside hx rfl (fun y hy => setCount_of_ne s _ hy) (fun y hy => store_at_of_ne _ _ hy)
      fun y hy => store_at_of_ne _ _ hy
  have hview : TimerView (initTimer x msec hd s) L fun y => (g'.left y).getD 0 :=
    hcleared.congr fun y hy => hleft y (hne y hy)
  have hspread : ∀ y ∈ L, (g'.left x).getD 0 - (g'.left y).getD 0 < 2147483648 := by
    intro y hy
    cases L with
    | nil => cases hy
    | cons z L =>
      have hz : s.timerCount z = (g.left z).getD 0 := h.view.deltas.1.trans (sub_zero _)
      have hzy := h.view.head_le y hy
      have hlt := hfirst z h.view.list.1
      rw [hxleft, hleft y (hne y hy)]
      simp only at hzy hlt
      omega
  obtain ⟨a, b, t, rfl, hins, ht, ha, hb, hhandler, -⟩ := hview.insert hx
    ((setCount_same s x _).trans (by rw [i32_of_range (by omega) (by omega), hxleft]))
    (by rw [hxleft]; omega) (by rw [hxleft]; omega) hspread (store_same _ _ _) (store_same _ _ _)
  refine ⟨t, a ++ x :: b, ?_, ht, ?_, ?_, ?_⟩
  · unfold starttimer
    simp only [hview.queued_eq, decide_eq_false hx, hins]
    rfl
  · intro y
    rw [perm_middle.mem_iff, mem_cons, hactive]
    split
    · rename_i he
      exact iff_of_true (.inl he) (by simp)
    · rename_i he
      rw [← h.mem y]
      exact or_iff_right he
  · have hbefore : ∀ y ∈ a ++ b, ∀ r, g'.active y = some r →
        (g'.left y).getD 0 = (r.deadline : Int) - g.now ∧ r.seq < g.starts := by
      intro y hy r hr
      rw [Ledger.left_of_active hr, hnow]
      rw [hkept y (hne y hy)] at hr
      exact ⟨rfl, (h.seqs y r hr).1⟩
    have hxdead : (g'.left x).getD 0 = ((Started.deadline ⟨msec, g.now, g.starts, hd⟩ : Nat) : Int) -
        g.now := by rw [Ledger.left_of_active hxactive, hnow]
    have hsorted : (a ++ b).Pairwise fun y z => ∀ r q, g'.active y = some r →
        g'.active z = some q → r.Before q := by
      refine h.sorted.imp_of_mem fun {y z} hy hz hyz r q hr hq => hyz r q ?_ ?_
      · rw [← hkept y (hne y hy), hr]
      · rw [← hkept z (hne z hz), hq]
    obtain ⟨hsa, hsb, hsab⟩ := pairwise_append.mp hsorted
    refine pairwise_append.mpr ⟨hsa, pairwise_cons.mpr ⟨?_, hsb⟩, ?_⟩
    · intro z hz r q hr hq
      cases hxactive.symm.trans hr
      obtain ⟨hzleft, -⟩ := hbefore z (mem_append_right _ hz) q hq
      have hlt := hb z hz
      exact .inl (by omega)
    · intro y hy z hz r q hr hq
      rcases mem_cons.mp hz with rfl | hz
      · cases hxactive.symm.trans hq
        obtain ⟨hyleft, hseq⟩ := hbefore y (mem_append_left _ hy) r hr
        have hle := ha y hy
        rcases Nat.lt_or_ge r.deadline (Started.deadline ⟨msec, g.now, g.starts, hd⟩) with hlt | hge
        · exact .inl hlt
        · exact .inr ⟨by omega, hseq⟩
      · exact hsab y hy z hz r q hr hq
  · intro y r hr
    rw [hhandler, hstarts]
    by_cases hy : y = x
    · subst hy
      cases hxactive.symm.trans hr
      exact ⟨Nat.lt_succ_self _, if_pos rfl⟩
    · rw [hkept y hy] at hr
      obtain ⟨hseq, hhd⟩ := h.seqs y r hr
      exact ⟨Nat.lt_succ_of_lt hseq, (if_neg hy).trans hhd⟩

/-- What is left of the list when some timers are taken out stands for the record without them. -/
theorem LedgerView.restrict {g' : Ledger H} {L' : List Addr} {p : Addr → Prop}
    [DecidablePred p] (ht : TimerView t L' fun y => (g.left y).getD 0) (hsub : L'.Sublist L)
    (hmem : ∀ y, y ∈ L' ↔ y ∈ L ∧ ¬ p y) (hhandler : t.timerHandler = s.timerHandler)
    (hnow : g'.now = g.now) (hstarts : g'.starts = g.starts)
    (hactive : ∀ y, g'.active y = if p y then none else g.active y) : LedgerView t g' L' := by
  have hkept : ∀ {y}, ¬ p y → g'.active y = g.active y := fun hy => (hactive _).trans (if_neg hy)
  have hne : ∀ {y}, y ∈ L' → ¬ p y := fun hy => ((hmem _).mp hy).2
  refine ⟨ht.congr fun y hy => ?_, fun y => ?_, ?_, fun y r hr => ?_⟩
  · rw [Ledger.left_congr hnow (hkept (hne hy))]
  · rw [hmem, hactive, h.mem]
    split <;> simp_all
  · refine (h.sorted.sublist hsub).imp_of_mem fun {y z} hy hz hyz r q hr hq => hyz r q ?_ ?_
    · rw [← hkept (hne hy), hr]
    · rw [← hkept (hne hz), hq]
  · have hy : ¬ p y := fun hp => by
      rw [hactive, if_pos hp] at hr
      cases hr
    rw [hkept hy] at hr
    rw [hhandler, hstarts]
    exact h.seqs y r hr

theorem LedgerView.stop (x : Addr) : ∃ ret t L', stoptimer x s = some (ret, t) ∧
      LedgerView t (g.record (.stop x) (.ret ret)) L' := by
  unfold stoptimer
  rw [h.view.queued_eq]
  by_cases hx : x ∈ L
  · obtain ⟨a, b, rfl⟩ := append_of_mem hx
    obtain ⟨hxab, -⟩ := nodup_cons.mp (nodup_middle.mp h.view.nodup)
    refine ⟨0, _, a ++ b, by rw [decide_eq_true hx]; rfl, ?_⟩
    refine h.restrict (p := (· = x)) (h.view.remove.outside hxab rfl (fun y hy => setCount_of_ne _ _ hy)
      (fun y hy => store_at_of_ne _ _ hy) fun y hy => store_at_of_ne _ _ hy)
      ((sublist_cons_self x b).append_left a) (fun y => ?_) (addCount_handler _ _ _) rfl rfl
      fun _ => rfl
    rw [perm_middle.mem_iff, mem_cons]
    constructor
    · exact fun hy => ⟨.inr hy, fun he => hxab (he ▸ hy)⟩
    · exact fun hy => hy.1.resolve_left hy.2
  · refine ⟨-1, _, L, by rw [decide_eq_false hx]; rfl, ?_⟩
    refine h.restrict (p := (· = x)) (h.view.outside hx rfl (fun y hy => setCount_of_ne _ _ hy)
      (fun y hy => store_at_of_ne _ _ hy) fun y hy => store_at_of_ne _ _ hy)
      (List.Sublist.refl L) (fun y => ?_) rfl rfl rfl fun _ => rfl
    exact ⟨fun hy => ⟨hy, fun he => hx (he ▸ hy)⟩, And.left⟩

theorem LedgerView.tick (hok : TimerOpOk (s, g) .tick) :
    LedgerView (timerTick s) (g.record .tick .done) L ∧
      ((∃ x left, remaining s x = some left ∧ left ≤ 20) → (timerTick s).timeoutflag = true) := by
  obtain ⟨hview, hhandler, hflag⟩ := h.view.tick hok
  refine ⟨⟨hview.congr fun y hy => ?_, h.mem, h.sorted, fun y r hr => ?_⟩, ?_⟩
  · obtain ⟨r, hr⟩ := Option.ne_none_iff_exists'.mp ((h.mem y).mp hy)
    have hr' : (g.record .tick .done).active y = some r := hr
    rw [Ledger.left_of_active hr, Ledger.left_of_active hr']
    show (r.deadline : Int) - ((g.now + 20 : Nat) : Int) = _
    push_cast
    ring
  · rw [hhandler]
    exact h.seqs y r hr
  · rintro ⟨y, left, hleft, hle⟩
    rw [h.view.remaining_eq] at hleft
    split at hleft
    · rename_i hy
      refine hflag ⟨y, hy, ?_⟩
      rw [Option.some.inj hleft]
      omega
    · cases hleft

/-- **A round of `timerthread`** with `timeoutflag` set fires the timers that have run out. -/
theorem LedgerView.round (hflag : s.timeoutflag = true) :
    ∃ a b t, L = a ++ b ∧ timerRound s = some (a.map fun x => (x, s.timerHandler x), t) ∧
      (∀ y, y ∈ a ↔ ∃ left, remaining s y = some left ∧ left ≤ 0) ∧
      LedgerView t (g.record .round (.fired (a.map fun x => (x, s.timerHandler x)))) b := by
  obtain ⟨a, b, t, rfl, hloop, ha, hb, hlist, hdeltas, hhandler, -⟩ :=
    expireLoop_spec (s := { s with timeoutflag := false }) h.view.list h.view.nodup h.view.deltas
      (fun y hy => ⟨h.view.low y hy, h.view.high y hy⟩) (length_le_walkFuel h.view.nodup)
  obtain ⟨-, -, hab⟩ := nodup_append.mp h.view.nodup
  have hfired : (a.map fun x => (x, s.timerHandler x)).map Prod.fst = a := by
    rw [map_map]
    exact map_id a
  have hbpos := lt_of_lt_head (pairwise_append.mp h.view.mono).2.1 hb
  refine ⟨a, b, { t with timers := b.head? }, rfl, ?_, fun y => ?_, ?_⟩
  · unfold timerRound
    rw [if_pos hflag, hloop]
    rfl
  · rw [h.view.remaining_eq]
    constructor
    · intro hy
      exact ⟨_, if_pos (mem_append_left _ hy), ha y hy⟩
    · rintro ⟨left, hleft, hle⟩
      split at hleft
      · rename_i hy
        cases hleft
        exact (mem_append.mp hy).resolve_right fun hyb => absurd (hbpos y hyb) (by omega)
      · cases hleft
  · refine h.restrict (p := (· ∈ a)) (h.view.sublist (sublist_append_right a b)
      (t := { t with timers := b.head? }) hlist hdeltas) (sublist_append_right a b) (fun y => ?_)
      hhandler rfl rfl fun y => ?_
    · rw [mem_append]
      exact ⟨fun hy => ⟨.inr hy, fun hya => hab y hya y hy rfl⟩, fun hy => hy.1.resolve_left hy.2⟩
    · show (if y ∈ (a.map fun x => (x, s.timerHandler x)).map Prod.fst then _ else _) = _
      rw [hfired]

end

theorem timerRound_idle (hflag : s.timeoutflag = false) : timerRound s = some ([], s) := by
  unfold timerRound
  rw [hflag]
  rfl

theorem record_idle (g : Ledger H) : g.record .round (.fired []) = g := by
  unfold Ledger.record
  simp

theorem LedgerView.step (h : LedgerView s g L) {op : TimerOp H} {p : TimerList H × Ledger H}
    (hok : TimerOpOk (s, g) op) (hstep : ledgerStep (s, g) op = some p) :
    ∃ L', LedgerView p.1 p.2 L' := by
  obtain ⟨⟨ans, t⟩, hrun, rfl⟩ := Option.map_eq_some_iff.mp hstep
  cases op with
  | start x msec hd =>
    obtain ⟨u, L', hu, hview⟩ := h.start hok
    obtain ⟨r, hr, heq⟩ := Option.map_eq_some_iff.mp hrun
    cases hr.symm.trans hu
    cases heq
    exact ⟨L', hview⟩
  | stop x =>
    obtain ⟨ret, u, L', hu, hview⟩ := h.stop x
    obtain ⟨r, hr, heq⟩ := Option.map_eq_some_iff.mp hrun
    cases hr.symm.trans hu
    cases heq
    exact ⟨L', hview⟩
  | tick =>
    cases hrun
    exact ⟨L, (h.tick hok).1⟩
  | round =>
    obtain ⟨r, hr, heq⟩ := Option.map_eq_some_iff.mp hrun
    cases hflag : s.timeoutflag with
    | false =>
      cases hr.symm.trans (timerRound_idle hflag)
      cases heq
      exact ⟨L, by rw [record_idle]; exact h⟩
    | true =>
      obtain ⟨a, b, u, -, hu, -, hview⟩ := h.round hflag
      cases hr.symm.trans hu
      cases heq
      exact ⟨b, hview⟩

theorem Ledger.left_record_stop (g : Ledger H) (x : Addr) (ans : TimerAnswer H) (y : Addr) :
    (g.record (.stop x) ans).left y = if y = x then none else g.left y := by
  show (if y = x then none else g.active y).map _ = _
  by_cases hy : y = x
  · rw [if_pos hy, if_pos hy]
    rfl
  · rw [if_neg hy, if_neg hy]
    rfl

/-- **The timer list is exact.** In every state that starts, stops, ticks and rounds of
    `timerthread` lead to from the empty list, each step as `TimerOpOk` says: the list is a doubly
    linked list of exactly the running timers; the counts up to a timer add up to its duration less
    the time since it was started; stopping a timer changes no other timer's time, nor does starting
    one; and a round that goes over the list fires exactly the timers with no time left, each with
    the handler it was started with, by deadline and then in the order in which they were
    started. -/
theorem timer_list_exact {s₀ : TimerList H} (hempty : s₀.timers = none) {t : TimerList H}
    {g : Ledger H} (hrun : Reaches ledgerStep TimerOpOk (s₀, Ledger.empty) (t, g)) :
    (∃ L, DList t.timerNext t.timerPrev t.timers none L ∧ L.Nodup ∧
      ∀ x, x ∈ L ↔ g.active x ≠ none) ∧
    (∀ x, remaining t x = g.left x) ∧
    (∀ x msec h, TimerOpOk (t, g) (.start x msec h) → ∃ u, starttimer x msec h t = some (0, u) ∧
      remaining u x = some (msec : Int) ∧ ∀ y, y ≠ x → remaining u y = remaining t y) ∧
    (∀ x, ∃ ret u, stoptimer x t = some (ret, u) ∧ remaining u x = none ∧
      ∀ y, y ≠ x → remaining u y = remaining t y) ∧
    (TimerOpOk (t, g) .tick → (∃ x left, remaining t x = some left ∧ left ≤ 20) →
      (timerTick t).timeoutflag = true) ∧
    (t.timeoutflag = true → ∃ l u, timerRound t = some (l, u) ∧
      (∀ x, x ∈ l.map Prod.fst ↔ ∃ left, remaining t x = some left ∧ left ≤ 0) ∧
      (l.Pairwise fun p q => ∀ r r', g.active p.1 = some r → g.active q.1 = some r' →
        r.Before r') ∧
      (∀ p ∈ l, ∀ r, g.active p.1 = some r → p.2 = r.handler) ∧
      ∀ x, x ∉ l.map Prod.fst → remaining u x = remaining t x) := by
  obtain ⟨L, h⟩ : ∃ L, LedgerView t g L := by
    refine hrun.invariant (fun p => ∃ L, LedgerView p.1 p.2 L) ⟨[], ?_⟩ ?_
    · refine ⟨⟨hempty, nodup_nil, trivial, List.Pairwise.nil, by simp, by simp, by simp⟩, ?_,
        List.Pairwise.nil, ?_⟩
      · exact fun x => iff_of_false not_mem_nil (not_not.mpr rfl)
      · intro x r hr
        cases hr
    · rintro p q op ⟨L, hL⟩ hok hstep
      exact hL.step hok hstep
  refine ⟨⟨L, h.view.list, h.view.nodup, h.mem⟩, h.remaining_eq, ?_, ?_, ?_, ?_⟩
  · intro x msec hd hok
    obtain ⟨u, L', hu, hview⟩ := h.start hok
    refine ⟨u, hu, ?_, fun y hy => ?_⟩
    · rw [hview.remaining_eq]
      show (if x = x then some _ else _ : Option (Started H)).map _ = _
      simp [Ledger.record]
    · rw [hview.remaining_eq, h.remaining_eq]
      exact Ledger.left_congr rfl (if_neg hy)
  · intro x
    obtain ⟨ret, u, L', hu, hview⟩ := h.stop x
    refine ⟨ret, u, hu, ?_, fun y hy => ?_⟩
    · rw [hview.remaining_eq, Ledger.left_record_stop, if_pos rfl]
    · rw [hview.remaining_eq, Ledger.left_record_stop, if_neg hy, h.remaining_eq]
  · exact fun hok => (h.tick hok).2
  · intro hflag
    obtain ⟨a, b, u, rfl, hu, hdue, hview⟩ := h.round hflag
    have hfst : (a.map fun x => (x, t.timerHandler x)).map Prod.fst = a := by
      rw [map_map]
      exact map_id a
    refine ⟨_, u, hu, fun x => by rw [hfst]; exact hdue x, ?_, ?_, fun x hx => ?_⟩
    · exact pairwise_map.mpr (pairwise_append.mp h.sorted).1
    · intro p hp r hr
      obtain ⟨x, -, rfl⟩ := mem_map.mp hp
      exact (h.seqs x r hr).2
    · rw [hview.remaining_eq, h.remaining_eq]
      exact Ledger.left_congr rfl (if_neg hx)

/-- No timers; handlers are numbers. -/
def noTimers : TimerList Nat := ⟨none, fun _ => 0, fun _ => none, fun _ => none, fun _ => 0, false⟩

/-- A timer is started, overtaken by a shorter one, and 60 ms pass. -/
def overtaken : List (TimerOp Nat) := [.start 1 100 7, .start 2 50 8, .tick, .tick, .tick]

theorem timer_list_exact_overtaken :
    ∃ t g, Reaches ledgerStep TimerOpOk (noTimers, Ledger.empty) (t, g) ∧
      remaining t 1 = some 40 ∧ remaining t 2 = some (-10) ∧
      ∃ l u, timerRound t = some (l, u) ∧
        ∀ x, x ∈ l.map Prod.fst ↔ ∃ left, remaining t x = some left ∧ left ≤ 0 := by
  obtain ⟨⟨t, g⟩, hp, h1, h2, hflag⟩ : ∃ p ∈ runOps ledgerStep TimerOpOk (noTimers, Ledger.empty)
      overtaken, remaining p.1 1 = some 40 ∧ remaining p.1 2 = some (-10) ∧
        p.1.timeoutflag = true := by decide +kernel
  have hreach := reaches_of_runOps hp
  obtain ⟨-, -, -, -, -, hround⟩ := 
    timer_list_exact (show noTimers.timers = none from rfl) hreach
  obtain ⟨l, u, hu, hdue, -⟩ := hround hflag
  exact ⟨t, g, hreach, h1, h2, l, u, hu, hdue⟩

/-- **A timer started twice cuts the list.** The second start returns -1, as the timer is queued,
    but has cleared its links: the timer behind it, with 200 ms to run, is in the list no more. -/
theorem restarted_timer_cuts_list : (runOps ledgerStep (fun _ _ => True) (noTimers, Ledger.empty)
        [.start 1 100 7, .start 2 200 8, .start 1 100 7]).map
      (fun p => (remaining p.1 2, p.2.left 2)) = some (none, some 200) := by
  decide +kernel

end AtomOs
