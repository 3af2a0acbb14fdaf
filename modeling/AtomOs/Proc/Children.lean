import AtomOs.Lib.Linked
import AtomOs.Proc.Table

/-!
# The children of a process

The children of a process are linked by `proc_sib`, from its `proc_childlist` on. When the last thread
of a process has ended, `thread_terminate_handler` takes the children that have terminated out of the
list and puts what is left in front of the children of the grandparent: **`orphans_move`**.

`syscall_wait` takes out one child that has terminated (**`wait_reaps`**). If there is none, it looks for
the child list of the process it has not found, through `NULL` (`wait_follows_null`).

`NULL` is the address 0. What `destroy_process` does is in `AtomOs/Proc/TableInv.lean`; here its calls
are written down.
-/

namespace AtomOs

open Lib Function List

/-- The fields that concern the children, and the processes that were destroyed. -/
structure Kin where
  procChildlist : Addr → Addr
  procSib : Addr → Addr
  procParent : Addr → Addr
  procState : Addr → ProcState
  procWaitable : Addr → Bool
  procExitstatus : Addr → Int
  destroyed : List Addr

namespace Kin

/-- `c` is taken out of the children of `r`; `prev` comes before it, or `NULL`. -/
def unlinkAfter (r prev c : Addr) (s : Kin) : Kin :=
  { s with
    procChildlist :=
      if prev = 0 then update s.procChildlist r (s.procSib c) else s.procChildlist
    procSib := if prev = 0 then s.procSib else update s.procSib prev (s.procSib c) }

def destroyProcess (c : Addr) (s : Kin) : Kin := { s with destroyed := s.destroyed ++ [c] }

/-- How `proc` is removed from the children of `r` and destroyed, if it is one of them. -/
def removeChild (r proc : Addr) (s : Kin) : Option Kin :=
  (seek s.procSib (fun t => t == 0 || t == proc) walkFuel 0 (s.procChildlist r)).bind fun x =>
    if x.2 = 0 then none
    else
      let s := s.unlinkAfter r x.1 proc
      some ({ s with procSib := update s.procSib proc 0 }.destroyProcess proc)

/-- `syscall_wait`, by a thread of `r`: what it returns and stores. If no child has terminated it
    follows `NULL`. -/
def syscallWait (r : Addr) (s : Kin) : Option (Int × Int × Kin) :=
  (seek s.procSib (fun t => t == 0 || decide (s.procState t = .terminated)) walkFuel 0
      (s.procChildlist r)).bind fun x =>
    if x.2 = 0 then none
    else (s.removeChild r x.2).map fun t => (0, s.procExitstatus x.2, t)

/-- The loop over the children of `proc`. It stands at `p1`, and has kept `p2` last. -/
def orphanLoop (proc : Addr) : Nat → Addr → Addr → Kin → Option (Addr × Kin)
  | 0, p2, p1, s => if p1 = 0 then some (p2, s) else none
  | fuel + 1, p2, p1, s =>
    if p1 = 0 then some (p2, s)
    else if s.procState p1 = .terminated then
      let s := s.unlinkAfter proc p2 p1
      orphanLoop proc fuel p2 (s.procSib p1) (s.destroyProcess p1)
    else orphanLoop proc fuel p1 (s.procSib p1)
      { s with procParent := update s.procParent p1 (s.procParent proc) }

/-- The children of `proc` that are left, up to `p2`, go in front of those of `g`. -/
def adopt (proc g p2 : Addr) (s : Kin) : Kin :=
  { s with
    procSib := if p2 = 0 then s.procSib else update s.procSib p2 (s.procChildlist g)
    procChildlist := update
      (if p2 = 0 then s.procChildlist
        else update s.procChildlist g (s.procChildlist proc)) proc 0 }

/-- The children of `proc`, after its last thread has ended. -/
def orphans (proc : Addr) (s : Kin) : Option Kin :=
  if s.procChildlist proc = 0 then some s
  else (orphanLoop proc walkFuel 0 (s.procChildlist proc) s).map fun x =>
    x.2.adopt proc (s.procParent proc) x.1

/-- The part of `thread_terminate_handler` that concerns the relatives of `proc`. -/
def finish (proc : Addr) (s : Kin) : Option Kin :=
  (s.orphans proc).bind fun t =>
    if t.procWaitable proc then
      some { t with procState := update t.procState proc .terminated }
    else t.removeChild (s.procParent proc) proc

abbrev Children (s : Kin) (r : Addr) (l : List Addr) : Prop :=
  Linked s.procSib (· = 0) (s.procChildlist r) l

variable {s t : Kin} {r c proc g : Addr} {a b l m : List Addr}

theorem Children.congr (h : s.Children r l) (hhead : t.procChildlist r = s.procChildlist r)
    (hsib : ∀ x ∈ l, t.procSib x = s.procSib x) : t.Children r l := by
  rw [Children, hhead]
  exact Linked.congr hsib h

theorem Children.notMem (h : s.Children r (a ++ c :: b)) : c ∉ a ++ b :=
  (nodup_cons.mp (nodup_middle.mp h.nodup)).1

theorem Children.unlinkAfter (h : s.Children r (a ++ c :: b)) :
    (s.unlinkAfter r (a.getLastD 0) c).Children r (a ++ b) ∧
      (∀ x ∉ a, (s.unlinkAfter r (a.getLastD 0) c).procSib x = s.procSib x) ∧
      ∀ r', r' ≠ r → (s.unlinkAfter r (a.getLastD 0) c).procChildlist r' = s.procChildlist r' := by
  cases a using List.reverseRecOn with
  | nil =>
    refine ⟨?_, fun _ _ => rfl, fun r' hr => update_of_ne hr _ _⟩
    show Linked s.procSib _ (update s.procChildlist r (s.procSib c) r) b
    rw [update_self]
    exact h.2.2
  | append_singleton a x =>
    have hx := h.not_stop x (by simp)
    rw [append_assoc, singleton_append] at h
    obtain ⟨-, hrest, hxa, hxb⟩ := h.behind
    have hsib : ∀ {z}, z ≠ x → update s.procSib x (s.procSib c) z = s.procSib z :=
      fun hz => update_of_ne hz _ _
    rw [show (a ++ [x]).getLastD 0 = x by simp, Kin.unlinkAfter]
    simp only [if_neg hx]
    refine ⟨?_, fun z hz => hsib fun he => hz (by simp [he]), fun _ _ => trivial⟩
    rw [append_assoc, singleton_append]
    refine h.splice (fun z hz => hsib (ne_of_mem_of_not_mem hz hxa)) ?_
    show Linked _ _ (update s.procSib x (s.procSib c) x) b
    rw [update_self]
    exact hrest.2.2.congr fun z hz => hsib (ne_of_mem_of_not_mem hz hxb)

theorem Children.removeChild (h : s.Children r l) (hc : c ∈ l) :
    ∃ t, s.removeChild r c = some t ∧ t.Children r (l.erase c) ∧
      (∀ x ∉ l, t.procSib x = s.procSib x) ∧
      (∀ r', r' ≠ r → t.procChildlist r' = s.procChildlist r') ∧ t.destroyed = s.destroyed ++ [c] ∧
      t.procParent = s.procParent := by
  obtain ⟨l1, l2, rfl, hnot, hfirst, hseek⟩ := seek_of_linked (· == c) 0 h (length_le_walkFuel h.nodup)
  have hc1 : c ∉ l1 := fun hc => by simpa using hnot c hc
  cases l2 with
  | nil =>
    rw [append_nil] at hc
    exact absurd hc hc1
  | cons x b =>
    obtain rfl : x = c := by simpa using hfirst x rfl
    have herase : (l1 ++ x :: b).erase x = l1 ++ b := by
      rw [erase_append_right _ hc1, erase_cons_head]
    obtain ⟨hlist, hsib, hhead⟩ := h.unlinkAfter
    unfold Kin.removeChild
    rw [hseek, herase]
    refine ⟨_, if_neg (h.not_stop x hc), hlist.congr rfl fun z hz => ?_, fun z hz => ?_, hhead, rfl, rfl⟩
    · exact update_of_ne (ne_of_mem_of_not_mem hz h.notMem) _ _
    · rw [mem_append, not_or] at hz
      refine (update_of_ne (fun he => ?_) _ _).trans (hsib z hz.1)
      exact hz.2 (he ▸ mem_cons_self)

/-- The search of `syscall_wait` comes to the first child that has terminated, and to `NULL` if there is
    none. -/
theorem Children.waitSeek (h : s.Children r l) :
    ∃ prev, seek s.procSib (fun t => t == 0 || decide (s.procState t = .terminated)) walkFuel 0
      (s.procChildlist r) =
        some (prev, (l.find? (fun c => s.procState c = .terminated)).getD 0) := by
  obtain ⟨l1, l2, rfl, hnot, hfirst, hseek⟩ := seek_of_linked
    (fun c => decide (s.procState c = .terminated)) 0 h (length_le_walkFuel h.nodup)
  have hnone : l1.find? (fun c => s.procState c = .terminated) = none := by
    simpa using hnot
  refine ⟨l1.getLastD 0, hseek.trans ?_⟩
  rw [find?_append, hnone, Option.none_or]
  cases l2 with
  | nil => rfl
  | cons c b =>
    have hst : s.procState c = .terminated := by simpa using hfirst c rfl
    simp [hst]

/-- **`syscall_wait` takes the first child that has terminated** out of the list, stores its status and
    destroys it; the other children stay in order. It does so just if there is such a child: a search
    that finds none ends with `proc == NULL`, and the next statement reads `proc->proc_childlist`. -/
theorem wait_reaps (h : s.Children r l) :
    ((∃ c t, l.find? (fun c => s.procState c = .terminated) = some c ∧
        s.syscallWait r = some (0, s.procExitstatus c, t) ∧ t.Children r (l.erase c) ∧
        t.destroyed = s.destroyed ++ [c]) ↔ ∃ c ∈ l, s.procState c = .terminated) ∧
      (s.syscallWait r = none ↔ ∀ c ∈ l, s.procState c ≠ .terminated) := by
  obtain ⟨prev, hseek⟩ := h.waitSeek
  have hwait : s.syscallWait r = if (l.find? (fun c => s.procState c = .terminated)).getD 0 = 0 then none
      else (s.removeChild r ((l.find? (fun c => s.procState c = .terminated)).getD 0)).map
        fun t => (0, s.procExitstatus ((l.find? (fun c => s.procState c = .terminated)).getD 0), t) := by
    rw [syscallWait, hseek]
    rfl
  cases hfind : l.find? (fun c => s.procState c = .terminated) with
  | none =>
    have hnone : ∀ c ∈ l, s.procState c ≠ .terminated := by simpa using hfind
    rw [hfind] at hwait
    refine ⟨⟨?_, ?_⟩, fun _ => hnone, fun _ => hwait⟩
    · rintro ⟨c, t, hc, -⟩
      cases hc
    · rintro ⟨c, hc, hst⟩
      exact absurd hst (hnone c hc)
  | some c =>
    have hc := mem_of_find?_eq_some hfind
    have hst : s.procState c = .terminated := by simpa using find?_some hfind
    obtain ⟨t, hrun, hlist, -, -, hdes, -⟩ := h.removeChild hc
    rw [hfind, Option.getD_some, if_neg (h.not_stop c hc), hrun, Option.map_some] at hwait
    refine ⟨⟨fun _ => ⟨c, hc, hst⟩, fun _ => ⟨c, t, rfl, hwait, hlist, hdes⟩⟩, ?_, ?_⟩
    · intro hnone
      cases hwait.symm.trans hnone
    · intro hnone
      exact absurd hst (hnone c hc)

/-- Process 1 has the child 2, and that has the children 3 and 4, of which 4 has exited with 7. -/
def house : Kin where
  procChildlist := fun r => if r = 1 then 2 else if r = 2 then 3 else 0
  procSib := fun x => if x = 3 then 4 else 0
  procParent := fun x => if x = 2 then 1 else 2
  procState := fun x => if x = 4 then .terminated else .ready
  procWaitable := fun _ => true
  procExitstatus := fun _ => 7
  destroyed := []

theorem wait_reaps_four : ∃ t, house.syscallWait 2 = some (0, 7, t) ∧ t.destroyed = [4] := by
  obtain ⟨c, t, hc, hrun, -, hdes⟩ := (wait_reaps (s := house) (r := 2) (l := [3, 4])
    ⟨rfl, by decide, rfl, by decide, rfl⟩).1.mpr ⟨4, by decide, rfl⟩
  cases hc
  exact ⟨t, hrun, hdes⟩

/-- **A process whose child is alive** follows `NULL` when it waits, and so does one without children. -/
theorem wait_follows_null : house.Children 1 [2] ∧ house.syscallWait 1 = none ∧
    house.Children 3 [] ∧ house.syscallWait 3 = none :=
  ⟨⟨rfl, by decide, rfl⟩, rfl, rfl, rfl⟩

/-! ## Orphans -/

/-- The children that have not terminated. -/
def live (s : Kin) (l : List Addr) : List Addr := l.filter fun c => s.procState c ≠ .terminated

/-- **The loop** takes out those that have terminated, and destroys them. -/
theorem orphanLoop_spec : ∀ {l kept : List Addr} {fuel : Nat} {s : Kin},
    s.Children proc (kept ++ l) → proc ∉ l → l.length ≤ fuel →
    ∃ t, orphanLoop proc fuel (kept.getLastD 0) (l.headD 0) s =
        some ((kept ++ s.live l).getLastD 0, t) ∧
      t.Children proc (kept ++ s.live l) ∧ (∀ x ∉ kept ++ l, t.procSib x = s.procSib x) ∧
      (∀ r, r ≠ proc → t.procChildlist r = s.procChildlist r) ∧ t.procWaitable = s.procWaitable ∧
      t.destroyed = s.destroyed ++ l.filter (fun c => s.procState c = .terminated) ∧
      ∀ x, t.procParent x = if x ∈ s.live l then s.procParent proc else s.procParent x
  | [], kept, fuel, s, h, _, _ => by
    refine ⟨s, ?_, ?_, fun _ _ => rfl, fun _ _ => rfl, rfl, by simp, fun x => by simp [live]⟩
    · cases fuel <;> simp [orphanLoop, live]
    · exact h
  | c :: l, kept, 0, s, _, _, hfuel => absurd hfuel (by simp)
  | c :: l, kept, fuel + 1, s, h, hproc, hfuel => by
    have hne := h.not_stop c (by simp)
    have hnext : s.procSib c = l.headD 0 := by
      have hrest := h.drop.2.2
      cases l with
      | nil => exact hrest
      | cons y l => exact hrest.1
    rw [mem_cons, not_or] at hproc
    have hlen := Nat.le_of_succ_le_succ hfuel
    by_cases hst : s.procState c = .terminated
    · have hlive : s.live (c :: l) = s.live l := by simp [live, hst]
      obtain ⟨hlist, hsib, hhead⟩ := h.unlinkAfter
      have hc : c ∉ kept := fun hc => h.notMem (mem_append_left _ hc)
      obtain ⟨t, hrun, hlist', hsib', hhead', hwait, hdes, hpar⟩ := orphanLoop_spec
        (s := (s.unlinkAfter proc (kept.getLastD 0) c).destroyProcess c) hlist hproc.2 hlen
      rw [hlive]
      refine ⟨t, ?_, hlist', fun x hx => ?_, fun r hr => (hhead' r hr).trans (hhead r hr), hwait, ?_, hpar⟩
      · rw [orphanLoop]
        simp only [headD_cons, if_neg hne, if_pos hst, hsib c hc, hnext]
        exact hrun
      · simp only [mem_append, mem_cons, not_or] at hx
        exact (hsib' x (by simp [hx])).trans (hsib x hx.1)
      · rw [hdes]
        simp [Kin.destroyProcess, Kin.unlinkAfter, hst]
    · have hlive : s.live (c :: l) = c :: s.live l := by simp [live, hst]
      have happ : ∀ l, kept ++ c :: l = kept ++ [c] ++ l := by simp
      rw [happ] at h
      obtain ⟨t, hrun, hlist, hsib, hhead, hwait, hdes, hpar⟩ := @orphanLoop_spec l (kept ++ [c]) _
        { s with procParent := update s.procParent c (s.procParent proc) } h hproc.2 hlen
      rw [hlive, happ (s.live l), happ l]
      refine ⟨t, ?_, hlist, hsib, hhead, hwait, ?_, fun x => ?_⟩
      · rw [show (kept ++ [c]).getLastD 0 = c by simp] at hrun
        rw [orphanLoop]
        simp only [headD_cons, if_neg hne, if_neg hst, hnext]
        exact hrun
      · rw [hdes]
        simp [hst]
      · rw [hpar]
        by_cases hx : x = c
        · simp [hx, update_of_ne hproc.1]
        · simp [hx, update_of_ne hproc.1, live]

theorem Children.adopt (h : s.Children proc l) (hg : s.Children g m) (hne : g ≠ proc)
    (hapart : ∀ x ∈ l, x ∉ m) :
    (s.adopt proc g (l.getLastD 0)).Children g (l ++ m) ∧
      (s.adopt proc g (l.getLastD 0)).Children proc [] := by
  refine ⟨?_, update_self _ _ _⟩
  unfold Children Kin.adopt
  simp only [update_of_ne hne]
  cases l using List.reverseRecOn with
  | nil => exact hg
  | append_singleton a x =>
    have hsib : ∀ {z}, z ≠ x → update s.procSib x (s.procChildlist g) z = s.procSib z :=
      fun hz => update_of_ne hz _ _
    have hxa : x ∉ a := fun hx => h.notMem (mem_append_left _ hx)
    rw [show (a ++ [x]).getLastD 0 = x by simp]
    simp only [if_neg (h.not_stop x (by simp))]
    rw [update_self, append_assoc]
    refine Linked.splice h (fun z hz => hsib (ne_of_mem_of_not_mem hz hxa)) ?_
    rw [update_self]
    exact Linked.congr (fun z hz => hsib (ne_of_mem_of_not_mem hz (hapart x (by simp)))) hg

/-- **The orphans of a process** go to the grandparent, and its children that have terminated are
    destroyed. -/
theorem orphans_move (h : s.Children proc l) (hg : s.Children (s.procParent proc) m)
    (hproc : proc ∈ m) (hne : s.procParent proc ≠ proc) (hapart : ∀ x ∈ l, x ∉ m) :
    ∃ t, s.finish proc = some t ∧ t.Children proc [] ∧
      t.Children (s.procParent proc)
        (s.live l ++ if s.procWaitable proc then m else m.erase proc) ∧
      t.destroyed = s.destroyed ++ l.filter (fun c => s.procState c = .terminated) ++
        (if s.procWaitable proc then [] else [proc]) ∧
      ∀ x, t.procParent x = if x ∈ s.live l then s.procParent proc else s.procParent x := by
  have hnot : proc ∉ l := fun hp => hapart proc hp hproc
  have hlive : ∀ {x}, x ∈ s.live l → x ∈ l := fun hx => (mem_filter.mp hx).1
  obtain ⟨u, hu, hnil, hlist, hwait, hdes, hpar⟩ : ∃ u, s.orphans proc = some u ∧
      u.Children proc [] ∧ u.Children (s.procParent proc) (s.live l ++ m) ∧ u.procWaitable = s.procWaitable ∧
      u.destroyed = s.destroyed ++ l.filter (fun c => s.procState c = .terminated) ∧
      ∀ x, u.procParent x = if x ∈ s.live l then s.procParent proc else s.procParent x := by
    cases l with
    | nil => exact ⟨s, if_pos h, h, hg, rfl, by simp, by simp [live]⟩
    | cons c l =>
      obtain ⟨u, hrun, hlist, hsib, hhead, hrest⟩ := @orphanLoop_spec _ _ [] _ _ h hnot
        (length_le_walkFuel h.nodup)
      have hg' : u.Children (s.procParent proc) m :=
        hg.congr (hhead _ hne) fun x hx => hsib x fun hx' => hapart x hx' hx
      obtain ⟨hlist, hnil⟩ := hlist.adopt hg' hne fun x hx => hapart x (hlive hx)
      refine ⟨_, ?_, hnil, hlist, hrest⟩
      rw [getLastD_nil, headD_cons] at hrun
      rw [orphans, h.1, if_neg (h.not_stop c mem_cons_self), hrun]
      rfl
  simp only [finish, hu, Option.bind_some, hwait]
  by_cases hw : s.procWaitable proc
  · simp only [if_pos hw, append_nil]
    exact ⟨_, rfl, hnil, hlist, hdes, hpar⟩
  obtain ⟨t, hrun, hlist, -, hhead, hdes', hpar'⟩ :=
    hlist.removeChild (mem_append_right _ hproc)
  rw [erase_append_right _ fun hp => hnot (hlive hp)] at hlist
  simp only [if_neg hw, ← hdes]
  exact ⟨t, hrun, hnil.congr (hhead _ hne.symm) (by simp), hlist, hdes', hpar' ▸ hpar⟩

theorem orphans_move_two : ∃ t, house.finish 2 = some t ∧ t.Children 1 [3, 2] ∧ t.destroyed = [4] := by
  obtain ⟨t, hrun, -, hlist, hdes, -⟩ := @orphans_move house 2 [3, 4] [2]
    ⟨rfl, by decide, rfl, by decide, rfl⟩ ⟨rfl, by decide, rfl⟩ (by decide) (by decide)
    (forall_mem_cons.mpr ⟨by decide, forall_mem_singleton.mpr (by decide)⟩)
  exact ⟨t, hrun, hlist, hdes⟩

end Kin

end AtomOs
