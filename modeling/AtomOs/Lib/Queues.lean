import AtomOs.Lib.DList
import Mathlib.Logic.Function.Basic

/-!
# Queues that share their links

A kernel keeps a thread on at most one queue at a time, and therefore gives it one pair of link
fields for all the queues there are. `Queues ι α` is such a family: the links of the cells, and for
each queue its first and last cell.

`Queues.Holds F q` says that the queues are the lists `q`, and that no cell is on two of them. The
operations are the ones C code has: append a cell, take the first one, take one out wherever it is.
Each is shown to do to the lists what it says, **and to leave every other queue as it is**, which
is what sharing the links puts at risk.
-/

namespace AtomOs.Lib

open Function List

/-- The links of all cells, and the ends of every queue. -/
structure Queues (ι α : Type*) where
  next : α → Option α
  prev : α → Option α
  head : ι → Option α
  tail : ι → Option α

namespace Queues

variable {ι α : Type*} [DecidableEq ι] [DecidableEq α]

/-- `t` goes to the end of the queue `i`. -/
def append (F : Queues ι α) (i : ι) (t : α) : Queues ι α where
  next := store (store F.next (some t) none) (F.tail i) (some t)
  prev := store F.prev (some t) (F.tail i)
  head := if F.tail i = none then Function.update F.head i (some t) else F.head
  tail := Function.update F.tail i (some t)

/-- The first cell leaves the queue `i`; its links are cleared. -/
def take (F : Queues ι α) (i : ι) : Option α × Queues ι α :=
  match F.head i with
  | none => (none, F)
  | some t =>
    (some t,
      { next := store F.next (some t) none
        prev := store (store F.prev (F.next t) none) (some t) none
        head := Function.update F.head i (F.next t)
        tail := if F.next t = none then Function.update F.tail i none else F.tail })

/-- `t` leaves the queue `i`. Its own links stay. -/
def unlink (F : Queues ι α) (i : ι) (t : α) : Queues ι α where
  next := store F.next (F.prev t) (F.next t)
  prev := store F.prev (F.next t) (F.prev t)
  head := if F.prev t = none then Function.update F.head i (F.next t) else F.head
  tail := if F.next t = none then Function.update F.tail i (F.prev t) else F.tail

/-- The links of `t` are cleared. -/
def clear (F : Queues ι α) (t : α) : Queues ι α :=
  { F with next := store F.next (some t) none
           prev := store F.prev (some t) none }

/-- The queues are the lists `q`, and no cell is on two of them. -/
structure Holds (F : Queues ι α) (q : ι → List α) : Prop where
  list : ∀ i, DList F.next F.prev (F.head i) none (q i)
  tail : ∀ i, F.tail i = (q i).getLast?
  nodup : ∀ i, (q i).Nodup
  apart : ∀ {i j x}, x ∈ q i → x ∈ q j → i = j

variable {F G : Queues ι α} {q : ι → List α} {i : ι} {t : α}

omit [DecidableEq α] in
theorem ite_update_of_ne {c : Prop} [Decidable c] {f : ι → Option α} {v : Option α} {j : ι}
    (hj : j ≠ i) : (if c then update f i v else f) j = f j := by
  split
  · exact update_of_ne hj _ _
  · rfl

omit [DecidableEq ι] [DecidableEq α] in
theorem Holds.outside (h : F.Holds q) (hhead : G.head = F.head) (htail : G.tail = F.tail)
    (hnext : ∀ i, ∀ x ∈ q i, G.next x = F.next x) (hprev : ∀ i, ∀ x ∈ q i, G.prev x = F.prev x) :
    G.Holds q := by
  refine ⟨fun i => ?_, fun i => ?_, h.nodup, h.apart⟩
  · rw [hhead]
    exact (h.list i).congr (hnext i) (hprev i)
  · rw [htail]
    exact h.tail i

omit [DecidableEq ι] in
theorem Holds.clear (h : F.Holds q) (ht : ∀ i, t ∉ q i) : (F.clear t).Holds q := by
  have hne : ∀ i, ∀ x ∈ q i, some x ≠ some t := fun i x hx he => ht i (Option.some.inj he ▸ hx)
  exact h.outside rfl rfl (fun i x hx => store_of_ne (hne i x hx))
    fun i x hx => store_of_ne (hne i x hx)

omit [DecidableEq α] in
theorem Holds.change (h : F.Holds q) {l : List α} (hlist : DList G.next G.prev (G.head i) none l)
    (htail : G.tail i = l.getLast?) (hnodup : l.Nodup) (hfresh : ∀ x ∈ l, ∀ j, j ≠ i → x ∉ q j)
    (hhead' : ∀ j, j ≠ i → G.head j = F.head j) (htail' : ∀ j, j ≠ i → G.tail j = F.tail j)
    (hnext : ∀ j, j ≠ i → ∀ x ∈ q j, G.next x = F.next x)
    (hprev : ∀ j, j ≠ i → ∀ x ∈ q j, G.prev x = F.prev x) :
    G.Holds (update q i l) := by
  refine ⟨?_, ?_, ?_, ?_⟩
  · refine (forall_update_iff q fun j l => DList G.next G.prev (G.head j) none l).mpr
      ⟨hlist, fun j hj => ?_⟩
    rw [hhead' j hj]
    exact (h.list j).congr (hnext j hj) (hprev j hj)
  · refine (forall_update_iff q fun j l => G.tail j = l.getLast?).mpr ⟨htail, fun j hj => ?_⟩
    rw [htail' j hj]
    exact h.tail j
  · exact (forall_update_iff q fun _ l => l.Nodup).mpr ⟨hnodup, fun j _ => h.nodup j⟩
  · intro j k x hxj hxk
    by_cases hj : j = i
    · subst hj
      by_cases hk : k = j
      · exact hk.symm
      · rw [update_self] at hxj
        rw [update_of_ne hk] at hxk
        exact absurd hxk (hfresh x hxj k hk)
    · rw [update_of_ne hj] at hxj
      by_cases hk : k = i
      · subst hk
        rw [update_self] at hxk
        exact absurd hxj (hfresh x hxk j hj)
      · rw [update_of_ne hk] at hxk
        exact h.apart hxj hxk

omit [DecidableEq ι] [DecidableEq α] in
theorem Holds.tail_none (h : F.Holds q) : F.tail i = none ↔ q i = [] := by
  rw [h.tail, getLast?_eq_none_iff]

/-- **A cell that is on no queue goes to the end of one.** -/
theorem Holds.append (h : F.Holds q) (ht : ∀ j, t ∉ q j) :
    (F.append i t).Holds (update q i (q i ++ [t])) := by
  have hne : ∀ j, ∀ x ∈ q j, some x ≠ some t := fun j x hx he => ht j (Option.some.inj he ▸ hx)
  have hlast : ∀ j, j ≠ i → ∀ x ∈ q j, some x ≠ F.tail i := by
    intro j hj x hx he
    rw [h.tail] at he
    exact hj (h.apart hx (mem_of_getLast? he.symm))
  refine h.change ?_ ?_ ?_ ?_ ?_ ?_ ?_ ?_
  · have happ := (h.list i).append (ht i) (h.nodup i) (by simp)
    rw [Option.or_none, ← h.tail i] at happ
    show DList _ _ ((if F.tail i = none then _ else _ : ι → Option α) i) none _
    by_cases hnil : q i = []
    · rw [if_pos (h.tail_none.mpr hnil), update_self]
      rw [if_pos hnil] at happ
      exact happ
    · rw [if_neg (mt h.tail_none.mp hnil)]
      rw [if_neg hnil] at happ
      exact happ
  · show update F.tail i (some t) i = _
    rw [update_self, getLast?_append]
    rfl
  · refine nodup_append.mpr ⟨h.nodup i, nodup_singleton t, fun x hx y hy he => ?_⟩
    rw [mem_singleton] at hy
    exact ht i (hy ▸ he ▸ hx)
  · intro x hx j hj hxj
    rcases mem_append.mp hx with hx | hx
    · exact hj (h.apart hxj hx)
    · rw [mem_singleton] at hx
      exact ht j (hx ▸ hxj)
  · exact fun j hj => ite_update_of_ne hj
  · exact fun j hj => update_of_ne hj _ _
  · intro j hj x hx
    show store _ (F.tail i) _ x = _
    rw [store_of_ne (hlast j hj x hx), store_of_ne (hne j x hx)]
  · intro j hj x hx
    exact store_of_ne (hne j x hx)

omit [DecidableEq ι] [DecidableEq α] in
theorem Holds.next_mem (h : F.Holds q) {x y : α} (hx : x ∈ q i) (hy : F.next x = some y) :
    y ∈ q i := mem_of_mem_tail ((h.list i).next_mem hx hy)

omit [DecidableEq ι] [DecidableEq α] in
theorem Holds.prev_mem (h : F.Holds q) {x y : α} (hx : x ∈ q i) (hy : F.prev x = some y) :
    y ∈ q i := by
  rcases (h.list i).prev_mem hx with ⟨hnone, -⟩ | ⟨z, hz, hp⟩
  · rw [hnone] at hy
    cases hy
  · rw [hp] at hy
    exact Option.some.inj hy ▸ hz

/-- **A cell leaves its queue.** -/
theorem Holds.unlink (h : F.Holds q) (ht : t ∈ q i) :
    (F.unlink i t).Holds (update q i ((q i).erase t)) := by
  refine h.change ?_ ?_ ((h.nodup i).erase t) ?_ ?_ ?_ ?_ ?_
  · have hrem := (h.list i).remove (h.nodup i) (by simp) ht
    have hhead : (F.unlink i t).head i = if F.head i = some t then F.next t else F.head i := by
      show (if F.prev t = none then _ else _ : ι → Option α) i = _
      simp only [(h.list i).prev_none ht]
      split
      · exact update_self _ _ _
      · rfl
    rw [hhead]
    exact hrem
  · have hlast := (h.list i).getLast?_erase (h.nodup i) ht
    rw [Option.or_none, Option.or_none, ← h.tail i] at hlast
    rw [hlast]
    show (if F.next t = none then _ else _ : ι → Option α) i = _
    simp only [(h.list i).next_none (h.nodup i) ht, ← h.tail i]
    split
    · exact update_self _ _ _
    · rfl
  · exact fun x hx j hj hxj => hj (h.apart hxj (mem_of_mem_erase hx))
  · exact fun j hj => ite_update_of_ne hj
  · exact fun j hj => ite_update_of_ne hj
  · exact fun j hj x hx => store_of_ne fun he => hj (h.apart hx (h.prev_mem ht he.symm))
  · exact fun j hj x hx => store_of_ne fun he => hj (h.apart hx (h.next_mem ht he.symm))

theorem Holds.not_mem_erase (h : F.Holds q) (ht : t ∈ q i) (j : ι) :
    t ∉ update q i ((q i).erase t) j := by
  by_cases hj : j = i
  · rw [hj, update_self]
    exact (h.nodup i).not_mem_erase
  · rw [update_of_ne hj]
    exact fun htj => hj (h.apart htj ht)

theorem Holds.unlink_clear (h : F.Holds q) (ht : t ∈ q i) :
    ((F.unlink i t).clear t).Holds (update q i ((q i).erase t)) :=
  (h.unlink ht).clear (h.not_mem_erase ht)

omit [DecidableEq ι] [DecidableEq α] in
theorem Holds.head_eq (h : F.Holds q) (i : ι) : F.head i = (q i).head? := (h.list i).head_eq

theorem Holds.take_nil (h : F.Holds q) (hq : q i = []) : F.take i = (none, F) := by
  have hhead := h.head_eq i
  rw [hq] at hhead
  unfold Queues.take
  rw [hhead]
  rfl

/-- **The first cell leaves its queue.** -/
theorem Holds.take (h : F.Holds q) {l : List α} (hq : q i = t :: l) :
    (F.take i).1 = some t ∧ (F.take i).2.Holds (update q i l) := by
  have hlist := h.list i
  have hnd := h.nodup i
  have hhead := h.head_eq i
  have htail := h.tail i
  rw [hq] at hlist hnd hhead htail
  have ht : t ∈ q i := by
    rw [hq]
    exact mem_cons_self
  obtain ⟨htl, hndl⟩ := nodup_cons.mp hnd
  have hnext : F.next t = l.head? := hlist.2.2.head_eq
  have hne : ∀ j, j ≠ i → ∀ x ∈ q j, some x ≠ some t := fun j hj x hx he =>
    hj (h.apart hx (Option.some.inj he ▸ ht))
  unfold Queues.take
  rw [hhead]
  refine ⟨rfl, h.change ?_ ?_ hndl ?_ ?_ ?_ ?_ ?_⟩
  · have hpop := hlist.pop none none hnd
    rw [← hnext] at hpop
    show DList (store F.next (some t) none) (store (store F.prev (F.next t) none) (some t) none)
      (update F.head i (F.next t) i) none l
    rw [update_self]
    exact hpop
  · show (if F.next t = none then _ else _ : ι → Option α) i = _
    rw [hnext]
    cases l with
    | nil =>
      exact update_self _ _ _
    | cons y l =>
      rw [if_neg (by simp), htail, getLast?_cons_cons]
  · intro x hx j hj hxj
    refine hj (h.apart hxj ?_)
    rw [hq]
    exact mem_cons_of_mem _ hx
  · exact fun j hj => update_of_ne hj _ _
  · exact fun j hj => ite_update_of_ne hj
  · exact fun j hj x hx => store_of_ne (hne j hj x hx)
  · intro j hj x hx
    show store (store F.prev (F.next t) none) (some t) none x = _
    rw [store_of_ne (hne j hj x hx)]
    exact store_of_ne fun he => hj (h.apart hx (h.next_mem ht he.symm))

/-- **A cell that is on no queue goes to the front of one.** -/
theorem Holds.push (h : F.Holds q) (ht : ∀ j, t ∉ q j)
    (hnext : G.next = store F.next (some t) (F.head i))
    (hprev : G.prev = store (store F.prev (F.head i) (some t)) (some t) none)
    (hhead : G.head = update F.head i (some t))
    (htail : G.tail = update F.tail i (t :: q i).getLast?) :
    G.Holds (update q i (t :: q i)) := by
  have hne : ∀ j, ∀ x ∈ q j, some x ≠ some t := fun j x hx he => ht j (Option.some.inj he ▸ hx)
  have hfirst : ∀ j, j ≠ i → ∀ x ∈ q j, some x ≠ F.head i := by
    intro j hj x hx he
    rw [h.head_eq] at he
    exact hj (h.apart hx (mem_of_head? he.symm))
  have hcell : F.head i ≠ some t := by
    rw [h.head_eq]
    exact fun he => ht i (mem_of_head? he)
  refine h.change ?_ ?_ (nodup_cons.mpr ⟨ht i, h.nodup i⟩) ?_ ?_ ?_ ?_ ?_
  · have hpush := (h.list i).push (h.nodup i) (ht i)
    rw [hnext, hprev, hhead, update_self, store_comm hcell]
    exact hpush
  · rw [htail, update_self]
  · intro x hx j hj
    rcases mem_cons.mp hx with rfl | hx
    · exact ht j
    · exact fun hxj => hj (h.apart hxj hx)
  · intro j hj
    rw [hhead, update_of_ne hj]
  · intro j hj
    rw [htail, update_of_ne hj]
  · intro j hj x hx
    rw [hnext]
    exact store_of_ne (hne j x hx)
  · intro j hj x hx
    rw [hprev, store_of_ne (hne j x hx)]
    exact store_of_ne (hfirst j hj x hx)

/-! ## A list whose head is elsewhere

A list through the same links that is not one of the queues can be looked at as one: the operations
on the other queues do not see it. -/

/-- The queue `i` is the one with this head and tail. -/
def setQueue (F : Queues ι α) (i : ι) (head tail : Option α) : Queues ι α :=
  { F with head := Function.update F.head i head, tail := Function.update F.tail i tail }

omit [DecidableEq α] in
theorem Holds.setQueue_nil (h : F.Holds q) : (F.setQueue i none none).Holds (update q i []) :=
  h.change (update_self _ _ _) (update_self _ _ _) nodup_nil (by simp)
    (fun _ hj => update_of_ne hj _ _) (fun _ hj => update_of_ne hj _ _)
    (fun _ _ _ _ => rfl) fun _ _ _ _ => rfl

omit [DecidableEq α] in
theorem setQueue_setQueue (F : Queues ι α) (i : ι) (h h' t t' : Option α) :
    (F.setQueue i h t).setQueue i h' t' = F.setQueue i h' t' := by
  unfold setQueue
  simp only [update_idem]

omit [DecidableEq α] in
theorem Holds.setQueue_self (h : F.Holds q) : F.setQueue i (q i).head? (q i).getLast? = F := by
  unfold setQueue
  rw [← h.head_eq, ← h.tail, update_eq_self, update_eq_self]

variable {j : ι} {h₀ t₀ : Option α}

theorem append_setQueue (hij : i ≠ j) :
    (F.setQueue j h₀ t₀).append i t = (F.append i t).setQueue j h₀ t₀ := by
  unfold append setQueue
  simp only [update_of_ne hij]
  split
  · rw [update_comm hij, update_comm hij]
  · rw [update_comm hij]

theorem unlink_setQueue (hij : i ≠ j) :
    (F.setQueue j h₀ t₀).unlink i t = (F.unlink i t).setQueue j h₀ t₀ := by
  unfold unlink setQueue
  split <;> split
  · rw [update_comm hij, update_comm hij]
  · rw [update_comm hij]
  · rw [update_comm hij]
  · rfl

theorem take_setQueue (hij : i ≠ j) :
    (F.setQueue j h₀ t₀).take i = ((F.take i).1, (F.take i).2.setQueue j h₀ t₀) := by
  unfold take setQueue
  simp only [update_of_ne hij]
  cases F.head i with
  | none => rfl
  | some x =>
    simp only
    split
    · rw [update_comm hij, update_comm hij]
    · rw [update_comm hij]

end Queues

end AtomOs.Lib
