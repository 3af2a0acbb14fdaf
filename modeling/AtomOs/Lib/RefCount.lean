import Mathlib.Data.Multiset.Count
import Mathlib.Algebra.BigOperators.Group.Finset.Basic
import Mathlib.Algebra.Order.BigOperators.Group.Finset

/-!
# Reference counts in a forest

Objects have addresses; each has a parent, which is an older object, or none (address 0). An object
is alive while its count is positive. What keeps it alive are the references to it, a multiset of
addresses, and its live children, each of which refers to its parent.

`Counted` says that every count is the number of those. The ways in which counts and references
move together are `Counted.take`, `.drop`, `.die` and `.wake`. Two facts make the invariant useful
to a program with small counters and many ways through it:

* **`Counted.le_refs`**: no count is more than twice the number of references, however many
  objects there are;
* **`Counted.unique`**: the references determine all counts.
-/

namespace AtomOs.Lib

open Multiset Finset

/-- The live objects below `n` with parent `p`. -/
def liveChildren (parent count : Nat → Nat) (n p : Nat) : Finset Nat :=
  (Finset.range n).filter fun q => 0 < count q ∧ parent q = p

/-- Every count is the number of references and live children; parents are older. -/
structure Counted (parent count : Nat → Nat) (n : Nat) (refs : Multiset Nat) : Prop where
  older : ∀ q, 0 < count q → parent q < q ∧ q < n
  count_eq : ∀ p, 0 < p → count p = refs.count p + (liveChildren parent count n p).card

def setCount (count : Nat → Nat) (p k : Nat) : Nat → Nat := fun q => if q = p then k else count q

@[simp] theorem setCount_same (count : Nat → Nat) (p k : Nat) : setCount count p k p = k := by
  simp [setCount]

variable {k q n' : Nat} {parent' count' : Nat → Nat}

theorem setCount_ne {count : Nat → Nat} {p : Nat} (h : q ≠ p) : setCount count p k q = count q := by
  simp [setCount, h]

theorem mem_liveChildren {parent count : Nat → Nat} {n p : Nat} :
    q ∈ liveChildren parent count n p ↔ q < n ∧ 0 < count q ∧ parent q = p := by
  simp [liveChildren]

variable {parent count : Nat → Nat} {n : Nat} {refs : Multiset Nat} {p : Nat}

namespace Counted

variable (h : Counted parent count n refs)
include h

theorem count_zero : count 0 = 0 :=
  Nat.eq_zero_of_not_pos fun hc => absurd (h.older 0 hc).1 (Nat.not_lt_zero _)

theorem pos_of_live (hlive : 0 < count p) : 0 < p :=
  Nat.pos_of_ne_zero fun hp => by rw [hp, h.count_zero] at hlive; exact absurd hlive (by simp)

theorem live_of_ref (hp : 0 < p) (href : p ∈ refs) : 0 < count p := by
  rw [h.count_eq p hp]
  exact Nat.add_pos_left (count_pos.mpr href) _

theorem live_of_child (hlive : 0 < count q) (hp : 0 < parent q) : 0 < count (parent q) := by
  rw [h.count_eq _ hp]
  refine Nat.add_pos_right _ (card_pos.mpr ⟨q, ?_⟩)
  exact mem_liveChildren.mpr ⟨(h.older q hlive).2, hlive, rfl⟩

/-! ## Moves -/

omit h in
theorem liveChildren_congr
    (hsame : ∀ q < n, 0 < count' q ∧ parent' q = p ↔ 0 < count q ∧ parent q = p) :
    liveChildren parent' count' n p = liveChildren parent count n p := by
  apply Finset.ext
  intro q
  rw [mem_liveChildren, mem_liveChildren]
  exact ⟨fun hq => ⟨hq.1, (hsame q hq.1).mp hq.2⟩, fun hq => ⟨hq.1, (hsame q hq.1).mpr hq.2⟩⟩

omit h in
theorem liveChildren_setCount {r : Nat} (hk : 0 < k ↔ 0 < count p) :
    liveChildren parent (setCount count p k) n r = liveChildren parent count n r := by
  refine liveChildren_congr fun q _ => ?_
  by_cases hq : q = p
  · rw [hq, setCount_same, hk]
  · rw [setCount_ne hq]

theorem older_setCount (hp : 0 < k → parent p < p ∧ p < n) :
    ∀ q, 0 < setCount count p k q → parent q < q ∧ q < n := by
  intro q hq
  by_cases hqp : q = p
  · rw [hqp, setCount_same] at hq
    exact hqp ▸ hp hq
  · rw [setCount_ne hqp] at hq
    exact h.older q hq

theorem take (hlive : 0 < count p) :
    Counted parent (setCount count p (count p + 1)) n (p ::ₘ refs) := by
  refine ⟨h.older_setCount fun _ => h.older p hlive, fun r hr => ?_⟩
  rw [liveChildren_setCount (iff_of_true (Nat.succ_pos _) hlive), count_cons]
  by_cases hrp : r = p
  · rw [if_pos hrp, hrp, setCount_same, h.count_eq p (h.pos_of_live hlive)]
    omega
  · rw [if_neg hrp, setCount_ne hrp, h.count_eq r hr]
    omega

/-- Renumbering: the objects may have other parents as long as the live ones have not, and there
    may be room for more. -/
theorem congr (hn : n ≤ n')
    (hparent : ∀ q, 0 < count q → parent' q = parent q) : Counted parent' count n' refs := by
  refine ⟨fun q hq => ?_, fun r hr => ?_⟩
  · rw [hparent q hq]
    exact ⟨(h.older q hq).1, Nat.lt_of_lt_of_le (h.older q hq).2 hn⟩
  · have hsame : liveChildren parent' count n' r = liveChildren parent count n r := by
      apply Finset.ext
      intro q
      rw [mem_liveChildren, mem_liveChildren]
      constructor
      · intro hq
        exact ⟨(h.older q hq.2.1).2, hq.2.1, (hparent q hq.2.1).symm.trans hq.2.2⟩
      · intro hq
        exact ⟨Nat.lt_of_lt_of_le hq.1 hn, hq.2.1, (hparent q hq.2.1).trans hq.2.2⟩
    rw [hsame, h.count_eq r hr]

end Counted

theorem Counted.drop (h : Counted parent count n (p ::ₘ refs)) (hcount : 1 < count p) :
    Counted parent (setCount count p (count p - 1)) n refs := by
  have hlive : 0 < count p := Nat.lt_of_succ_lt hcount
  refine ⟨h.older_setCount fun _ => h.older p hlive, fun r hr => ?_⟩
  rw [Counted.liveChildren_setCount (iff_of_true (Nat.sub_pos_of_lt hcount) hlive)]
  have heq := h.count_eq r hr
  rw [count_cons] at heq
  by_cases hrp : r = p
  · rw [if_pos hrp, hrp] at heq
    rw [hrp, setCount_same]
    omega
  · rw [if_neg hrp] at heq
    rw [setCount_ne hrp]
    omega

/-- The last reference goes: the object dies, and what it referred to its parent by is now a
    reference to be dropped in turn. -/
theorem Counted.die (h : Counted parent count n (p ::ₘ refs)) (hcount : count p = 1) :
    Counted parent (setCount count p 0) n (parent p ::ₘ refs) := by
  have hlive : 0 < count p := by omega
  refine ⟨h.older_setCount fun h0 => absurd h0 (Nat.lt_irrefl 0), fun r hr => ?_⟩
  have herase : liveChildren parent (setCount count p 0) n r =
      (liveChildren parent count n r).erase p := by
    apply Finset.ext
    intro q
    rw [mem_erase, mem_liveChildren, mem_liveChildren]
    by_cases hqp : q = p
    · simp [hqp]
    · simp [hqp, setCount_ne hqp]
  have heq := h.count_eq r hr
  rw [count_cons] at heq
  rw [herase, count_cons]
  by_cases hrp : r = p
  · have hnot : p ∉ liveChildren parent count n p := fun hc =>
      absurd (mem_liveChildren.mp hc).2.2 (Nat.ne_of_lt (h.older p hlive).1)
    rw [if_pos hrp, hrp] at heq
    rw [hrp, setCount_same, erase_eq_of_notMem hnot,
      if_neg (Nat.ne_of_gt (h.older p hlive).1)]
    omega
  · rw [if_neg hrp] at heq
    rw [setCount_ne hrp]
    by_cases hrpar : r = parent p
    · have hmem : p ∈ liveChildren parent count n r :=
        mem_liveChildren.mpr ⟨(h.older p hlive).2, hlive, hrpar.symm⟩
      have hcard := card_pos.mpr ⟨p, hmem⟩
      rw [if_pos hrpar, card_erase_of_mem hmem]
      omega
    · have hnot : p ∉ liveChildren parent count n r := fun hc =>
        hrpar (mem_liveChildren.mp hc).2.2.symm
      rw [if_neg hrpar, erase_eq_of_notMem hnot]
      omega

/-- A dead object comes to life with one reference, for which it takes one of its parent's. -/
theorem Counted.wake (h : Counted parent count n (parent p ::ₘ refs)) (hdead : count p = 0)
    (hp : parent p < p) (hn : p < n) :
    Counted parent (setCount count p 1) n (p ::ₘ refs) := by
  refine ⟨h.older_setCount fun _ => ⟨hp, hn⟩, fun r hr => ?_⟩
  have hinsert : liveChildren parent (setCount count p 1) n r =
      if r = parent p then insert p (liveChildren parent count n r)
      else liveChildren parent count n r := by
    apply Finset.ext
    intro q
    split
    · rename_i hrpar
      rw [mem_insert, mem_liveChildren, mem_liveChildren]
      by_cases hqp : q = p
      · simp [hqp, hn, hrpar]
      · simp [hqp, setCount_ne hqp]
    · rename_i hrpar
      rw [mem_liveChildren, mem_liveChildren]
      by_cases hqp : q = p
      · simp [hqp, hdead, Ne.symm hrpar]
      · simp [setCount_ne hqp]
  have hnot : p ∉ liveChildren parent count n r := fun hc =>
    absurd (mem_liveChildren.mp hc).2.1 (by omega)
  have heq := h.count_eq r hr
  rw [count_cons] at heq
  rw [hinsert, count_cons]
  by_cases hrp : r = p
  · have hne : ¬ r = parent p := by omega
    rw [if_neg hne] at heq ⊢
    rw [if_pos hrp, hrp, setCount_same]
    rw [hrp] at heq
    omega
  · rw [if_neg hrp, setCount_ne hrp]
    by_cases hrpar : r = parent p
    · rw [if_pos hrpar] at heq ⊢
      rw [card_insert_of_notMem hnot]
      omega
    · rw [if_neg hrpar] at heq ⊢
      omega

/-! ## Counts are small -/

/-- The live objects from `k` on whose parents are before `k`. -/
def frontier (parent count : Nat → Nat) (n k : Nat) : Finset Nat :=
  (Finset.range n).filter fun q => k ≤ q ∧ 0 < count q ∧ parent q < k

theorem mem_frontier :
    q ∈ frontier parent count n k ↔ q < n ∧ k ≤ q ∧ 0 < count q ∧ parent q < k := by
  simp [frontier]

theorem countP_succ (refs : Multiset Nat) (k : Nat) :
    refs.countP (k ≤ ·) = refs.countP (k + 1 ≤ ·) + refs.count k := by
  induction refs using Multiset.induction_on with
  | empty => rfl
  | cons a refs ih =>
    rw [countP_cons, countP_cons, count_cons, ih]
    split_ifs <;> omega

/-- Each object of a frontier has a reference of its own, to itself or to something below it.
    Going down, an object takes the place of its children, of which there is one if there is no
    reference to it. -/
theorem Counted.frontier_le (h : Counted parent count n refs) (k : Nat) (hk : 0 < k) :
    (frontier parent count n k).card ≤ refs.countP (k ≤ ·) := by
  by_cases hkn : n ≤ k
  · have hempty : frontier parent count n k = ∅ := by
      apply eq_empty_of_forall_notMem
      intro q hq
      have := mem_frontier.mp hq
      omega
    rw [hempty, card_empty]
    exact Nat.zero_le _
  have ih := h.frontier_le (k + 1) (Nat.succ_pos k)
  rw [countP_succ]
  have hsub : ∀ q ∈ frontier parent count n k, q ≠ k → q ∈ frontier parent count n (k + 1) := by
    intro q hq hne
    have := mem_frontier.mp hq
    exact mem_frontier.mpr ⟨this.1, by omega, this.2.2.1, by omega⟩
  by_cases hlive : 0 < count k
  · have heq := h.count_eq k hk
    have hins : frontier parent count n k ⊆ insert k (frontier parent count n (k + 1)) := by
      intro q hq
      by_cases hqk : q = k
      · exact mem_insert.mpr (.inl hqk)
      · exact mem_insert_of_mem (hsub q hq hqk)
    by_cases hchild : (liveChildren parent count n k).Nonempty
    · obtain ⟨c, hc⟩ := hchild
      obtain ⟨hcn, hclive, hcpar⟩ := mem_liveChildren.mp hc
      have hck := (h.older c hclive).1
      have hmem : c ∈ frontier parent count n (k + 1) :=
        mem_frontier.mpr ⟨hcn, by omega, hclive, by omega⟩
      have hins' : frontier parent count n k ⊆
          insert k ((frontier parent count n (k + 1)).erase c) := by
        intro q hq
        have hqc : q ≠ c := fun he => by
          have := (mem_frontier.mp hq).2.2.2
          rw [he, hcpar] at this
          exact absurd this (Nat.lt_irrefl k)
        rcases mem_insert.mp (hins hq) with hqk | hq'
        · exact mem_insert.mpr (.inl hqk)
        · exact mem_insert_of_mem (mem_erase.mpr ⟨hqc, hq'⟩)
      have hcard := (card_le_card hins').trans (card_insert_le _ _)
      have hpos := card_pos.mpr ⟨c, hmem⟩
      rw [card_erase_of_mem hmem] at hcard
      omega
    · rw [not_nonempty_iff_eq_empty.mp hchild, card_empty] at heq
      have hcard := (card_le_card hins).trans (card_insert_le _ _)
      omega
  · have hsub' : frontier parent count n k ⊆ frontier parent count n (k + 1) := by
      intro q hq
      refine hsub q hq fun hqk => ?_
      rw [← hqk] at hlive
      exact hlive (mem_frontier.mp hq).2.2.1
    have hcard := card_le_card hsub'
    omega
termination_by n - k

/-- **Counts are small.** There are no more live children of one object than references. -/
theorem Counted.le_refs (h : Counted parent count n refs) (p : Nat) : count p ≤ 2 * refs.card := by
  by_cases hp : 0 < p
  · have hsub : liveChildren parent count n p ⊆ frontier parent count n (p + 1) := by
      intro q hq
      obtain ⟨hqn, hlive, hpar⟩ := mem_liveChildren.mp hq
      have := (h.older q hlive).1
      exact mem_frontier.mpr ⟨hqn, by omega, hlive, by omega⟩
    have hchildren := (card_le_card hsub).trans (h.frontier_le (p + 1) (Nat.succ_pos p))
    have hle := hchildren.trans (countP_le_card _ _)
    have hrefs := count_le_card p refs
    rw [h.count_eq p hp]
    omega
  · rw [Nat.eq_zero_of_not_pos hp, h.count_zero]
    exact Nat.zero_le _

/-! ## Counts are determined -/

/-- **The references determine the counts**, as long as the objects have the same parents. -/
theorem Counted.unique (h : Counted parent count n refs) (h' : Counted parent' count' n' refs)
    (hparent : ∀ q, 0 < count q → 0 < count' q → parent' q = parent q) :
    ∀ p, count' p = count p := by
  -- Children have higher addresses, so the induction comes down from where nothing is alive.
  have hdown : ∀ j p, n + n' ≤ p + j → count' p = count p := by
    intro j
    induction j with
    | zero =>
      intro p hp
      have hdead : ¬ 0 < count p := fun hc => by
        have := (h.older p hc).2
        omega
      have hdead' : ¬ 0 < count' p := fun hc => by
        have := (h'.older p hc).2
        omega
      omega
    | succ j ih =>
      intro p hp
      by_cases hp0 : 0 < p
      · rw [h.count_eq p hp0, h'.count_eq p hp0]
        have hsame : liveChildren parent' count' n' p = liveChildren parent count n p := by
          apply Finset.ext
          intro q
          rw [mem_liveChildren, mem_liveChildren]
          constructor
          · rintro ⟨-, hlive', hpar'⟩
            have hq := ih q (by have := (h'.older q hlive').1; omega)
            have hlive : 0 < count q := hq ▸ hlive'
            exact ⟨(h.older q hlive).2, hlive, (hparent q hlive hlive').symm.trans hpar'⟩
          · rintro ⟨-, hlive, hpar⟩
            have hq := ih q (by have := (h.older q hlive).1; omega)
            have hlive' : 0 < count' q := hq.symm ▸ hlive
            exact ⟨(h'.older q hlive').2, hlive', (hparent q hlive hlive').trans hpar⟩
        rw [hsame]
      · rw [Nat.eq_zero_of_not_pos hp0, h.count_zero, h'.count_zero]
  exact fun p => hdown (n + n') p (by omega)

end AtomOs.Lib
