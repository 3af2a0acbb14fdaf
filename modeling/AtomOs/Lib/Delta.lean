import Mathlib.Algebra.BigOperators.Group.List.Basic
import Mathlib.Tactic.Linarith
import Mathlib.Tactic.Ring

/-!
# Delta-encoded lists

A list of values can be kept as differences: every cell holds how much its value is above that of
the cell before it, the first one how much above `base`. Lowering all the values by a constant then
costs one store, and putting a cell in or out costs one store at its successor.

`Deltas count val base l` says that the differences `count` encode the values `val` along `l`.
-/

namespace AtomOs.Lib

variable {α : Type*}

/-- The differences `count` encode the values `val` along the list. -/
def Deltas (count val : α → Int) : Int → List α → Prop
  | _, [] => True
  | base, x :: l => count x = val x - base ∧ Deltas count val (val x) l

/-- The value of the last cell, `base` if there is none. -/
def lastVal (val : α → Int) (base : Int) (l : List α) : Int := (l.getLast?.map val).getD base

theorem lastVal_nil (val : α → Int) (base : Int) : lastVal val base [] = base := rfl

theorem lastVal_cons (val : α → Int) (base : Int) (x : α) (l : List α) :
    lastVal val base (x :: l) = lastVal val (val x) l := by
  unfold lastVal
  rw [List.getLast?_cons]
  cases l.getLast? <;> rfl

variable {count count' val val' : α → Int} {base : Int} {l l₂ : List α} {x : α}

theorem Deltas.head (h : Deltas count val base l) (hx : l.head? = some x) :
    count x = val x - base := by
  cases l with
  | nil => cases hx
  | cons y l =>
    cases hx
    exact h.1

theorem lt_of_lt_head {m : Int} (hmono : l.Pairwise fun x y => val x ≤ val y)
    (hhead : ∀ y, l.head? = some y → m < val y) : ∀ y ∈ l, m < val y := by
  intro y hy
  cases l with
  | nil => cases hy
  | cons z l =>
    rcases List.mem_cons.mp hy with rfl | hy
    · exact hhead y rfl
    · exact lt_of_lt_of_le (hhead z rfl) (List.rel_of_pairwise_cons hmono hy)

theorem Deltas.congr : ∀ {l : List α} {base : Int}, Deltas count val base l →
    (∀ z ∈ l, count' z = count z) → (∀ z ∈ l, val' z = val z) → Deltas count' val' base l
  | [], _, _, _, _ => trivial
  | x :: l, base, h, hc, hv => by
    have hx := hv x List.mem_cons_self
    refine ⟨?_, ?_⟩
    · rw [hc x List.mem_cons_self, hx]
      exact h.1
    · rw [hx]
      exact h.2.congr (List.forall_mem_cons.mp hc).2
        (List.forall_mem_cons.mp hv).2

theorem Deltas.shift (c : Int) : ∀ {l : List α} {base : Int}, Deltas count val base l →
    (∀ z ∈ l, val' z = val z + c) → Deltas count val' (base + c) l
  | [], _, _, _ => trivial
  | x :: l, base, h, hv => by
    have hx := hv x List.mem_cons_self
    refine ⟨?_, ?_⟩
    · rw [hx, h.1]
      ring
    · rw [hx]
      exact h.2.shift c (List.forall_mem_cons.mp hv).2

theorem deltas_append : ∀ {l1 : List α} {base : Int}, Deltas count val base (l1 ++ l₂) ↔
    Deltas count val base l1 ∧ Deltas count val (lastVal val base l1) l₂
  | [], _ => by simp [Deltas, lastVal_nil]
  | x :: l1, base => by
    rw [lastVal_cons, List.cons_append]
    show _ ∧ Deltas count val (val x) (l1 ++ l₂) ↔ (_ ∧ Deltas count val (val x) l1) ∧ _
    rw [deltas_append, and_assoc]

theorem Deltas.rebase {base' : Int} (h : Deltas count val base l) (hnd : l.Nodup)
    (hhead : ∀ y, l.head? = some y → count' y = count y + base - base')
    (hrest : ∀ z ∈ l, l.head? ≠ some z → count' z = count z) : Deltas count' val base' l := by
  cases l with
  | nil => trivial
  | cons y l =>
    obtain ⟨hy, hl⟩ := h
    refine ⟨?_, hl.congr (fun z hz => hrest z (List.mem_cons_of_mem _ hz) ?_) fun _ _ => rfl⟩
    · rw [hhead y rfl, hy]
      ring
    · intro he
      exact (List.nodup_cons.mp hnd).1 (Option.some.inj he ▸ hz)

end AtomOs.Lib
