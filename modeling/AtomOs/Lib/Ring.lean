import Mathlib.Data.List.Basic
import Mathlib.Tactic.SplitIfs

/-!
# Circular buffers

A circular buffer is an array of `n` cells with a head and a tail index. The elements are in the
cells from the head up to the tail, going round; head and tail on one cell mean that it is empty,
so that one of the cells is never used.

`RingHolds buf n head tail q` says that the elements are `q`. The lemmas are the operations: a store
at the tail (`RingHolds.push`), a step of the head forwards (by definition), and how long `q` is
(`RingHolds.length_eq`).
-/

namespace AtomOs.Lib

variable {α : Type*}

/-- The cells from `head` up to `tail`, going round after `n`, hold `q`. -/
def RingHolds (buf : Nat → α) (n : Nat) : Nat → Nat → List α → Prop
  | head, tail, [] => head = tail
  | head, tail, x :: q => head ≠ tail ∧ buf head = x ∧ RingHolds buf n ((head + 1) % n) tail q

variable {buf buf' : Nat → α} {n head tail : Nat} {q : List α} {x : α}

theorem succ_mod_eq (h : head < n) : (head + 1) % n = if head + 1 = n then 0 else head + 1 := by
  split
  · rename_i he
    rw [he, Nat.mod_self]
  · exact Nat.mod_eq_of_lt (by omega)

theorem succ_mod_lt (h : head < n) : (head + 1) % n < n := Nat.mod_lt _ (by omega)

theorem succ_mod_inj (hh : head < n) (ht : tail < n) (he : (head + 1) % n = (tail + 1) % n) :
    head = tail := by
  rw [succ_mod_eq hh, succ_mod_eq ht] at he
  split at he <;> split at he <;> omega

theorem RingHolds.nil_iff (h : RingHolds buf n head tail q) : q = [] ↔ head = tail := by
  cases q with
  | nil => exact iff_of_true rfl h
  | cons x q => exact iff_of_false (by simp) h.1

theorem RingHolds.length_eq : ∀ {q : List α} {head : Nat}, RingHolds buf n head tail q → head < n →
    tail < n → q.length = if head ≤ tail then tail - head else tail + n - head
  | [], head, h, _, _ => by
    obtain rfl : head = tail := h
    simp
  | x :: q, head, h, hh, ht => by
    obtain ⟨hne, -, hrest⟩ := h
    have ih := RingHolds.length_eq hrest (succ_mod_lt hh) ht
    rw [succ_mod_eq hh] at ih
    rw [List.length_cons, ih]
    split_ifs <;> omega

theorem RingHolds.full_iff (h : RingHolds buf n head tail q) (hh : head < n) (ht : tail < n) :
    (tail + 1) % n = head ↔ q.length + 1 = n := by
  rw [succ_mod_eq ht, h.length_eq hh ht]
  split <;> split <;> omega

theorem RingHolds.congr : ∀ {q : List α} {head : Nat}, RingHolds buf n head tail q → head < n →
    (∀ i < n, i ≠ tail → buf' i = buf i) → RingHolds buf' n head tail q
  | [], _, h, _, _ => h
  | x :: q, head, h, hh, hbuf => by
    obtain ⟨hne, hx, hrest⟩ := h
    exact ⟨hne, (hbuf head hh hne).trans hx, hrest.congr (succ_mod_lt hh) hbuf⟩

/-- **A store at the tail** of a buffer that is not full puts an element behind the others. -/
theorem RingHolds.push : ∀ {q : List α} {head : Nat}, RingHolds buf n head tail q → head < n →
    tail < n → (tail + 1) % n ≠ head →
      RingHolds (fun i => if i = tail then x else buf i) n head ((tail + 1) % n) (q ++ [x])
  | [], head, h, _, _, hfull => by
    obtain rfl : head = tail := h
    exact ⟨fun he => hfull he.symm, if_pos rfl, rfl⟩
  | y :: q, head, h, hh, ht, hfull => by
    obtain ⟨hne, hy, hrest⟩ := h
    refine ⟨fun he => hfull he.symm, ?_, ?_⟩
    · exact (if_neg hne).trans hy
    · exact hrest.push (succ_mod_lt hh) ht fun he => hne (succ_mod_inj ht hh he).symm

end AtomOs.Lib
