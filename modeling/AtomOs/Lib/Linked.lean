import Mathlib.Data.List.Basic
import Mathlib.Data.List.Nodup

/-!
# Linked cells

A singly linked list is a start pointer and a `next` field: the store holds no list,
only cells. `Linked next stop p l` says that following `next` from `p` meets exactly the
cells of `l`, in that order, and then a pointer `stop` accepts (`NULL`, an end mark).

The two loops that C code runs over such a list are here as well, with fuel: `seek`, the
search that keeps the previous cell, and `walk`, the full pass with an accumulator. On a
linked list both end, and their results are stated over `l` (`seek_of_linked`,
`walk_of_linked`), so a caller never unfolds the recursion.
-/

namespace AtomOs.Lib

open List

variable {α β : Type*}

/-- The cells met from `p` are `l`, and the pointer after the last of them stops the walk. -/
def Linked (next : α → α) (stop : α → Prop) : α → List α → Prop
  | p, [] => stop p
  | p, x :: l => p = x ∧ ¬ stop x ∧ Linked next stop (next x) l

variable {next next' : α → α} {stop : α → Prop} {p q x y : α} {l l' l₁ l₂ : List α}

@[simp] theorem linked_nil : Linked next stop p [] ↔ stop p := Iff.rfl

@[simp] theorem linked_cons :
    Linked next stop p (x :: l) ↔ p = x ∧ ¬ stop x ∧ Linked next stop (next x) l := Iff.rfl

theorem Linked.unique : ∀ {l l' : List α} {p : α}, Linked next stop p l →
    Linked next stop p l' → l = l'
  | [], [], _, _, _ => rfl
  | [], _ :: _, _, h, h' => absurd (h'.1 ▸ h) h'.2.1
  | _ :: _, [], _, h, h' => absurd (h.1 ▸ h') h.2.1
  | x :: l, y :: l', p, h, h' => by
    obtain ⟨hx, -, hl⟩ := h
    obtain ⟨hy, -, hl'⟩ := h'
    have hxy : x = y := hx.symm.trans hy
    subst hxy
    rw [Linked.unique hl hl']

theorem Linked.drop : ∀ {l₁ : List α} {p : α}, Linked next stop p (l₁ ++ x :: l₂) →
    Linked next stop x (x :: l₂)
  | [], _, h => ⟨rfl, h.2⟩
  | _ :: _, _, h => Linked.drop h.2.2

theorem Linked.not_stop : ∀ {l : List α} {p : α}, Linked next stop p l → ∀ z ∈ l, ¬ stop z
  | [], _, _ => forall_mem_nil _
  | _ :: _, _, h => forall_mem_cons.mpr ⟨h.2.1, Linked.not_stop h.2.2⟩

theorem Linked.stop_or_mem (h : Linked next stop p l) : stop p ∨ p ∈ l := by
  cases l with
  | nil => exact .inl h
  | cons x l => exact .inr (by simp [h.1])

/-- No cell is met twice: a second visit would make the list after it both shorter than
    and equal to itself. -/
theorem Linked.nodup : ∀ {l : List α} {p : α}, Linked next stop p l → l.Nodup
  | [], _, _ => nodup_nil
  | y :: l, p, h => by
    refine nodup_cons.mpr ⟨fun hy => ?_, Linked.nodup h.2.2⟩
    obtain ⟨a, b, rfl⟩ := append_of_mem hy
    have hrest : Linked next stop y (y :: b) := Linked.drop h.2.2
    have hself : Linked next stop y (y :: (a ++ y :: b)) := ⟨rfl, h.2⟩
    have hlen := congrArg List.length (Linked.unique hself hrest)
    simp at hlen
    omega

/-- A node with another, `a`, before it is not the first, and `a` occurs only there. -/
theorem Linked.behind {a : α} (h : Linked next stop p (l₁ ++ a :: x :: l₂)) :
    x ≠ p ∧ Linked next stop x (x :: l₂) ∧ a ∉ l₁ ∧ a ∉ l₂ := by
  obtain ⟨-, hnd, hapart⟩ := nodup_append.mp h.nodup
  obtain ⟨ha, -⟩ := nodup_cons.mp hnd
  refine ⟨?_, ?_, fun hmem => hapart a hmem a mem_cons_self rfl,
    fun hmem => ha (mem_cons_of_mem _ hmem)⟩
  · cases l₁ with
    | nil => exact fun he => ha (by rw [he, h.1]; exact mem_cons_self)
    | cons z l₁ => exact fun he => hapart z mem_cons_self x (by simp) (h.1.symm.trans he.symm)
  · rw [← singleton_append, ← append_assoc] at h
    exact h.drop

theorem Linked.next_inj (h : Linked next stop p l) (hx : x ∈ l) (hy : y ∈ l)
    (hxy : next x = next y) : x = y := by
  obtain ⟨a, b, rfl⟩ := append_of_mem hx
  obtain ⟨c, d, hcd⟩ := append_of_mem hy
  have hb : Linked next stop (next x) b := (Linked.drop h).2.2
  rw [hcd] at h
  have hd : Linked next stop (next y) d := (Linked.drop h).2.2
  rw [hxy] at hb
  obtain rfl : b = d := hb.unique hd
  have hlen := congrArg List.length hcd
  simp only [length_append, length_cons] at hlen
  exact (List.cons.inj (append_inj hcd (by omega)).2).1

/-- The first `l₁` cells of a walk that then stands at `q`. -/
def Seg (next : α → α) (stop : α → Prop) : α → List α → α → Prop
  | p, [], q => p = q
  | p, x :: l, q => p = x ∧ ¬ stop x ∧ Seg next stop (next x) l q

@[simp] theorem seg_nil : Seg next stop p [] q ↔ p = q := Iff.rfl

@[simp] theorem seg_cons :
    Seg next stop p (x :: l) q ↔ p = x ∧ ¬ stop x ∧ Seg next stop (next x) l q := Iff.rfl

theorem linked_append :
    Linked next stop p (l₁ ++ l₂) ↔ ∃ q, Seg next stop p l₁ q ∧ Linked next stop q l₂ := by
  induction l₁ generalizing p with
  | nil => simp
  | cons z l₁ ih =>
    simp only [cons_append, linked_cons, seg_cons, ih]
    constructor
    · rintro ⟨hz, hs, q, hq, hl⟩
      exact ⟨q, ⟨hz, hs, hq⟩, hl⟩
    · rintro ⟨q, ⟨hz, hs, hq⟩, hl⟩
      exact ⟨hz, hs, q, hq, hl⟩

theorem Seg.congr (hag : ∀ z ∈ l, next' z = next z) :
    Seg next stop p l q → Seg next' stop p l q := by
  induction l generalizing p with
  | nil => exact id
  | cons z l ih =>
    rintro ⟨hz, hs, hl⟩
    refine ⟨hz, hs, ?_⟩
    rw [hag z mem_cons_self]
    exact ih (forall_mem_cons.mp hag).2 hl

theorem Linked.congr (hag : ∀ z ∈ l, next' z = next z) (h : Linked next stop p l) :
    Linked next' stop p l := by
  rw [← append_nil l, linked_append] at h ⊢
  obtain ⟨q, hseg, hq⟩ := h
  exact ⟨q, hseg.congr hag, hq⟩

/-- Redirect one link. The cells before `a` keep their links, and `a` now leads to `l'`. -/
theorem Linked.splice (h : Linked next stop p (l₁ ++ x :: l₂))
    (hag : ∀ z ∈ l₁, next' z = next z) (hl : Linked next' stop (next' x) l') :
    Linked next' stop p (l₁ ++ x :: l') := by
  obtain ⟨q, hseg, hq, hx, -⟩ := linked_append.mp h
  exact linked_append.mpr ⟨q, hseg.congr hag, hq, hx, hl⟩

/-! ## The search loop -/

/-- `while (t != NULL && !found(t)) { prev = t; t = next(t); }`, returning `(prev, t)`;
    `halt` is the negated loop condition. `none` when `fuel` cells do not end it. -/
def seek (next : α → α) (halt : α → Bool) : Nat → α → α → Option (α × α)
  | 0, prev, t => if halt t then some (prev, t) else none
  | fuel + 1, prev, t => if halt t then some (prev, t) else seek next halt fuel t (next t)

/-- On a null-terminated list the search ends; it has passed over a prefix of cells that
    are not what is sought, and stands at the first that is, or at the terminator. -/
theorem seek_of_linked [DecidableEq α] {null : α} (found : α → Bool) :
    ∀ {l : List α} {fuel : Nat} (prev : α) {p : α}, Linked next (· = null) p l →
      l.length ≤ fuel →
      ∃ l₁ l₂, l = l₁ ++ l₂ ∧ (∀ z ∈ l₁, found z = false) ∧ (∀ z ∈ l₂.head?, found z = true) ∧
        seek next (fun t => t == null || found t) fuel prev p
          = some (l₁.getLastD prev, l₂.headD null)
  | [], fuel, prev, p, h, _ => by
    obtain rfl : p = null := h
    refine ⟨[], [], rfl, by simp, by simp, ?_⟩
    cases fuel <;> simp [seek]
  | x :: l, fuel, prev, p, h, hf => by
    obtain ⟨rfl, hx, hl⟩ := h
    cases hfound : found p with
    | true =>
      refine ⟨[], p :: l, rfl, by simp, by simp [hfound], ?_⟩
      cases fuel <;> simp [seek, hfound]
    | false =>
      cases fuel with
      | zero => simp at hf
      | succ fuel =>
        obtain ⟨l₁, l₂, hsplit, h1, h2, hseek⟩ :=
          seek_of_linked found p hl (by simpa using hf)
        refine ⟨p :: l₁, l₂, by rw [hsplit]; rfl, forall_mem_cons.mpr ⟨hfound, h1⟩, h2, ?_⟩
        have hne : (p == null) = false := by simpa using hx
        rw [seek, hfound, hne]
        rw [hseek]
        cases l₁ <;> rfl

/-! ## The full pass -/

/-- `while (t != NULL) { acc = f(acc, t); t = next(t); }`. -/
def walk [DecidableEq α] (next : α → α) (null : α) (f : β → α → β) : Nat → β → α → Option β
  | 0, b, t => if t = null then some b else none
  | fuel + 1, b, t => if t = null then some b else walk next null f fuel (f b t) (next t)

theorem walk_of_linked [DecidableEq α] {null : α} {f : β → α → β} :
    ∀ {l : List α} {fuel : Nat} {b : β} {p : α}, Linked next (· = null) p l →
      l.length ≤ fuel → walk next null f fuel b p = some (l.foldl f b)
  | [], fuel, b, p, h, _ => by
    obtain rfl : p = null := h
    cases fuel <;> simp [walk]
  | x :: l, fuel, b, p, h, hf => by
    obtain ⟨rfl, hx, hl⟩ := h
    cases fuel with
    | zero => simp at hf
    | succ fuel =>
      rw [walk, if_neg hx, walk_of_linked hl (by simpa using hf)]
      rfl

end AtomOs.Lib
