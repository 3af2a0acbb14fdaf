import Mathlib.Data.List.Basic

/-!
# The first index that meets a condition

Searches over a table that is cut into blocks come down to one question: which is the first index
from `i` on, below `n`, that meets a condition? `firstFrom` answers it. The laws here say when it
finds an index, and how the answer over the whole range is put together from the answers over its
parts.
-/

namespace AtomOs.Lib

/-- The first index from `i` on, below `n`, that meets the condition. -/
def firstFrom (P : Nat → Bool) (i n : Nat) : Option Nat := (List.range' i (n - i)).find? P

variable {P Q : Nat → Bool} {i m n k : Nat}

theorem firstFrom_eq_none : firstFrom P i n = none ↔ ∀ m, i ≤ m → m < n → P m = false := by
  rw [firstFrom, List.find?_eq_none]
  constructor
  · intro h m him hmn
    have := h m (List.mem_range'_1.mpr ⟨him, by omega⟩)
    simpa using this
  · intro h m hm
    have := List.mem_range'_1.mp hm
    rw [h m this.1 (by omega)]
    simp

theorem firstFrom_eq_some : firstFrom P i n = some k ↔
    i ≤ k ∧ k < n ∧ P k = true ∧ ∀ m, i ≤ m → m < k → P m = false := by
  rw [firstFrom, List.find?_range'_eq_some]
  constructor
  · rintro ⟨hk, hmem, hbefore⟩
    have := List.mem_range'_1.mp hmem
    exact ⟨this.1, by omega, hk, fun m him hmk => by simpa using hbefore m him hmk⟩
  · rintro ⟨hik, hkn, hk, hbefore⟩
    exact ⟨hk, List.mem_range'_1.mpr ⟨hik, by omega⟩, fun m him hmk => by simp [hbefore m him hmk]⟩

theorem firstFrom_congr (h : ∀ m, i ≤ m → m < n → P m = Q m) : firstFrom P i n = firstFrom Q i n := by
  cases hQ : firstFrom Q i n with
  | none =>
    rw [firstFrom_eq_none] at hQ ⊢
    exact fun m him hmn => (h m him hmn).trans (hQ m him hmn)
  | some k =>
    rw [firstFrom_eq_some] at hQ ⊢
    obtain ⟨hik, hkn, hk, hbefore⟩ := hQ
    exact ⟨hik, hkn, (h k hik hkn).trans hk, fun m him hmk =>
      (h m him (by omega)).trans (hbefore m him hmk)⟩

theorem firstFrom_empty (h : n ≤ i) : firstFrom P i n = none :=
  firstFrom_eq_none.mpr fun m him hmn => by omega

theorem firstFrom_here (hin : i < n) (hi : P i = true) : firstFrom P i n = some i :=
  firstFrom_eq_some.mpr ⟨Nat.le_refl i, hin, hi, fun m him hmi => by omega⟩

theorem firstFrom_skip (him : i ≤ m) (h : ∀ j, i ≤ j → j < m → P j = false) :
    firstFrom P i n = firstFrom P m n := by
  cases hm : firstFrom P m n with
  | none =>
    rw [firstFrom_eq_none] at hm ⊢
    intro j hij hjn
    by_cases hj : j < m
    · exact h j hij hj
    · exact hm j (by omega) hjn
  | some k =>
    rw [firstFrom_eq_some] at hm ⊢
    obtain ⟨hmk, hkn, hk, hbefore⟩ := hm
    refine ⟨by omega, hkn, hk, fun j hij hjk => ?_⟩
    by_cases hj : j < m
    · exact h j hij hj
    · exact hbefore j (by omega) hjk

theorem firstFrom_mono (hmn : m ≤ n) (h : firstFrom P i m = some k) : firstFrom P i n = some k := by
  rw [firstFrom_eq_some] at h ⊢
  exact ⟨h.1, by omega, h.2.2⟩

theorem firstFrom_shift (a : Nat) :
    firstFrom P (i + a) (n + a) = (firstFrom (fun k => P (k + a)) i n).map (· + a) := by
  cases h : firstFrom (fun k => P (k + a)) i n with
  | none =>
    rw [firstFrom_eq_none] at h
    rw [Option.map_none, firstFrom_eq_none]
    intro m him hmn
    have := h (m - a) (by omega) (by omega)
    rwa [Nat.sub_add_cancel (by omega)] at this
  | some k =>
    obtain ⟨hik, hkn, hk, hbefore⟩ := firstFrom_eq_some.mp h
    rw [Option.map_some, firstFrom_eq_some]
    refine ⟨by omega, by omega, hk, fun m him hmk => ?_⟩
    have := hbefore (m - a) (by omega) (by omega)
    rwa [Nat.sub_add_cancel (by omega)] at this

theorem firstFrom_extend (hmn : m ≤ n) (h : ∀ j, i ≤ j → j < m → P j = Q j)
    (hrest : ∀ j, m ≤ j → j < n → P j = false) : firstFrom P i n = firstFrom Q i m := by
  rw [← firstFrom_congr h]
  cases hP : firstFrom P i m with
  | some k => exact firstFrom_mono hmn hP
  | none =>
    rw [firstFrom_eq_none] at hP ⊢
    intro j hij hjn
    by_cases hj : j < m
    · exact hP j hij hj
    · exact hrest j (by omega) hjn

/-- A range from which `w` indices behind `a` were cut; none of them meets the condition. -/
theorem firstFrom_cut {a : Nat} (w : Nat) (hbefore : ∀ j, j < a → Q j = P j)
    (hcut : ∀ j, a ≤ j → j < a + w → P j = false)
    (hbehind : ∀ j, a ≤ j → j < n → Q j = P (j + w)) (han : a ≤ n) :
    firstFrom P 0 (n + w) = (firstFrom Q 0 n).map fun j => if j < a then j else j + w := by
  cases hQ : firstFrom Q 0 n with
  | none =>
    rw [firstFrom_eq_none] at hQ
    rw [Option.map_none, firstFrom_eq_none]
    intro j _ hj
    by_cases hja : j < a
    · rw [← hbefore j hja, hQ j (Nat.zero_le j) (by omega)]
    · by_cases hjw : j < a + w
      · exact hcut j (by omega) hjw
      · have := hQ (j - w) (Nat.zero_le _) (by omega)
        rwa [hbehind _ (by omega) (by omega), Nat.sub_add_cancel (by omega)] at this
  | some k =>
    obtain ⟨-, hkn, hk, hfirst⟩ := firstFrom_eq_some.mp hQ
    rw [Option.map_some, firstFrom_eq_some]
    by_cases hka : k < a
    · rw [if_pos hka]
      refine ⟨Nat.zero_le k, by omega, hbefore k hka ▸ hk, fun j _ hjk => ?_⟩
      rw [← hbefore j (by omega), hfirst j (Nat.zero_le j) hjk]
    rw [if_neg hka]
    refine ⟨Nat.zero_le _, by omega, hbehind k (by omega) hkn ▸ hk, fun j _ hjk => ?_⟩
    by_cases hja : j < a
    · rw [← hbefore j hja, hfirst j (Nat.zero_le j) (by omega)]
    · by_cases hjw : j < a + w
      · exact hcut j (by omega) hjw
      · have := hfirst (j - w) (Nat.zero_le _) (by omega)
        rwa [hbehind _ (by omega) (by omega), Nat.sub_add_cancel (by omega)] at this

/-- The indices from `i` on that meet the condition: the first one, and those behind it. -/
theorem filter_range'_of_firstFrom (h : firstFrom P i n = some k) :
    (List.range' i (n - i)).filter P = k :: (List.range' (k + 1) (n - (k + 1))).filter P := by
  obtain ⟨hik, hkn, hk, hbefore⟩ := firstFrom_eq_some.mp h
  have hsplit : List.range' i (n - i) =
      List.range' i (k - i) ++ k :: List.range' (k + 1) (n - (k + 1)) := by
    rw [show n - i = (k - i) + (n - (k + 1) + 1) by omega, ← List.range'_append_1,
      List.range'_succ, show i + (k - i) = k by omega]
  have hnone : (List.range' i (k - i)).filter P = [] := by
    rw [List.filter_eq_nil_iff]
    intro m hm
    have := List.mem_range'_1.mp hm
    simp [hbefore m this.1 (by omega)]
  rw [hsplit, List.filter_append, hnone, List.nil_append, List.filter_cons_of_pos hk]

theorem filter_range'_of_none (h : firstFrom P i n = none) : (List.range' i (n - i)).filter P = [] := by
  rw [List.filter_eq_nil_iff]
  intro m hm
  have := List.mem_range'_1.mp hm
  simp [firstFrom_eq_none.mp h m this.1 (by omega)]

end AtomOs.Lib
