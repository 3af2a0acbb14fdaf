import Mathlib.Order.Defs.Unbundled

/-!
# Programs over a state

A function of the source that works on global state is a `Prog σ α`: from a state it gives a
result and the next state, or nothing, if it does not come back. The rules below take such
programs apart.

`Keeps R m` says that every run of `m` that returns leads to a state related to the first one by
`R`. It is meant for frames ("the file table is as it was"), so `R` is a preorder and the rule for
sequencing needs no intermediate assertion.
-/

namespace AtomOs.Lib

/-- A computation on a state `σ` that gives an `α`, if it comes back. -/
abbrev Prog (σ α : Type) : Type := StateT σ Option α

namespace Prog

variable {σ α β : Type}

/-- The program that does not come back. -/
def stuck : Prog σ α := fun _ => none

variable {m : Prog σ α} {f : α → Prog σ β} {s t : σ} {a : α}

theorem bind_some {b : β} :
    (m >>= f) s = some (b, t) ↔ ∃ a u, m s = some (a, u) ∧ f a u = some (b, t) := by
  constructor
  · intro h
    obtain ⟨⟨a, u⟩, hm, hf⟩ := Option.bind_eq_some_iff.mp h
    exact ⟨a, u, hm, hf⟩
  · intro h
    obtain ⟨a, u, hm, hf⟩ := h
    exact Option.bind_eq_some_iff.mpr ⟨(a, u), hm, hf⟩

theorem bind_of_some {u : σ} (h : m s = some (a, u)) : (m >>= f) s = f a u := by
  show (m s).bind _ = _
  rw [h]
  rfl

theorem get_bind (f : σ → Prog σ α) (s : σ) : ((get : Prog σ σ) >>= f) s = f s s := rfl

theorem pure_some {b : α} : (pure a : Prog σ α) s = some (b, t) ↔ a = b ∧ s = t := by
  constructor
  · intro h
    cases h
    exact ⟨rfl, rfl⟩
  · intro h
    obtain ⟨rfl, rfl⟩ := h
    rfl

theorem stuck_some : (stuck : Prog σ α) s ≠ some (a, t) := nofun

/-! ## Frames -/

/-- Every return of `m` leads to a state that `R` relates to the first one. -/
def Keeps (R : σ → σ → Prop) (m : Prog σ α) : Prop := ∀ s a t, m s = some (a, t) → R s t

section keeps

variable {R : σ → σ → Prop}

theorem Keeps.stuck : Keeps R (stuck : Prog σ α) := fun _ _ _ h => absurd h stuck_some

theorem Keeps.pure [Std.Refl R] (a : α) : Keeps R (pure a : Prog σ α) := by
  intro s b t h
  obtain ⟨-, rfl⟩ := pure_some.mp h
  exact Std.Refl.refl s

theorem Keeps.get [Std.Refl R] : Keeps R (get : Prog σ σ) := by
  intro s a t h
  cases h
  exact Std.Refl.refl s

theorem Keeps.modify {f : σ → σ} (h : ∀ s, R s (f s)) : Keeps R (modify f : Prog σ PUnit) := by
  intro s a t hrun
  cases hrun
  exact h s

theorem Keeps.bind [IsTrans σ R] (hm : Keeps R m)
    (hf : ∀ a, Keeps R (f a)) : Keeps R (m >>= f) := by
  intro s b t h
  obtain ⟨a, u, h1, h2⟩ := bind_some.mp h
  exact IsTrans.trans s u t (hm s a u h1) (hf a u b t h2)

theorem Keeps.ite {c : Prop} [Decidable c] {n : Prog σ α} (hm : Keeps R m) (hn : Keeps R n) :
    Keeps R (if c then m else n) := by
  split
  · exact hm
  · exact hn

end keeps

end Prog

end AtomOs.Lib
