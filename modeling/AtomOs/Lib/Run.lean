import Mathlib.Logic.Relation

/-!
# Runs of a partial step function

A component is a state type `σ`, a type `α` of operations, and `step : σ → α → Option σ`,
where `none` is an operation that does not return. `Reaches step ok s t` says that some
finite sequence of operations leads from `s` to `t`, each of them allowed by `ok` in the
state in which it is started.

`Reaches.invariant` is the rule every result about runs goes through: what one allowed step
preserves, a run preserves.
-/

namespace AtomOs.Lib

variable {σ α : Type*}

/-- One operation that `ok` allows, and that returns. -/
def StepOk (step : σ → α → Option σ) (ok : σ → α → Prop) (s t : σ) : Prop :=
  ∃ a, ok s a ∧ step s a = some t

/-- `t` is reached from `s` by allowed operations. -/
def Reaches (step : σ → α → Option σ) (ok : σ → α → Prop) : σ → σ → Prop :=
  Relation.ReflTransGen (StepOk step ok)

variable {step : σ → α → Option σ} {ok : σ → α → Prop} {s t u : σ} {a : α}

theorem Reaches.refl (s : σ) : Reaches step ok s s := Relation.ReflTransGen.refl

theorem Reaches.snoc (h : Reaches step ok s t) (hok : ok t a) (hstep : step t a = some u) :
    Reaches step ok s u :=
  Relation.ReflTransGen.tail h ⟨a, hok, hstep⟩

theorem Reaches.mono {ok' : σ → α → Prop} (h : Reaches step ok s t)
    (himp : ∀ s a, ok s a → ok' s a) : Reaches step ok' s t := by
  induction h with
  | refl => exact Reaches.refl s
  | tail _ hlast ih =>
    obtain ⟨a, hok, ha⟩ := hlast
    exact ih.snoc (himp _ a hok) ha

/-- **What every allowed step preserves, every run preserves.** -/
theorem Reaches.invariant (Inv : σ → Prop) (h : Reaches step ok s t) (h0 : Inv s)
    (hstep : ∀ {s t a}, Inv s → ok s a → step s a = some t → Inv t) : Inv t := by
  induction h with
  | refl => exact h0
  | tail _ hlast ih =>
    obtain ⟨a, hok, ha⟩ := hlast
    exact hstep ih hok ha

/-! ## Runs that can be evaluated -/

variable [∀ s a, Decidable (ok s a)]

/-- The state after a list of operations; `none` if one is not allowed or does not
    return. -/
def runOps (step : σ → α → Option σ) (ok : σ → α → Prop) [∀ s a, Decidable (ok s a)] :
    σ → List α → Option σ
  | s, [] => some s
  | s, a :: as => if ok s a then (step s a).bind fun t => runOps step ok t as else none

theorem reaches_of_runOps : ∀ {as : List α} {s : σ}, runOps step ok s as = some t →
    Reaches step ok s t
  | [], s, h => by
    obtain rfl : s = t := Option.some.inj h
    exact Reaches.refl s
  | a :: as, s, h => by
    rw [runOps] at h
    split at h
    · rename_i hok
      obtain ⟨u, hu, hrest⟩ := Option.bind_eq_some_iff.mp h
      exact Relation.ReflTransGen.head ⟨a, hok, hu⟩ (reaches_of_runOps hrest)
    · cases h

/-! ## Runs with answers -/

section answers

variable {σ τ α β : Type*} {ok : σ → α → Prop} {step : σ → α → Option (β × σ)}
  {spec : τ → α → Option (β × τ)}

/-- The answers to a list of operations and the state after them; `none` if one does not
    return. -/
def runAnswers (step : σ → α → Option (β × σ)) : σ → List α → Option (List β × σ)
  | s, [] => some ([], s)
  | s, a :: as => (step s a).bind fun r =>
      (runAnswers step r.2 as).map fun rs => (r.1 :: rs.1, rs.2)

/-- Each operation is allowed in the state in which it is started. -/
def Allowed (ok : σ → α → Prop) (step : σ → α → Option (β × σ)) : σ → List α → Prop
  | _, [] => True
  | s, a :: as => ok s a ∧
      match step s a with
      | none => True
      | some r => Allowed ok step r.2 as

def Allowed.decide [∀ s a, Decidable (ok s a)] :
    ∀ (s : σ) (as : List α), Decidable (Allowed ok step s as)
  | _, [] => inferInstanceAs (Decidable True)
  | s, a :: as =>
    have : Decidable (match step s a with
        | none => True
        | some r => Allowed ok step r.2 as) :=
      match step s a with
      | none => inferInstanceAs (Decidable True)
      | some r => Allowed.decide r.2 as
    inferInstanceAs (Decidable (ok s a ∧ _))

instance [∀ s a, Decidable (ok s a)] (s : σ) (as : List α) : Decidable (Allowed ok step s as) :=
  Allowed.decide s as

theorem rel_map {γ δ γ' δ' : Type*} {r : γ → δ → Prop} {r' : γ' → δ' → Prop} {f : γ → γ'}
    {g : δ → δ'} {x : Option γ} {y : Option δ} (h : Option.Rel r x y)
    (hfg : ∀ c d, r c d → r' (f c) (g d)) : Option.Rel r' (x.map f) (y.map g) := by
  cases h with
  | none => exact .none
  | some h => exact .some (hfg _ _ h)

theorem rel_bind {γ δ γ' δ' : Type*} {r : γ → δ → Prop} {r' : γ' → δ' → Prop}
    {f : γ → Option γ'} {g : δ → Option δ'} {x : Option γ} {y : Option δ} (h : Option.Rel r x y)
    (hfg : ∀ c d, x = some c → r c d → Option.Rel r' (f c) (g d)) :
    Option.Rel r' (x.bind f) (y.bind g) := by
  cases h with
  | none => exact .none
  | some h => exact hfg _ _ rfl h

/-- **Machines that answer alike step by step answer alike in a run.** -/
theorem Allowed.simulates {R : σ → τ → Prop} (hstep : ∀ {s q a}, R s q → ok s a →
      Option.Rel (fun r p => r.1 = p.1 ∧ R r.2 p.2) (step s a) (spec q a)) :
    ∀ {as : List α} {s : σ} {q : τ}, Allowed ok step s as → R s q →
      Option.Rel (fun r p => r.1 = p.1 ∧ R r.2 p.2) (runAnswers step s as) (runAnswers spec q as)
  | [], s, q, _, hR => .some ⟨rfl, hR⟩
  | a :: as, s, q, hall, hR => by
    obtain ⟨hok, hrest⟩ := hall
    refine rel_bind (hstep hR hok) fun r p hs hrel => ?_
    rw [hs] at hrest
    refine rel_map (Allowed.simulates hstep hrest hrel.2) fun rs ps hrels => ?_
    exact ⟨by rw [hrel.1, hrels.1], hrels.2⟩

end answers

end AtomOs.Lib
