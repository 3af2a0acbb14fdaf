import AtomOs.Lib.Word
import Mathlib.Data.List.Infix

/-!
# The environment

A program finds its environment as up to 100 strings of the form `NAME=value`, and `getenv` (`library.c`)
is to return the value of a name. It takes the first string that agrees with the name as far as the name
goes, and then passes over whatever is left in front of the equals sign. So what it looks for is a variable
whose name *begins* with the one it is given (`getenvFrom_eq`), and `PATHX` in front of `PATH` hides it.
**`getenv_exact`**: it answers right just if the first such variable has the value that was asked for.

A string is the list of its characters in front of the NUL.
-/

namespace AtomOs

open Lib List

def CString (s : List Int) : Prop := 0 ∉ s ∧ s.length < 2147483648

instance (s : List Int) : Decidable (CString s) := inferInstanceAs (Decidable (_ ∧ _))

/-- The loop of `strncmp`, which may go on for `k` characters, and the difference it ends with. -/
def strncmpFrom : Nat → List Int → List Int → Int
  | k + 1, c :: dest, d :: src => if c = d then strncmpFrom k dest src else c - d
  | _, dest, src => dest.headD 0 - src.headD 0

/-- `strncmp`. That it returns 0 at once for one and the same pointer makes no difference. -/
def strncmp (dest src : List Int) (n : Nat) : Int := strncmpFrom (u32 (n - 1)) dest src

/-- The loop of `getenv`, with `i` rounds to go. Behind the name `valp` goes on to the equals sign. -/
def getenvFrom (name : List Int) : Nat → List (List Int) → Option (List Int)
  | 0, _ | _, [] => none
  | i + 1, e :: envp =>
    if strncmp name e name.length = 0 then some ((e.drop name.length).dropWhile (· ≠ 61)).tail
    else getenvFrom name i envp

def getenv (envp : List (List Int)) (name : List Int) : Option (List Int) := getenvFrom name 100 envp

/-! ## Variables -/

structure Variable where
  name : List Int
  value : List Int
  noEquals : 61 ∉ name
  string : CString (name ++ 61 :: value)

def Variable.text (x : Variable) : List Int := x.name ++ 61 :: x.value

/-- What `getenv` is to return. -/
def ValueOf (vars : List Variable) (name : List Int) : Option (List Int) → Prop
  | some v => ∃ x ∈ vars, x.name = name ∧ x.value = v
  | none => ∀ x ∈ vars, x.name ≠ name

/-- The first variable whose name begins with `name`. -/
def firstWith (vars : List Variable) (name : List Int) : Option Variable :=
  vars.find? fun x => name <+: x.name

theorem strncmpFrom_eq_zero {k : Nat} {dest : List Int} (src : List Int) (h0 : 0 ∉ dest)
    (hk : k < dest.length) : strncmpFrom k dest src = 0 ↔ dest.take (k + 1) <+: src := by
  induction dest generalizing k src with
  | nil => exact absurd hk (Nat.not_lt_zero _)
  | cons c dest ih =>
    obtain ⟨hc, h0⟩ := not_or.mp (mt mem_cons.mpr h0)
    cases src with
    | nil => cases k <;> simp [strncmpFrom, Ne.symm hc]
    | cons d src =>
      cases k with
      | zero => simp [strncmpFrom, Int.sub_eq_zero]
      | succ k =>
        have ih := ih src h0 (Nat.lt_of_succ_lt_succ hk)
        by_cases hd : c = d
        · simpa [strncmpFrom, hd, cons_prefix_cons] using ih
        · simp [strncmpFrom, hd, cons_prefix_cons, Int.sub_eq_zero]

theorem strncmp_eq_zero {name : List Int} (e : List Int) (h : CString name) (hne : name ≠ []) :
    strncmp name e name.length = 0 ↔ name <+: e := by
  have hpos : 0 < name.length := length_pos_iff.mpr hne
  have hlt := h.2
  have hk : u32 (name.length - 1) = name.length - 1 := by unfold u32; omega
  rw [strncmp, hk, strncmpFrom_eq_zero e h.1 (by omega), Nat.sub_add_cancel hpos, take_length]

/-- The equals sign ends the name. -/
theorem Variable.prefix_text (x : Variable) {name : List Int} (heq : 61 ∉ name) :
    name <+: x.text ↔ name <+: x.name := by
  refine ⟨fun h => ?_, fun h => h.trans (prefix_append _ _)⟩
  rcases prefix_or_prefix_of_prefix h (prefix_append x.name (61 :: x.value)) with hp | ⟨l, rfl⟩
  · exact hp
  · have h := (prefix_append_right_inj _).mp h
    cases l with
    | nil => rw [append_nil]
    | cons c l => exact absurd (mem_append_right _ ((cons_prefix_cons.mp h).1 ▸ mem_cons_self)) heq

theorem Variable.value_eq (x : Variable) {name : List Int} (h : name <+: x.name) :
    ((x.text.drop name.length).dropWhile (· ≠ 61)).tail = x.value := by
  obtain ⟨l, hl⟩ := h
  have hno : ∀ c ∈ l, c ≠ 61 := fun c hc he => x.noEquals (hl ▸ mem_append_right _ (he ▸ hc))
  rw [Variable.text, ← hl, append_assoc, drop_left, dropWhile_append_of_pos (by simpa using hno)]
  simp

section
variable {name : List Int} (hname : CString name) (hne : name ≠ []) (heq : 61 ∉ name)
include hname hne heq

theorem getenvFrom_eq (i : Nat) (vars : List Variable) :
    getenvFrom name i (vars.map Variable.text) = (firstWith (vars.take i) name).map Variable.value := by
  induction vars generalizing i with
  | nil => cases i <;> rfl
  | cons x vars ih =>
    cases i with
    | zero => rfl
    | succ i =>
      have hcmp := (strncmp_eq_zero x.text hname hne).trans (x.prefix_text heq)
      rw [map_cons, getenvFrom, take_succ_cons, firstWith, find?_cons]
      by_cases hx : name <+: x.name
      · rw [if_pos (hcmp.mpr hx), x.value_eq hx, decide_eq_true hx]
        rfl
      · rw [if_neg (mt hcmp.mp hx), ih, decide_eq_false hx]
        rfl

/-- **`getenv` answers right** just if the first variable whose name begins with `name` has the value of
    one whose name is `name`. -/
theorem getenv_exact (vars : List Variable) :
    ValueOf (vars.take 100) name (getenv (vars.map Variable.text) name) ↔
      ∀ x ∈ firstWith (vars.take 100) name, ∃ y ∈ vars.take 100, y.name = name ∧ y.value = x.value := by
  rw [getenv, getenvFrom_eq hname hne heq]
  cases hx : firstWith (vars.take 100) name with
  | some x => simp [ValueOf]
  | none =>
    refine iff_of_true (fun y hy he => ?_) (by simp)
    have hno : ¬ name <+: y.name := by simpa using find?_eq_none.mp hx y hy
    exact hno (he ▸ prefix_rfl)

end

/-- `PATH=b`. -/
def pathVariable : Variable := ⟨[80, 65, 84, 72], [98], by decide, by decide⟩

/-- `PATHX=a`. -/
def longerVariable : Variable := ⟨[80, 65, 84, 72, 88], [97], by decide, by decide⟩

theorem getenv_exact_path : ValueOf [pathVariable, longerVariable] pathVariable.name
    (getenv [pathVariable.text, longerVariable.text] pathVariable.name) :=
  (getenv_exact (by decide) (by decide) (by decide) [_, _]).mpr (by decide)

theorem getenv_longer_name : ¬ ValueOf [longerVariable, pathVariable] pathVariable.name
    (getenv [longerVariable.text, pathVariable.text] pathVariable.name) := by
  have hget : getenv [longerVariable.text, pathVariable.text] pathVariable.name = some [97] := by decide
  rw [hget, ValueOf]
  decide

end AtomOs
