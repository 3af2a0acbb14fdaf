import Mathlib.Data.Int.Basic
import Mathlib.Tactic.Linarith
import Mathlib.Data.Fintype.Card

/-!
# 32-bit words

The kernel runs on a 32-bit machine: `unsigned long` and `unsigned int` wrap at `2 ^ 32`,
`long` and `int` are their two's complement readings. The models below compute in `Int`
and come back through `u32` or `i32` wherever the source's type wraps; the lemmas say
when that changes nothing.
-/

namespace AtomOs.Lib

/-- The unsigned reading of an integer in a 32-bit register. -/
def u32 (x : Int) : Nat := (x % 4294967296).toNat

/-- The signed reading of an integer in a 32-bit register. -/
def i32 (x : Int) : Int :=
  if x % 4294967296 < 2147483648 then x % 4294967296 else x % 4294967296 - 4294967296

theorem u32_lt (x : Int) : u32 x < 4294967296 := by
  unfold u32
  omega

theorem u32_of_lt {x : Nat} (h : x < 4294967296) : u32 x = x := by
  unfold u32
  omega

theorem u32_sub {x y : Nat} (hle : y ≤ x) (h : x < 4294967296) : u32 ((x : Int) - y) = x - y := by
  unfold u32
  omega

theorem u32_of_range {x : Int} (h0 : 0 ≤ x) (h1 : x < 4294967296) : (u32 x : Int) = x := by
  unfold u32
  omega

theorem i32_of_range {x : Int} (h0 : -2147483648 ≤ x) (h1 : x < 2147483648) : i32 x = x := by
  unfold i32
  split <;> omega

/-! ## Addresses -/

abbrev Addr : Type := Fin 4294967296

instance Addr.lawfulBEq : LawfulBEq Addr := inferInstance

instance Addr.neZero : NeZero (4294967295 + 1) := inferInstance

/-- No walk along a list of cells at different addresses takes more steps. -/
def walkFuel : Nat := 4294967296

theorem length_le_walkFuel {l : List Addr} (h : l.Nodup) : l.length ≤ walkFuel := by
  have hcard := h.length_le_card
  rwa [Fintype.card_fin] at hcard

end AtomOs.Lib
