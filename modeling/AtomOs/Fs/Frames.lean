import AtomOs.Fs.Calls

/-!
# What the operations on vnodes leave alone

A frame is a preorder on states that the small changes an operation is made of respect. There are
four kinds of them, each with the changes of the one before and more:

* `Quiet`: the allocation table, sectors, and the entry or the flag of a vnode may change. This is
  what working on a directory or truncating a file does.
* `Counting`: counts of vnodes may change too. This is what taking and releasing a vnode does.
* `Allocating`: there may be new vnodes, as after a lookup.
* `Describing`: the open file table and the processes may change, as in the system calls.

Every function has one lemma here, for all frames of its kind, and other modules use these instead
of looking into the functions again. The frame needed most is `SameFiles`: nothing below the system
calls touches the open file table or a process.
-/

namespace AtomOs

open Lib Prog

/-- Changes to the disk and to what a vnode says about its file respect `R`. -/
class Quiet (R : Fs → Fs → Prop) : Prop extends Std.Refl R, IsTrans Fs R where
  fat (s : Fs) (fat : FatTable) : R s { s with fat := fat }
  blocks (s : Fs) (disk : Nat → Bytes) (unreadable : Nat → Bool) : R s { s with disk, unreadable }
  data (s : Fs) (p : Nat) (changed : Bool) (data : Bytes) :
    R s (s.setVnode p { s.vnodes p with changed := changed, data := data })

/-- So do changes to counts. -/
class Counting (R : Fs → Fs → Prop) : Prop extends Quiet R where
  count (s : Fs) (p n : Nat) : R s (s.setVnode p { s.vnodes p with count := n })

/-- The state in which the vnode `v` was put at the next address and into the hash list `i`. -/
def Fs.newVnode (s : Fs) (v : Vnode) (i : Nat) : Fs :=
  { s.setVnode s.nextVnode v with
    nextVnode := s.nextVnode + 1
    vnlist := fun h => if h = i then s.nextVnode :: s.vnlist h else s.vnlist h }

/-- So do new vnodes, and addresses that are passed over. -/
class Allocating (R : Fs → Fs → Prop) : Prop extends Counting R where
  next (s : Fs) : R s { s with nextVnode := s.nextVnode + 1 }
  fresh (s : Fs) (v : Vnode) (i : Nat) : R s (s.newVnode v i)

theorem vnode_some {p : Nat} {s t : Fs} {v : Vnode} :
    vnode p s = some (v, t) ↔ p ≠ 0 ∧ v = s.vnodes p ∧ t = s := by
  unfold vnode
  by_cases hp : p = 0
  · rw [if_pos hp]
    exact ⟨fun h => absurd h stuck_some, fun h => absurd hp h.1⟩
  rw [if_neg hp]
  constructor
  · intro h
    cases h
    exact ⟨hp, rfl, rfl⟩
  · intro h
    obtain ⟨-, rfl, rfl⟩ := h
    rfl

theorem vnode_bind {α : Type} {f : Vnode → Prog Fs α} {p : Nat} {s t : Fs} {b : α} :
    (vnode p >>= f) s = some (b, t) ↔ p ≠ 0 ∧ f (s.vnodes p) s = some (b, t) := by
  rw [bind_some]
  constructor
  · rintro ⟨v, u, hv, hf⟩
    obtain ⟨hp, rfl, rfl⟩ := vnode_some.mp hv
    exact ⟨hp, hf⟩
  · rintro ⟨hp, hf⟩
    exact ⟨_, _, vnode_some.mpr ⟨hp, rfl, rfl⟩, hf⟩

/-! ## Directories -/

section quiet

variable (R : Fs → Fs → Prop) [Quiet R]

theorem keeps_vnode (p : Nat) : Keeps R (vnode p) := by
  intro s v t h
  obtain ⟨-, -, rfl⟩ := vnode_some.mp h
  exact Std.Refl.refl _

theorem keeps_setFat (fat : FatTable) : Keeps R (setFat fat) :=
  .modify fun s => Quiet.fat s fat

theorem keeps_writeCluster (c : Int) (data : Fs → Bytes) :
    Keeps R (modify fun s => s.writeCluster c (data s)) :=
  .modify fun s => Quiet.blocks s _ _

omit [Quiet R] in
theorem keeps_vnode_set {p : Nat} {f : Vnode → Vnode}
    (h : ∀ s : Fs, R s (s.setVnode p (f (s.vnodes p)))) :
    Keeps R (do setVnode p (f (← vnode p))) := by
  intro s a t hrun
  obtain ⟨-, hset⟩ := vnode_bind.mp hrun
  cases hset
  exact h s

theorem keeps_markChanged (p : Nat) : Keeps R (markChanged p) :=
  .bind .get fun s =>
    keeps_vnode_set R (f := fun v => { v with data := Dirent.mark v.data s.time s.date, changed := true })
      fun _ => Quiet.data _ _ _ _

theorem keeps_addDirEntryFrom (dvn : Nat) (dent : Bytes) : ∀ (fuel : Nat) (cur : Int),
    Keeps R (addDirEntryFrom dvn dent fuel cur)
  | 0, _ => .stuck
  | fuel + 1, cur => by
    have hmark : Keeps R (do markChanged dvn; return (1 : Int)) :=
      .bind (keeps_markChanged R dvn) fun _ => .pure _
    refine .bind .get fun s => ?_
    split
    · exact .pure _
    split
    · exact .bind (keeps_writeCluster R _ _) fun _ => hmark
    refine .ite (.ite (.ite (.pure _) ?_) (.pure _))
      (keeps_addDirEntryFrom dvn dent fuel _)
    exact .bind (keeps_setFat R _) fun _ => .bind (keeps_writeCluster R _ _)
      fun _ => hmark

theorem keeps_addDirEntry (dvn : Nat) (dent : Bytes) : Keeps R (addDirEntry dvn dent) :=
  .bind (keeps_vnode R dvn) fun _ => keeps_addDirEntryFrom R dvn dent _ _

theorem keeps_deleteDirEntryFrom (dvn : Nat) (name : Bytes) : ∀ (fuel : Nat) (cur : Int),
    Keeps R (deleteDirEntryFrom dvn name fuel cur)
  | 0, _ => .stuck
  | fuel + 1, cur => by
    have hmark : Keeps R (do markChanged dvn; return (1 : Int)) :=
      .bind (keeps_markChanged R dvn) fun _ => .pure _
    refine .bind .get fun s => ?_
    split
    · exact .pure _
    split
    · refine .ite (.bind (keeps_vnode R dvn) fun v => ?_) ?_
      · split
        · exact .bind .stuck fun _ => hmark
        · exact .bind (keeps_setFat R _) fun _ => .bind (.modify fun s => Quiet.blocks s _ _)
            fun _ => hmark
      · exact .bind (keeps_writeCluster R _ _) fun _ => hmark
    · exact .ite (.pure _) (keeps_deleteDirEntryFrom dvn name fuel _)

theorem keeps_deleteDirEntry (dvn : Nat) (name : Bytes) : Keeps R (deleteDirEntry dvn name) :=
  .bind (keeps_vnode R dvn) fun _ => keeps_deleteDirEntryFrom R dvn name _ _

theorem keeps_updateDirEntryFrom (dent : Bytes) : ∀ (fuel : Nat) (cur : Int),
    Keeps R (updateDirEntryFrom dent fuel cur)
  | 0, _ => .stuck
  | fuel + 1, cur => by
    refine .bind .get fun s => ?_
    split
    · exact .pure _
    split
    · exact .bind (keeps_writeCluster R _ _) fun _ => .pure _
    · exact .ite (.pure _) (keeps_updateDirEntryFrom dent fuel _)

theorem keeps_updateDirEntry (dvn : Nat) (dent : Bytes) : Keeps R (updateDirEntry dvn dent) :=
  .bind (keeps_vnode R dvn) fun _ => keeps_updateDirEntryFrom R dent _ _

theorem keeps_fat12VopDestroy (p : Nat) : Keeps R (fat12VopDestroy p) :=
  .bind (keeps_vnode R p) fun _ =>
    .ite (.bind (keeps_updateDirEntry R _ _) fun _ => .pure _) (.pure _)

theorem keeps_fat12VopTrunc (p : Nat) : Keeps R (fat12VopTrunc p) := by
  intro s a t hrun
  unfold fat12VopTrunc at hrun
  simp only [bind_some] at hrun
  obtain ⟨v, s1, h1, _, _, hget, hrun⟩ := hrun
  obtain ⟨-, rfl, rfl⟩ := vnode_some.mp h1
  cases hget
  split at hrun
  · cases hfree : freeClusterChain s1.fat (Dirent.startCluster (s1.vnodes p).data) with
    | none =>
      rw [hfree] at hrun
      cases hrun
    | some fat =>
      rw [hfree] at hrun
      cases hrun
      exact IsTrans.trans _ _ _ (Quiet.fat s1 fat) (Quiet.data { s1 with fat := fat } p _ _)
  · cases hrun
    exact Quiet.data _ _ _ _

theorem keeps_fat12VopRemove (p : Nat) : Keeps R (fat12VopRemove p) := by
  refine .bind (keeps_vnode R p) fun v => .bind .get fun s => ?_
  split
  · exact .stuck
  · exact .bind (keeps_setFat R _) fun _ => .bind (keeps_deleteDirEntry R _ _)
      fun _ => .pure _

theorem keeps_makeDir (dvn : Nat) (name : List Nat) : Keeps R (makeDir dvn name) := by
  refine .bind .get fun s => .ite (.pure _) ?_
  refine .bind (keeps_setFat R _) fun _ => .bind (keeps_addDirEntry R dvn _) fun err => ?_
  refine .ite (.bind (keeps_vnode R dvn) fun dv => ?_) ?_
  · exact .bind (keeps_writeCluster R _ _) fun _ => .pure _
  · exact .bind (.modify fun s => Quiet.fat s _) fun _ => .pure _

theorem keeps_fat12VopMkdir (dvn : Nat) (dirname : List Nat) :
    Keeps R (fat12VopMkdir dvn dirname) := by
  unfold fat12VopMkdir
  split
  · exact .pure _
  · exact keeps_makeDir R dvn _

end quiet

/-! ## Taking and releasing vnodes -/

section counting

variable (R : Fs → Fs → Prop) [Counting R]

theorem keeps_addCount (p : Nat) (k : Int) : Keeps R (addCount p k) :=
  keeps_vnode_set R (f := fun v => { v with count := ((v.count + k) % 65536).toNat })
    fun _ => Counting.count _ _ _

theorem keeps_getVnode (p : Nat) : Keeps R (getVnode p) := keeps_addCount R p 1

theorem keeps_getPdir (p : Nat) : Keeps R (getPdir p) :=
  .bind (keeps_vnode R p) fun _ => .bind (keeps_getVnode R _) fun _ => .pure _

theorem keeps_releaseVnodeFrom : ∀ fuel p : Nat, Keeps R (releaseVnodeFrom fuel p)
  | 0, _ => .stuck
  | fuel + 1, p => by
    refine .bind (keeps_addCount R p _) fun _ => .bind (keeps_vnode R p) fun v => ?_
    refine .ite (.bind (keeps_fat12VopDestroy R p) fun _ => ?_) (.pure _)
    refine .ite ?_ (.pure _)
    exact .bind (keeps_getVnode R _) fun _ => .bind (keeps_addCount R _ _) fun _ =>
      keeps_releaseVnodeFrom fuel v.parent

theorem keeps_releaseVnode (p : Nat) : Keeps R (releaseVnode p) :=
  .bind .get fun _ => keeps_releaseVnodeFrom R _ p

theorem keeps_getRootdir (pid : Nat) : Keeps R (getRootdir pid) :=
  .bind .get fun _ => .bind (keeps_getVnode R _) fun _ => .pure _

theorem keeps_getCurdir (pid : Nat) : Keeps R (getCurdir pid) :=
  .bind .get fun _ => .bind (keeps_getVnode R _) fun _ => .pure _

end counting

/-! ## Looking up and creating -/

/-- What `alloc_vnode` does: the vnode with the key, one more time; no memory; or a new vnode. -/
theorem allocVnode_some {dev no off : Int} {pvn ret : Nat} {s t : Fs}
    (hrun : allocVnode dev no pvn off s = some (ret, t)) :
    ((s.vnlist (vnodeHash no)).find? (fun p => (s.vnodes p).hasKey dev no pvn off) = some ret ∧
        addCount ret 1 s = some ((), t)) ∨
      (s.vnlist (vnodeHash no)).find? (fun p => (s.vnodes p).hasKey dev no pvn off) = none ∧
        ((ret = 0 ∧ s.noMem s.nextVnode = true ∧ t = { s with nextVnode := s.nextVnode + 1 }) ∨
          ret = s.nextVnode ∧ addCount ret 1 (s.newVnode { s.vnodes s.nextVnode with
            dev := dev, no := no, parent := pvn, offset := off, count := 0 } (vnodeHash no)) =
              some ((), t)) := by
  unfold allocVnode at hrun
  rw [get_bind] at hrun
  cases hfind : (s.vnlist (vnodeHash no)).find? fun p => (s.vnodes p).hasKey dev no pvn off with
  | some p =>
    rw [hfind] at hrun
    obtain ⟨_, s1, h1, hrun⟩ := bind_some.mp hrun
    cases hrun
    exact .inl ⟨rfl, h1⟩
  | none =>
    rw [hfind] at hrun
    simp only [bind_some] at hrun
    obtain ⟨_, s1, h1, hrun⟩ := hrun
    cases h1
    split at hrun
    · rename_i hmem
      cases hrun
      exact .inr ⟨rfl, .inl ⟨rfl, hmem, rfl⟩⟩
    simp only [bind_some] at hrun
    obtain ⟨_, s2, h2, _, s3, h3, _, s4, h4, hrun⟩ := hrun
    cases h2
    cases h3
    cases hrun
    exact .inr ⟨rfl, .inr ⟨rfl, h4⟩⟩

section allocating

variable (R : Fs → Fs → Prop) [Allocating R]

theorem keeps_allocVnode (dev no : Int) (pvn : Nat) (offset : Int) :
    Keeps R (allocVnode dev no pvn offset) := by
  intro s a t hrun
  rcases allocVnode_some hrun with ⟨-, hadd⟩ | ⟨-, ⟨-, -, rfl⟩ | ⟨-, hadd⟩⟩
  · exact keeps_addCount R _ _ _ _ _ hadd
  · exact Allocating.next s
  · exact IsTrans.trans _ _ _ (Allocating.fresh s _ _) (keeps_addCount R _ _ _ _ _ hadd)

theorem keeps_fat12VopLookup (dvn : Nat) (name : List Nat) : Keeps R (fat12VopLookup dvn name) := by
  refine .ite ?_ (.ite (keeps_getPdir R dvn) ?_)
  · exact .bind (keeps_getVnode R dvn) fun _ => .bind (keeps_addCount R dvn 1)
      fun _ => .pure _
  split
  · exact .pure _
  refine .bind .get fun s => .bind (keeps_vnode R dvn) fun dv => ?_
  split
  · exact .stuck
  · exact .pure _
  · refine .bind (keeps_allocVnode R _ _ _ _) fun p => .ite (.pure _) ?_
    intro s1 a t hrun
    obtain ⟨-, hrun⟩ := vnode_bind.mp hrun
    split at hrun
    · cases hrun
      exact Quiet.data _ _ _ _
    · cases hrun
      exact Std.Refl.refl _

theorem keeps_fat12VopCreate (dvn : Nat) (fname : List Nat) (mode : Nat) :
    Keeps R (fat12VopCreate dvn fname mode) := by
  unfold fat12VopCreate
  split
  · exact .pure _
  refine .bind .get fun s => .bind (keeps_addDirEntry R dvn _) fun offset => ?_
  refine .ite (.pure _) (.bind (keeps_vnode R dvn) fun dv => ?_)
  refine .bind (keeps_allocVnode R _ _ _ _) fun p => .ite (.pure _) ?_
  intro s1 a t hrun
  obtain ⟨-, hrun⟩ := vnode_bind.mp hrun
  cases hrun
  exact Quiet.data _ _ _ _

theorem keeps_lookupPathFrom : ∀ (fuel : Nat) (path : List Nat) (cur : Nat),
    Keeps R (lookupPathFrom fuel path cur)
  | 0, _, _ => .stuck
  | fuel + 1, path, cur => by
    refine .ite (.bind (keeps_addCount R cur _) fun _ => .pure _) ?_
    refine .ite (keeps_lookupPathFrom fuel _ cur) ?_
    have hrest : ∀ new, Keeps R (do
        releaseVnode cur
        if new = 0 then return 0
        else
          addCount new 1
          lookupPathFrom fuel (nextComponent path).2 new) := fun new =>
      .bind (keeps_releaseVnode R cur) fun _ => .ite (.pure _)
        (.bind (keeps_addCount R new 1) fun _ => keeps_lookupPathFrom fuel _ new)
    exact .ite (.bind (keeps_getPdir R cur) hrest)
      (.bind (keeps_fat12VopLookup R cur _) hrest)

theorem keeps_lookupPath (pid : Nat) (path : List Nat) : Keeps R (lookupPath pid path) := by
  have hrest : ∀ cur, Keeps R (do
      addCount cur 1
      lookupPathFrom ((if path.head?.any isSeparator then path.tail else path).length + 1)
        (if path.head?.any isSeparator then path.tail else path) cur) := fun cur =>
    .bind (keeps_addCount R cur 1) fun _ => keeps_lookupPathFrom R _ _ cur
  exact .ite (.bind (keeps_getRootdir R pid) hrest)
    (.bind (keeps_getCurdir R pid) hrest)

theorem keeps_openDirPart (pid : Nat) (dirPath : List Nat) : Keeps R (openDirPart pid dirPath) :=
  .ite (keeps_lookupPath R pid dirPath) (keeps_getCurdir R pid)

theorem keeps_releaseOne (p : Nat) (r : Int) : Keeps R (do releaseVnode p; return r) :=
  .bind (keeps_releaseVnode R p) fun _ => .pure r

/-- The calls on a file that leave the open file table and the processes alone release the file and
    its directory in the end. -/
theorem keeps_releaseBoth (p q : Nat) (r : Int) :
    Keeps R (do releaseVnode p; releaseVnode q; return r) :=
  .bind (keeps_releaseVnode R p) fun _ => keeps_releaseOne R q r

theorem keeps_syscallMkdir (pid : Nat) (path : List Nat) : Keeps R (syscallMkdir pid path) := by
  refine .ite (.pure _) (.bind (keeps_openDirPart R pid _) fun vn => ?_)
  refine .ite (.pure _) (.bind (keeps_fat12VopLookup R vn _) fun fvn => ?_)
  refine .ite (keeps_releaseBoth R fvn vn _) ?_
  exact .bind (keeps_fat12VopMkdir R vn _) fun _ => keeps_releaseOne R vn _

theorem keeps_syscallUnlink (pid : Nat) (path : List Nat) : Keeps R (syscallUnlink pid path) := by
  refine .ite (.pure _) (.bind (keeps_openDirPart R pid _) fun vn => ?_)
  refine .ite (.pure _) (.bind (keeps_fat12VopLookup R vn _) fun fvn => ?_)
  refine .ite (keeps_releaseOne R vn _) ?_
  refine .bind (keeps_vnode R fvn) fun v => ?_
  refine .ite (.bind (.pure _) fun _ => keeps_releaseBoth R fvn vn _) ?_
  refine .ite (.bind (.pure _) fun _ => keeps_releaseBoth R fvn vn _) ?_
  exact .bind (keeps_fat12VopRemove R fvn) fun _ => keeps_releaseBoth R fvn vn _

theorem keeps_syscallStat (pid : Nat) (path : List Nat) : Keeps R (syscallStat pid path) := by
  refine .ite (.pure _) (.bind (keeps_openDirPart R pid _) fun vn => ?_)
  refine .ite (.pure _) (.bind (keeps_fat12VopLookup R vn _) fun fvn => ?_)
  refine .ite (keeps_releaseOne R vn _) ?_
  exact keeps_releaseBoth R fvn vn _

end allocating

/-! ## Descriptors -/

/-- Changes to the open file table and the processes respect `R`. -/
class Describing (R : Fs → Fs → Prop) : Prop extends Allocating R where
  fte (s : Fs) (h : Nat) (fte : FileTableEntry) : R s (s.setFte h fte)
  proc (s : Fs) (pid : Nat) (inf : FilesInfo) : R s (s.setProc pid inf)

section describing

variable (R : Fs → Fs → Prop) [Describing R]

theorem keeps_setFte (h : Nat) (fte : FileTableEntry) : Keeps R (setFte h fte) :=
  .modify fun s => Describing.fte s h fte

theorem keeps_setHandle (pid fd : Nat) (h : Int) : Keeps R (setHandle pid fd h) :=
  .modify fun s => Describing.proc s pid _

theorem keeps_allocFtabSlot : Keeps R allocFtabSlot := by
  refine .bind .get fun s => ?_
  split
  · exact .pure _
  · exact .bind (keeps_setFte R _ _) fun _ => .pure _

theorem keeps_decrementRefCount (h : Int) : Keeps R (decrementRefCount h) := by
  refine .ite (.bind .get fun s => ?_) (.pure _)
  refine .bind (keeps_getVnode R _) fun _ => .bind (keeps_addCount R _ _) fun _ => ?_
  refine .bind (keeps_setFte R _ _) fun _ => .bind (keeps_releaseVnode R _) fun _ => ?_
  exact .ite (keeps_setFte R _ _) (.pure _)

theorem keeps_handleFor (pid : Nat) (slot : Option Nat) : Keeps R (handleFor pid slot) := by
  cases slot with
  | none => exact .pure _
  | some h =>
    refine .bind ?_ fun fd => .ite ?_ (.pure _)
    · refine .bind .get fun s => ?_
      split
      · exact .pure _
      · exact .bind (keeps_setHandle R _ _ _) fun _ => .pure _
    · exact .bind (keeps_decrementRefCount R _) fun _ => .pure _

theorem keeps_initSlot (h fvn type size : Nat) : Keeps R (initSlot h fvn type size) := by
  refine .bind (keeps_addCount R _ _) fun _ => .bind .get fun s => ?_
  refine .ite (.ite ?_ (keeps_setFte R _ _)) (keeps_setFte R _ _)
  exact .bind (keeps_fat12VopTrunc R fvn) fun _ => keeps_setFte R _ _

theorem keeps_openFile (pid vn fvn type : Nat) : Keeps R (openFile pid vn fvn type) := by
  refine .bind (keeps_vnode R fvn) fun v => .ite (keeps_releaseBoth R vn fvn _) ?_
  refine .ite (keeps_releaseBoth R vn fvn _) (.bind (keeps_allocFtabSlot R) fun slot => ?_)
  have hrest : Keeps R (do releaseVnode vn; releaseVnode fvn; handleFor pid slot) :=
    .bind (keeps_releaseVnode R vn) fun _ => .bind (keeps_releaseVnode R fvn)
      fun _ => keeps_handleFor R pid slot
  cases slot with
  | none => exact hrest
  | some h => exact .bind (keeps_initSlot R _ _ _ _) fun _ => hrest

theorem keeps_syscallOpen (pid : Nat) (path : List Nat) (type mode : Nat) :
    Keeps R (syscallOpen pid path type mode) := by
  refine .ite (.pure _) (.bind (keeps_openDirPart R pid _) fun vn => ?_)
  refine .ite (.pure _) (.bind (keeps_fat12VopLookup R vn _) fun fvn => ?_)
  refine .ite (keeps_openFile R pid vn fvn type) (.ite ?_ ?_)
  · refine .bind (keeps_fat12VopCreate R vn _ mode) fun fvn => .ite ?_ ?_
    · exact keeps_releaseOne R vn _
    · exact keeps_openFile R pid vn fvn type
  · exact keeps_releaseOne R vn _

theorem keeps_syscallClose (pid fd : Nat) : Keeps R (syscallClose pid fd) := by
  refine .bind .get fun s => .ite ?_ (.ite (.pure _) (.pure _))
  exact .bind (keeps_decrementRefCount R _) fun _ => .bind (keeps_setHandle R _ _ _)
    fun _ => .pure _

theorem keeps_syscallChdir (pid : Nat) (path : List Nat) : Keeps R (syscallChdir pid path) := by
  refine .ite (.pure _) (.bind (keeps_lookupPath R pid path) fun vn => ?_)
  refine .ite (.pure _) (.bind (keeps_addCount R vn 1) fun _ => ?_)
  refine .bind (keeps_releaseVnode R vn) fun _ => .bind .get fun s => ?_
  refine .bind (keeps_getVnode R _) fun _ => .bind (keeps_addCount R _ _) fun _ => ?_
  refine .bind (keeps_releaseVnode R _) fun _ => .bind ?_ fun _ => .pure _
  exact .modify fun s => Describing.proc s pid _

end describing

/-! ## The open file table and the processes -/

/-- The open file table, the processes, and what is given from outside are the same. -/
structure SameFiles (s t : Fs) : Prop where
  table : t.openFileTable = s.openFileTable
  procs : t.procs = s.procs
  platter : t.platter = s.platter ∧ t.faulty = s.faulty
  noMem : t.noMem = s.noMem
  clock : t.time = s.time ∧ t.date = s.date
  junk : t.junk = s.junk
  nullDev : t.nullDev = s.nullDev

theorem SameFiles.refl (s : Fs) : SameFiles s s :=
  ⟨rfl, rfl, ⟨rfl, rfl⟩, rfl, ⟨rfl, rfl⟩, rfl, rfl⟩

theorem SameFiles.trans {s t u : Fs} (h : SameFiles s t) (k : SameFiles t u) : SameFiles s u :=
  ⟨k.table.trans h.table, k.procs.trans h.procs,
    ⟨k.platter.1.trans h.platter.1, k.platter.2.trans h.platter.2⟩, k.noMem.trans h.noMem,
    ⟨k.clock.1.trans h.clock.1, k.clock.2.trans h.clock.2⟩, k.junk.trans h.junk,
    k.nullDev.trans h.nullDev⟩

instance : Allocating SameFiles where
  refl := SameFiles.refl
  trans _ _ _ := SameFiles.trans
  fat _ _ := ⟨rfl, rfl, ⟨rfl, rfl⟩, rfl, ⟨rfl, rfl⟩, rfl, rfl⟩
  blocks _ _ _ := ⟨rfl, rfl, ⟨rfl, rfl⟩, rfl, ⟨rfl, rfl⟩, rfl, rfl⟩
  data _ _ _ _ := ⟨rfl, rfl, ⟨rfl, rfl⟩, rfl, ⟨rfl, rfl⟩, rfl, rfl⟩
  count _ _ _ := ⟨rfl, rfl, ⟨rfl, rfl⟩, rfl, ⟨rfl, rfl⟩, rfl, rfl⟩
  next _ := ⟨rfl, rfl, ⟨rfl, rfl⟩, rfl, ⟨rfl, rfl⟩, rfl, rfl⟩
  fresh _ _ _ := ⟨rfl, rfl, ⟨rfl, rfl⟩, rfl, ⟨rfl, rfl⟩, rfl, rfl⟩

end AtomOs
