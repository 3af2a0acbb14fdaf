import AtomOs.Fs.PathWalk

/-!
# Positions in open files

`lseek` should leave the position that was asked for if it lies in the file, leave the old one if
not, and return the position it leaves: `Sought`. The source asks `fte_size` instead of the file, which
is the size the file had when it was opened, compares without signs, does not move to the end of a file,
and returns what `fat12_vop_seek` returns, which is 0 (`lseek_returns_zero`).

So a call is right only if the position it leaves is 0 and is to be 0 (`SeekSafe`). **`lseek_sought`** says
so in both directions, after any writes and calls of `lseek` by any process.
-/

namespace AtomOs

open Lib Prog

/-! ## What a write leaves alone -/

/-- The processes, the open file table and the counts of the vnodes are the same. -/
structure SameRefs (s t : Fs) : Prop where
  procs : t.procs = s.procs
  table : t.openFileTable = s.openFileTable
  count : ∀ p, (t.vnodes p).count = (s.vnodes p).count

theorem SameRefs.refl (s : Fs) : SameRefs s s := ⟨rfl, rfl, fun _ => rfl⟩

theorem SameRefs.trans {s t u : Fs} (h : SameRefs s t) (k : SameRefs t u) : SameRefs s u :=
  ⟨k.procs.trans h.procs, k.table.trans h.table, fun p => (k.count p).trans (h.count p)⟩

theorem SameRefs.setVnode {s : Fs} {p : Nat} {v : Vnode} (hcount : v.count = (s.vnodes p).count) :
    SameRefs s (s.setVnode p v) :=
  ⟨rfl, rfl, s.setVnode_field Vnode.count hcount⟩

instance : Quiet SameRefs where
  refl := SameRefs.refl
  trans _ _ _ := SameRefs.trans
  fat _ _ := ⟨rfl, rfl, fun _ => rfl⟩
  blocks _ _ _ := ⟨rfl, rfl, fun _ => rfl⟩
  data _ _ _ _ := SameRefs.setVnode rfl

theorem sameRefs_growFile (p : Nat) (offset : Int) : Keeps SameRefs (growFile p offset) := by
  intro s a t hrun
  obtain ⟨-, hset⟩ := vnode_bind.mp hrun
  split at hset
  · cases hset
    exact SameRefs.setVnode rfl
  · cases hset
    exact SameRefs.refl _

theorem sameRefs_firstCluster (p : Nat) : Keeps SameRefs (firstCluster p) := by
  intro s a t hrun
  rw [firstCluster, get_bind] at hrun
  obtain ⟨-, hset⟩ := vnode_bind.mp hrun
  dsimp only at hset
  split at hset
  · cases hset
    exact SameRefs.refl _
  · cases hset
    exact ⟨rfl, rfl, s.setVnode_field Vnode.count (by rfl)⟩

theorem sameRefs_followCluster (cur : Nat) : Keeps SameRefs (followCluster cur) := by
  refine .bind .get fun s => .ite (.ite (.pure _) ?_) (.pure _)
  exact .bind (keeps_setFat SameRefs _) fun _ => .pure _

theorem sameRefs_clusterFor (p cur : Nat) : Keeps SameRefs (clusterFor p cur) := by
  refine .bind .get fun s => .bind (keeps_vnode SameRefs p) fun v => .ite ?_ ?_
  · exact .bind (sameRefs_firstCluster p) fun _ => .pure _
  · exact .bind (sameRefs_followCluster cur) fun _ => .pure _

theorem sameRefs_writeLoop (p fuel : Nat) (n offset : Int) (buf : Bytes) :
    Keeps SameRefs (writeLoop p fuel n offset buf) := by
  induction fuel generalizing n offset buf with
  | zero => exact .pure _
  | succ fuel ih =>
    refine .ite (.pure _) (.bind .get fun s => .bind (keeps_vnode SameRefs p)
      fun v => .ite ?_ (.bind (sameRefs_clusterFor p _) fun o => ?_))
    · split
      · exact .pure _
      · exact .bind (keeps_writeCluster SameRefs _ _) fun _ =>
          .bind (sameRefs_growFile p _) fun _ => ih _ _ _
    · split
      · exact .pure _
      refine .bind .get fun s => .ite ?_ ?_
      · exact .bind (keeps_writeCluster SameRefs _ _) fun _ =>
          .bind (sameRefs_growFile p _) fun _ => ih _ _ _
      · split
        · exact .pure _
        · exact .bind (keeps_writeCluster SameRefs _ _) fun _ =>
            .bind (sameRefs_growFile p _) fun _ => .pure _

theorem sameRefs_fat12VopWrite (p : Nat) (offset : Int) (buf : Bytes) (nb : Int) :
    Keeps SameRefs (fat12VopWrite p offset buf nb) := by
  intro s a t hrun
  obtain ⟨-, hrun⟩ := vnode_bind.mp hrun
  obtain ⟨_, w, hset, hloop⟩ := bind_some.mp hrun
  cases hset
  exact (@SameRefs.setVnode s p { s.vnodes p with changed := true } rfl).trans
    (sameRefs_writeLoop p _ _ _ _ _ _ _ hloop)

/-! ## Holding a vnode for a call -/

/-- A vnode that is referred to, with room for one more reference. -/
structure Referred (s : Fs) (p : Nat) : Prop where
  ne_zero : p ≠ 0
  pos : 0 < (s.vnodes p).count
  lt : (s.vnodes p).count < 65535

/-- Every descriptor of a slot holds the slot's vnode. -/
def FilesHeld (s : Fs) : Prop :=
  ∀ pid fd h : Nat, fd < maxProcFiles → (s.procs pid).fhandles fd = h → h < ftableSize →
    Referred s (s.openFileTable h).vn

section held

variable {s t : Fs} {p : Nat}

theorem Referred.get (h : Referred s p) :
    getVnode p s = some ((), s.withCount p ((s.vnodes p).count + 1)) :=
  addCount_up h.ne_zero (by have := h.lt; omega)

theorem Referred.release {n : Nat} (h : Referred s p) (hn : n = (s.vnodes p).count + 1)
    (hcount : (t.vnodes p).count = n) :
    releaseVnode p t = some ((), t.withCount p (s.vnodes p).count) := by
  have hpos := h.pos
  have hlt := h.lt
  rw [releaseVnode_kept h.ne_zero (by omega) (by omega), hcount, hn, Nat.add_sub_cancel]

theorem withCount_self (s : Fs) (p : Nat) : s.withCount p (s.vnodes p).count = s := by
  have hvn : (s.withCount p (s.vnodes p).count).vnodes = s.vnodes := by
    funext q
    by_cases hq : q = p
    · rw [hq, Fs.withCount, Fs.setVnode_vnodes, if_pos rfl]
    · exact withCount_ne hq
  show { s with vnodes := (s.withCount p (s.vnodes p).count).vnodes } = s
  rw [hvn]

theorem withCount_setFte (s : Fs) (p n h : Nat) (fte : FileTableEntry) :
    ((s.withCount p n).setFte h fte).withCount p (s.vnodes p).count = s.setFte h fte := by
  have hback := withCount_withCount (s.setFte h fte) p n (s.vnodes p).count
  exact hback.trans (withCount_self (s.setFte h fte) p)

theorem Referred.setFte_release (hp : Referred s p) (h : Nat) (fte : FileTableEntry) {α : Type} (a : α) :
    (do setFte h fte; releaseVnode p; return a : Prog Fs α) (s.withCount p ((s.vnodes p).count + 1)) =
      some (a, s.setFte h fte) := by
  have hrel := hp.release (t := (s.withCount p ((s.vnodes p).count + 1)).setFte h fte) rfl
    (withCount_same _ _ _)
  rw [withCount_setFte] at hrel
  rw [bind_of_some (show setFte h fte (s.withCount p _) = some ((), _) from rfl), bind_of_some hrel]
  rfl

end held

/-! ## Runs of `write` and `lseek` -/

/-- Only positions in the open file table have changed, and nothing of who refers to what. -/
structure SameOpen (s t : Fs) : Prop where
  procs : t.procs = s.procs
  slot : ∀ h, ∃ pos, t.openFileTable h = { s.openFileTable h with curPosition := pos }
  count : ∀ p, (t.vnodes p).count = (s.vnodes p).count

theorem SameRefs.sameOpen {s t : Fs} (h : SameRefs s t) : SameOpen s t :=
  ⟨h.procs, fun i => ⟨_, by rw [h.table]⟩, h.count⟩

theorem SameOpen.setFte (s : Fs) (h pos : Nat) :
    SameOpen s (s.setFte h { s.openFileTable h with curPosition := pos }) := by
  refine ⟨rfl, fun i => ?_, fun _ => rfl⟩
  by_cases hi : i = h
  · subst hi
    exact ⟨pos, if_pos rfl⟩
  · exact ⟨_, if_neg hi⟩

theorem SameOpen.trans {s t u : Fs} (h : SameOpen s t) (k : SameOpen t u) : SameOpen s u := by
  refine ⟨k.procs.trans h.procs, fun i => ?_, fun p => (k.count p).trans (h.count p)⟩
  obtain ⟨pos, hpos⟩ := h.slot i
  obtain ⟨pos', hpos'⟩ := k.slot i
  exact ⟨pos', by rw [hpos', hpos]⟩

theorem SameOpen.withCount {s t : Fs} {p n : Nat} (h : SameOpen (s.withCount p n) t) :
    SameOpen s (t.withCount p (s.vnodes p).count) := by
  refine ⟨h.procs, h.slot, fun q => ?_⟩
  by_cases hq : q = p
  · rw [hq, withCount_same]
  · rw [withCount_ne hq, h.count, withCount_ne hq]

theorem FilesHeld.congr {s t : Fs} (hs : FilesHeld s) (h : SameOpen s t) : FilesHeld t := by
  intro pid fd i hfd hi hlt
  rw [h.procs] at hi
  obtain ⟨hne, hpos, hroom⟩ := hs pid fd i hfd hi hlt
  obtain ⟨pos, hfte⟩ := h.slot i
  rw [hfte]
  exact ⟨hne, (h.count _).symm ▸ hpos, (h.count _).symm ▸ hroom⟩

section calls

variable {s t : Fs} {pid fd h : Nat}

/-- **`syscall_lseek`** of a descriptor that is open. -/
theorem syscallLseek_run (hfd : fd < maxProcFiles) (hh : (s.procs pid).fhandles fd = h)
    (hslot : h < ftableSize) (huse : Referred s (s.openFileTable h).vn) {whence : Nat} (hw : whence ≤ 2)
    (offset : Int) :
    syscallLseek pid fd offset whence s = some (0, s.setFte h
      { s.openFileTable h with curPosition := seekPosition (s.openFileTable h) offset whence }) := by
  have hcond : fd < maxProcFiles ∧ 0 ≤ (h : Int) ∧ whence ≤ 2 := ⟨hfd, by omega, hw⟩
  rw [syscallLseek, get_bind, hh, if_pos hcond, if_pos (by omega), Int.toNat_natCast,
    bind_of_some huse.get]
  exact huse.setFte_release h _ 0

theorem advance_sameOpen {ret ret' : Int} (hrun : advance h ret s = some (ret', t)) : SameOpen s t := by
  rw [advance, get_bind] at hrun
  split at hrun
  · cases hrun
    exact SameOpen.setFte s h _
  · cases hrun
    exact (SameRefs.refl s).sameOpen

/-- **`syscall_write`** changes no more than positions, if what is open is held. -/
theorem syscallWrite_sameOpen (hheld : FilesHeld s) {buf : Bytes} {nbytes ret : Int}
    (hrun : syscallWrite pid fd buf nbytes s = some (ret, t)) : SameOpen s t := by
  rw [syscallWrite, get_bind] at hrun
  cases hslot : slotFor s pid fd ftflagsWrite with
  | none =>
    rw [hslot] at hrun
    cases hrun
    exact (SameRefs.refl s).sameOpen
  | some h =>
    rw [hslot] at hrun
    obtain ⟨⟨hfd, ⟨hge, hlt⟩, -⟩, hto⟩ := Option.ite_none_right_eq_some.mp hslot
    cases hto
    have huse := hheld pid fd _ hfd (Int.toNat_of_nonneg hge).symm (by omega)
    dsimp only at hrun
    rw [bind_of_some huse.get] at hrun
    obtain ⟨off, s2, hwrite, hrun⟩ := bind_some.mp hrun
    obtain ⟨ret', s3, hadv, hrun⟩ := bind_some.mp hrun
    have h3 : SameOpen _ s3 := (sameRefs_fat12VopWrite _ _ _ _ _ _ _ hwrite).sameOpen.trans
      (advance_sameOpen hadv)
    rw [bind_of_some (huse.release rfl ((h3.count _).trans (withCount_same _ _ _)))] at hrun
    cases hrun
    exact h3.withCount

/-- The calls the runs here are made of. -/
def SeekOrWrite : FsOp → Prop
  | .write .. => True
  | .lseek .. => True
  | _ => False

theorem FilesHeld.step {op : FsOp} (hheld : FilesHeld s) (hop : SeekOrWrite op)
    (hstep : fsStep s op = some t) : FilesHeld t := by
  obtain ⟨⟨ret, u⟩, hrun, rfl⟩ := Option.map_eq_some_iff.mp hstep
  cases op with
  | write pid fd buf nbytes => exact hheld.congr (syscallWrite_sameOpen hheld hrun)
  | lseek pid fd offset whence =>
    by_cases hcond : fd < maxProcFiles ∧ 0 ≤ (s.procs pid).fhandles fd ∧ whence ≤ 2
    · by_cases hslot : (s.procs pid).fhandles fd < ftableSize
      · obtain ⟨hfd, hge, hw⟩ := hcond
        have hh := (Int.toNat_of_nonneg hge).symm
        have hlt : ((s.procs pid).fhandles fd).toNat < ftableSize := by omega
        have heq := syscallLseek_run hfd hh hlt (hheld pid fd _ hfd hh hlt) hw offset
        cases heq.symm.trans hrun
        exact hheld.congr (SameOpen.setFte s _ _)
      · rw [FsOp.call, syscallLseek, get_bind, if_pos hcond, if_neg hslot] at hrun
        cases hrun
    · rw [FsOp.call, syscallLseek, get_bind, if_neg hcond] at hrun
      cases hrun
      exact hheld
  | _ => exact absurd hop id

end calls

/-! ## What `lseek` is to do -/

def fileSize (s : Fs) (h : Nat) : Nat := Dirent.fsize (s.vnodes (s.openFileTable h).vn).data

def requested (s : Fs) (h : Nat) (offset : Int) : Nat → Int
  | 0 => offset
  | 1 => (s.openFileTable h).curPosition + offset
  | _ => fileSize s h + offset

/-- What `lseek` of slot `h` is to do, with the result `ret`. -/
structure Sought (s t : Fs) (h : Nat) (offset : Int) (whence : Nat) (ret : Int) : Prop where
  inside : (t.openFileTable h).curPosition ≤ fileSize t h
  position : ((t.openFileTable h).curPosition : Int) =
    if 0 ≤ requested s h offset whence ∧ requested s h offset whence ≤ fileSize s h then
      requested s h offset whence
    else (s.openFileTable h).curPosition
  returned : ret = (t.openFileTable h).curPosition

/-- The calls that leave position 0 and are to leave it, for a position `pos` in a file of `size` bytes
    that had `old` when it was opened. -/
def SeekSafe (pos old size : Nat) (offset : Int) : Nat → Prop
  | 0 => offset = 0 ∨ pos = 0 ∧ (offset < 0 ∨ (max size old : Nat) < offset)
  | 1 => pos + offset = 0 ∨ pos = 0 ∧ (offset < 0 ∧ old < u32 offset ∨ (max size old : Nat) < offset)
  | _ =>
    offset < 0 ∧ old + offset = 0 ∧ (size + offset = 0 ∨ size + offset < 0 ∧ pos = 0) ∨
      pos = 0 ∧ (0 < offset ∨ offset = 0 ∧ size = 0)

theorem SeekSafe.seekPosition {fte : FileTableEntry} {size whence : Nat} {offset : Int}
    (h : SeekSafe fte.curPosition fte.size size offset whence) (hw : whence ≤ 2)
    (hoff : offset < 2147483648) : AtomOs.seekPosition fte offset whence = 0 := by
  unfold AtomOs.seekPosition
  match whence, hw with
  | 0, _ =>
    rcases h with rfl | ⟨hpos, hout⟩
    · rfl
    · rw [if_pos rfl, if_neg (by omega), hpos]
  | 1, _ =>
    rw [if_neg (by decide), if_pos rfl]
    rcases h with hzero | ⟨hpos, hout⟩
    · rw [hzero, if_pos (show u32 0 ≤ fte.size from Nat.zero_le _)]
      rfl
    rw [hpos, Int.natCast_zero, Int.zero_add, if_neg]
    rcases hout with ⟨-, hlt⟩ | hlt
    · omega
    · unfold u32
      omega
  | 2, _ =>
    rw [if_neg (by decide), if_neg (by decide)]
    rcases h with ⟨hneg, hzero, -⟩ | ⟨hpos, hout⟩
    · rw [if_pos hneg, hzero]
      rfl
    · rw [if_neg (by omega), hpos]

theorem SeekSafe.requested {s : Fs} {h whence : Nat} {offset : Int}
    (hsafe : SeekSafe (s.openFileTable h).curPosition (s.openFileTable h).size (fileSize s h) offset
      whence) (hw : whence ≤ 2) :
    (if 0 ≤ requested s h offset whence ∧ requested s h offset whence ≤ fileSize s h then
      AtomOs.requested s h offset whence
    else ((s.openFileTable h).curPosition : Int)) = 0 := by
  match whence, hw, hsafe with
  | 0, _, hsafe =>
    change offset = 0 ∨ _ at hsafe
    show (if 0 ≤ offset ∧ offset ≤ _ then offset else _) = 0
    split <;> omega
  | 1, _, hsafe =>
    change _ + offset = 0 ∨ _ at hsafe
    show (if 0 ≤ _ + offset ∧ _ + offset ≤ _ then _ + offset else _) = 0
    split <;> omega
  | 2, _, hsafe =>
    change offset < 0 ∧ _ ∨ _ at hsafe
    show (if 0 ≤ _ + offset ∧ _ + offset ≤ _ then _ + offset else _) = 0
    split <;> omega

theorem seekSafe_of_zero {s : Fs} {h whence : Nat} {offset : Int} (hw : whence ≤ 2)
    (hpos : (s.openFileTable h).curPosition < 4294967296) (hold : (s.openFileTable h).size < 4294967296)
    (hsize : fileSize s h < 4294967296) (hoff : -2147483648 ≤ offset ∧ offset < 2147483648)
    (hzero : seekPosition (s.openFileTable h) offset whence = 0)
    (hgoal : (if 0 ≤ requested s h offset whence ∧ requested s h offset whence ≤ fileSize s h then
      requested s h offset whence
    else ((s.openFileTable h).curPosition : Int)) = 0) :
    SeekSafe (s.openFileTable h).curPosition (s.openFileTable h).size (fileSize s h) offset whence := by
  unfold seekPosition at hzero
  match whence, hw with
  | 0, _ =>
    change (if 0 ≤ offset ∧ offset ≤ _ then offset else _) = 0 at hgoal
    show offset = 0 ∨ _
    rw [if_pos rfl] at hzero
    split at hzero <;> split at hgoal <;> omega
  | 1, _ =>
    change (if 0 ≤ _ + offset ∧ _ + offset ≤ _ then _ + offset else _) = 0 at hgoal
    show _ + offset = 0 ∨ _
    rw [if_neg (by decide), if_pos rfl] at hzero
    unfold u32 at hzero ⊢
    split at hzero <;> split at hgoal <;> omega
  | 2, _ =>
    change (if 0 ≤ _ + offset ∧ _ + offset ≤ _ then _ + offset else _) = 0 at hgoal
    show offset < 0 ∧ _ ∨ _
    rw [if_neg (by decide), if_neg (by decide)] at hzero
    unfold u32 at hzero
    split at hzero <;> split at hgoal <;> omega

/-- **`lseek`**, after any writes and calls of `lseek`, does what it is to do in the calls that leave
    position 0 and are to leave it, and in no other, whatever 32-bit numbers the position and the sizes are. -/
theorem lseek_sought {s t : Fs} {pid fd h whence : Nat} {offset : Int} (hheld : FilesHeld s)
    (hrun : Reaches fsStep (fun _ op => SeekOrWrite op) s t) (hfd : fd < maxProcFiles)
    (hh : (t.procs pid).fhandles fd = h) (hslot : h < ftableSize) (hw : whence ≤ 2)
    (hoff : -2147483648 ≤ offset ∧ offset < 2147483648) :
    (SeekSafe (t.openFileTable h).curPosition (t.openFileTable h).size (fileSize t h) offset whence →
      ∃ ret u, syscallLseek pid fd offset whence t = some (ret, u) ∧ Sought t u h offset whence ret) ∧
    ((t.openFileTable h).curPosition < 4294967296 → (t.openFileTable h).size < 4294967296 →
      fileSize t h < 4294967296 →
      (∃ ret u, syscallLseek pid fd offset whence t = some (ret, u) ∧ Sought t u h offset whence ret) →
      SeekSafe (t.openFileTable h).curPosition (t.openFileTable h).size (fileSize t h) offset whence) := by
  have hheld' : FilesHeld t := hrun.invariant FilesHeld hheld FilesHeld.step
  have hseek := syscallLseek_run hfd hh hslot (hheld' pid fd h hfd hh hslot) hw offset
  have hslot' : ∀ fte, (t.setFte h fte).openFileTable h = fte := fun _ => if_pos rfl
  constructor
  · intro hsafe
    rw [hsafe.seekPosition hw hoff.2] at hseek
    refine ⟨_, _, hseek, ?_, ?_, ?_⟩
    · rw [hslot']
      exact Nat.zero_le _
    · rw [hslot']
      exact (hsafe.requested hw).symm
    · rw [hslot']
      rfl
  · rintro hpos hold hsize ⟨ret, u, hcall, hsought⟩
    cases hseek.symm.trans hcall
    have hret := hsought.returned
    have hposition := hsought.position
    rw [hslot'] at hret hposition
    exact seekSafe_of_zero hw hpos hold hsize hoff (Int.natCast_eq_zero.mp hret.symm)
      (hposition.symm.trans hret.symm)

/-! ## A file of five bytes -/

/-- Process 0 has a file of five bytes open for reading and writing, as descriptor 3. -/
def fiveBytes : Fs :=
  (oneOpen.setVnode 2 ⟨false, 1, 0, 0, 2, 1, Dirent.setFsize (Dirent.setStart Bytes.zero 2) 5⟩).setFte 0
    ⟨1, 29, 5, 0, 2⟩

theorem filesHeld_fiveBytes : FilesHeld fiveBytes := by
  intro pid fd h _ hh _
  change (if pid = 0 ∧ fd = 3 then 0 else if fd < 3 then -1 - (fd : Int) else fhUnused) = h at hh
  rw [fhUnused] at hh
  obtain rfl : h = 0 := by
    split at hh
    · omega
    · split at hh <;> omega
  exact ⟨by decide, by decide, by decide⟩

/-- **The position is not returned.** It is 3 after the call, as was asked for, but the call returns 0. -/
theorem lseek_returns_zero : FilesHeld fiveBytes ∧ (fiveBytes.procs 0).fhandles 3 = 0 ∧
    fileSize fiveBytes 0 = 5 ∧ requested fiveBytes 0 3 0 = 3 ∧
    ∃ t, syscallLseek 0 3 3 0 fiveBytes = some (0, t) ∧ (t.openFileTable 0).curPosition = 3 := by
  have hseek := @syscallLseek_run fiveBytes 0 3 0 (by decide) rfl (by decide)
    (filesHeld_fiveBytes 0 3 0 (by decide) rfl (by decide)) 0 (by decide) 3
  exact ⟨filesHeld_fiveBytes, rfl, by decide, rfl, _, hseek, by decide⟩

/-- The theorem for a call that goes back over the byte that was written before it. -/
theorem lseek_sought_fiveBytes : ∃ t ret u,
    Reaches fsStep (fun _ op => SeekOrWrite op) fiveBytes t ∧ (t.openFileTable 0).curPosition = 1 ∧
    syscallLseek 0 3 (-1) 1 t = some (ret, u) ∧ Sought t u 0 (-1) 1 ret := by
  obtain ⟨t, hwrite, hh, hpos⟩ : ∃ t ∈ fsStep fiveBytes (.write 0 3 Bytes.zero 1),
      (t.procs 0).fhandles 3 = 0 ∧ (t.openFileTable 0).curPosition = 1 := by decide +kernel
  have hreach : Reaches fsStep (fun _ op => SeekOrWrite op) fiveBytes t :=
    Reaches.snoc (Reaches.refl _) (show SeekOrWrite (.write 0 3 Bytes.zero 1) from trivial) hwrite
  obtain ⟨ret, u, hseek, hsought⟩ := (@lseek_sought fiveBytes t 0 3 0 1 (-1) filesHeld_fiveBytes hreach
    (by decide) hh (by decide) (by decide) (by decide)).1 (.inl (by rw [hpos]; rfl))
  exact ⟨t, ret, u, hreach, hpos, hseek, hsought⟩

end AtomOs
