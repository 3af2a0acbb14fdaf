import AtomOs.Fs.Positions
import AtomOs.Fs.Sockets

/-!
# Positions in open directories

`readdir` goes on from the position of an open directory, `telldir` returns it, `seekdir` sets it and
`rewinddir` sets it to 0. The first finds the directory's slot of the open file table through the
descriptor, but the other three take the descriptor itself for the number of a slot. So they look at
another slot, or change the position in it, unless the two numbers agree (`rewinddir_does_nothing`).

What the four calls are to do together is `Rereads`. Where the numbers agree it holds at every position,
also at one inside a slot, since `readdir` changes nothing but the position (`OpenDir.rereads_same`). Where
they do not agree there is a call that shows it, as long as there is something to list or another directory
to move in (`OpenDir.rereads_other`). **`dir_positions`** is both.
-/

namespace AtomOs

open Lib Prog Files

/-! ## The calls -/

def einvalidArgument : Int := -52

structure DirEnt where
  ino : Int
  off : Nat
  reclen : Nat
  name : List Nat
deriving DecidableEq, Repr

/-- What `fat12_vop_readdir` puts into the caller's `struct dirent`. A first character 0x05 stays as it
    is there. -/
def ReadEntry.dirEnt (r : ReadEntry) : DirEnt :=
  ⟨r.ino, r.off, 32, printName (if r.dent 0 = 0xE5 then r.dent.put 0 0x05 else r.dent)⟩

/-- `syscall_readdir`. The offset is an `int`, and with one below 0 the block is read before its start;
    a socket's handle indexes the table behind its end. -/
def syscallReaddir (pid fd : Nat) : Prog Fs (Option DirEnt) := do
  let s ← get
  let h := (s.procs pid).fhandles fd
  if fd < maxProcFiles ∧ 0 ≤ h then
    if h < ftableSize then
      let dirf := s.openFileTable h.toNat
      if hasFlag dirf.flags ftflagsDir then
        getVnode dirf.vn
        if 2147483648 ≤ dirf.curPosition then stuck
        else
          match fat12VopReaddir s.toVolume (s.vnodes dirf.vn).data dirf.curPosition with
          | none => stuck
          | some (.ok r) =>
            let de := r.dirEnt
            setFte h.toNat { dirf with curPosition := de.off + de.reclen }
            releaseVnode dirf.vn
            return some de
          | some (.error _) =>
            releaseVnode dirf.vn
            return none
      else return none
    else stuck
  else return none

/-- The slot that `seekdir`, `telldir` and `rewinddir` take for that of a directory. -/
def dirSlot (s : Fs) (pid fd : Nat) : Option FileTableEntry :=
  if fd < maxProcFiles ∧ 0 ≤ (s.procs pid).fhandles fd then some (s.openFileTable fd) else none

def syscallSeekdir (pid fd : Nat) (offset : Int) : Prog Fs Unit := do
  match dirSlot (← get) pid fd with
  | none => return
  | some dirf =>
    if hasFlag dirf.flags ftflagsDir ∧ 0 ≤ offset then
      setFte fd { dirf with curPosition := offset.toNat }
    else return

def syscallTelldir (pid fd : Nat) : Prog Fs Int := do
  match dirSlot (← get) pid fd with
  | none => return einvalidArgument
  | some dirf =>
    if hasFlag dirf.flags ftflagsDir then return i32 dirf.curPosition else return einvalidHandle

def syscallRewinddir (pid fd : Nat) : Prog Fs Unit := do
  match dirSlot (← get) pid fd with
  | none => return
  | some dirf =>
    if hasFlag dirf.flags ftflagsDir then setFte fd { dirf with curPosition := 0 } else return

def readdirs (pid fd : Nat) : Nat → Prog Fs (List (Option DirEnt))
  | 0 => return []
  | n + 1 => do
    let de ← syscallReaddir pid fd
    let des ← readdirs pid fd n
    return de :: des

/-! ## Moving a position -/

def Fs.seekTo (s : Fs) (h pos : Nat) : Fs :=
  s.setFte h { s.openFileTable h with curPosition := pos }

theorem seekTo_slot (s : Fs) (h pos : Nat) :
    (s.seekTo h pos).openFileTable h = { s.openFileTable h with curPosition := pos } := if_pos rfl

theorem seekTo_ne (s : Fs) {h i : Nat} (pos : Nat) (hi : i ≠ h) :
    (s.seekTo h pos).openFileTable i = s.openFileTable i := if_neg hi

theorem seekTo_seekTo (s : Fs) (h pos pos' : Nat) :
    (s.seekTo h pos).seekTo h pos' = s.seekTo h pos' := by
  have htable : ((s.seekTo h pos).seekTo h pos').openFileTable = (s.seekTo h pos').openFileTable := by
    funext i
    by_cases hi : i = h
    · rw [hi, seekTo_slot, seekTo_slot, seekTo_slot]
    · rw [seekTo_ne _ _ hi, seekTo_ne _ _ hi, seekTo_ne _ _ hi]
  show { s with openFileTable := ((s.seekTo h pos).seekTo h pos').openFileTable } = _
  rw [htable]
  rfl

theorem seekTo_self (s : Fs) (h : Nat) : s.seekTo h (s.openFileTable h).curPosition = s := by
  have htable : (s.seekTo h (s.openFileTable h).curPosition).openFileTable = s.openFileTable := by
    funext i
    by_cases hi : i = h
    · rw [hi, seekTo_slot]
    · exact seekTo_ne s _ hi
  show { s with openFileTable := (s.seekTo h (s.openFileTable h).curPosition).openFileTable } = s
  rw [htable]

/-- The directory with the clusters `cs` is open in slot `h`, as descriptor `fd`. -/
structure OpenDir (s : Fs) (pid fd h : Nat) (cs : List Int) : Prop where
  fd_lt : fd < maxProcFiles
  handle : (s.procs pid).fhandles fd = h
  slot_lt : h < ftableSize
  dir : hasFlag (s.openFileTable h).flags ftflagsDir = true
  use : Referred s (s.openFileTable h).vn
  healthy : Healthy s.toVolume
  chain : DirChain s.fat (Dirent.startCluster (s.vnodes (s.openFileTable h).vn).data) cs
  nonempty : cs ≠ []

section calls

variable {s : Fs} {pid fd h i : Nat} {cs : List Int}

theorem OpenDir.seekTo (hd : OpenDir s pid fd h cs) (pos : Nat) : OpenDir (s.seekTo h pos) pid fd h cs := by
  refine ⟨hd.fd_lt, hd.handle, hd.slot_lt, ?_, ?_, hd.healthy, ?_, hd.nonempty⟩
  · rw [seekTo_slot]
    exact hd.dir
  · rw [seekTo_slot]
    exact ⟨hd.use.ne_zero, hd.use.pos, hd.use.lt⟩
  · rw [seekTo_slot]
    exact hd.chain

/-! ## Any position

`seekdir` takes any number for a position, also one inside a slot. What `readdir` finds there is of no
use, but it comes back, and where it leaves the position can be said. -/

theorem scanSlots_range (stop : Bytes → Bool) (buff : Bytes) (fuel pos : Nat) :
    pos ≤ scanSlots stop buff fuel pos ∧ (pos < 512 → scanSlots stop buff fuel pos < 544) := by
  induction fuel generalizing pos with
  | zero => exact ⟨Nat.le_refl pos, fun h => Nat.lt_of_lt_of_le h (by decide)⟩
  | succ fuel ih =>
    rw [scanSlots]
    by_cases hpos : pos < 512
    · rw [if_pos hpos]
      split
      · exact ⟨Nat.le_refl pos, fun _ => by omega⟩
      · obtain ⟨hle, hlt⟩ := ih (pos + 32)
        refine ⟨by omega, fun _ => ?_⟩
        by_cases hnext : pos + 32 < 512
        · exact hlt hnext
        · have hstop : scanSlots stop buff fuel (pos + 32) = pos + 32 := by
            cases fuel with
            | zero => rfl
            | succ fuel => rw [scanSlots, if_neg hnext]
          omega
    · rw [if_neg hpos]
      exact ⟨Nat.le_refl pos, fun h => absurd h hpos⟩

/-- The second loop of `fat12_vop_readdir` ends, at most 544 bytes further for each cluster. -/
theorem readdirFrom_returns {v : Volume} {cs : List Int} {cur : Int} (fuel pos off : Nat)
    (hrow : DirRow v cur cs) (hne : cs ≠ []) (hfuel : cs.length ≤ fuel) (hpos : pos < 512) :
    ∃ r, readdirFrom v fuel cur pos off = some r ∧
      ∀ e, r = .ok e → off ≤ e.off ∧ e.off ≤ off + 544 * cs.length := by
  induction cs generalizing cur fuel pos off with
  | nil => exact absurd rfl hne
  | cons c cs ih =>
    obtain rfl : cur = c := hrow.linked.1
    obtain ⟨fuel, rfl⟩ : ∃ n, fuel = n + 1 := ⟨fuel - 1, by rw [List.length_cons] at hfuel; omega⟩
    rw [readdirFrom, hrow.bread List.mem_cons_self]
    simp only
    obtain ⟨hle, hlt⟩ := scanSlots_range (fun d => !skipped d) (v.disk (sectorOf cur)) 16 pos
    have hlt := hlt hpos
    rw [List.length_cons]
    split
    · refine ⟨_, rfl, ?_⟩
      rintro e ⟨⟩
      exact ⟨Nat.le_add_right _ _, by dsimp only; omega⟩
    · split
      · exact ⟨_, rfl, by rintro _ ⟨⟩⟩
      · rename_i hend
        obtain ⟨r, hrun, hoff⟩ := ih fuel 0 _ hrow.tail (mt (linked_tail_nil hrow.linked).mpr hend)
          (by rw [List.length_cons] at hfuel; omega) (by decide)
        refine ⟨r, hrun, fun e he => ?_⟩
        obtain ⟨h1, h2⟩ := hoff e he
        omega

theorem readdir_returns {v : Volume} {dent : Bytes} (pos : Nat) (hv : Healthy v)
    (hchain : DirChain v.fat (Dirent.startCluster dent) cs) (hne : cs ≠ []) :
    ∃ r, fat12VopReaddir v dent pos = some r ∧
      ∀ e, r = .ok e → pos ≤ e.off ∧ e.off + 32 < 2147483648 := by
  have hlen := hchain.length_le
  by_cases hin : cs.length < pos / 512
  · refine ⟨.error einvalidOffset, ?_, by rintro _ ⟨⟩⟩
    rw [fat12VopReaddir]
    exact if_pos (seekCluster_behind (hchain.row hv) hne hin)
  obtain ⟨c, hseek, hdrop, hlast⟩ := seekCluster_eq (i := pos / 512) (hchain.row hv) hne (by omega)
  rw [fat12VopReaddir, hseek]
  simp only
  rw [if_neg (Nat.lt_irrefl 0)]
  by_cases hbehind : pos / 512 = cs.length
  · refine ⟨.error ediskRead, ?_, by rintro _ ⟨⟩⟩
    rw [chainFuel, readdirFrom, hlast hbehind]
  have hdlen : (cs.drop (pos / 512)).length = cs.length - pos / 512 := List.length_drop
  have hdne : cs.drop (pos / 512) ≠ [] := List.length_pos_iff.mp (by omega)
  obtain ⟨r, hrun, hoff⟩ := readdirFrom_returns chainFuel (pos % 512) pos hdrop hdne
    (by rw [hdlen, chainFuel]; omega) (Nat.mod_lt _ (by decide))
  refine ⟨r, hrun, fun e he => ?_⟩
  obtain ⟨h1, h2⟩ := hoff e he
  rw [hdlen] at h2
  omega

/-- What is found at the position of slot `h`, as `fat12_vop_readdir` has it. -/
def foundAt (s : Fs) (h : Nat) : Option ReadEntry :=
  match fat12VopReaddir s.toVolume (s.vnodes (s.openFileTable h).vn).data
    (s.openFileTable h).curPosition with
  | some (.ok r) => some r
  | _ => none

/-- **`syscall_readdir`** at any position. -/
theorem OpenDir.readdir (hd : OpenDir s pid fd h cs)
    (hpos : (s.openFileTable h).curPosition < 2147483648) :
    syscallReaddir pid fd s = some ((foundAt s h).map ReadEntry.dirEnt,
      match foundAt s h with
      | some r => s.seekTo h (r.off + 32)
      | none => s) := by
  obtain ⟨res, hread, -⟩ := readdir_returns (s.openFileTable h).curPosition hd.healthy hd.chain hd.nonempty
  have hcond : fd < maxProcFiles ∧ 0 ≤ (h : Int) := ⟨hd.fd_lt, by omega⟩
  have hslot : (h : Int) < ftableSize := by
    have := hd.slot_lt
    omega
  rw [syscallReaddir, get_bind, hd.handle, if_pos hcond, if_pos hslot, Int.toNat_natCast, if_pos hd.dir,
    bind_of_some hd.use.get, if_neg (by omega), foundAt, hread]
  cases res with
  | ok r => exact hd.use.setFte_release h _ _
  | error e =>
    dsimp only
    rw [bind_of_some (hd.use.release rfl (withCount_same _ _ _)), withCount_withCount, withCount_self]
    rfl

theorem OpenDir.found_off (hd : OpenDir s pid fd h cs) {r : ReadEntry} (hfound : foundAt s h = some r) :
    (s.openFileTable h).curPosition ≤ r.off ∧ r.off + 32 < 2147483648 := by
  obtain ⟨res, hread, hoff⟩ := readdir_returns (s.openFileTable h).curPosition hd.healthy hd.chain hd.nonempty
  rw [foundAt, hread] at hfound
  cases res with
  | ok r' =>
    cases hfound
    exact hoff r rfl
  | error e => cases hfound

/-! ## The entries in order -/

def nextUsed (s : Fs) (cs : List Int) (i : Nat) : Option Nat :=
  firstFrom (fun k => !skipped (AtomOs.slot s.toVolume cs k)) i (16 * cs.length)

/-- What `readdir` returns for slot `k`. -/
def dirEntAt (s : Fs) (cs : List Int) (k : Nat) : DirEnt := (entryAt s.toVolume cs k).dirEnt

theorem OpenDir.found_slot (hd : OpenDir s pid fd h cs) (hpos : (s.openFileTable h).curPosition = 32 * i) :
    foundAt s h = (nextUsed s cs i).map (entryAt s.toVolume cs) := by
  rw [foundAt, hpos]
  rcases readdir_eq (i := i) (hd.chain.row hd.healthy) hd.nonempty with ⟨k, hfind, hread⟩ | ⟨hnone, e, hread⟩
  · rw [hread, nextUsed, hfind]
    rfl
  · rw [hread, nextUsed, hnone]
    rfl

/-- What is left to list from slot `i` on. -/
def listingFrom (s : Fs) (cs : List Int) (i : Nat) : List DirEnt :=
  ((List.range' i (16 * cs.length - i)).filter fun k => !skipped (AtomOs.slot s.toVolume cs k)).map
    (dirEntAt s cs)

/-- **Calls of `readdir` in a row** return what is left, and then nothing. -/
theorem OpenDir.readdirs (hd : OpenDir s pid fd h cs) (n i : Nat) (hi : 32 * i < 2147483648) :
    ∃ j, AtomOs.readdirs pid fd n (s.seekTo h (32 * i)) =
      some ((List.range n).map fun k => (listingFrom s cs i)[k]?, s.seekTo h (32 * j)) := by
  induction n generalizing i with
  | zero => exact ⟨i, rfl⟩
  | succ n ih =>
    have hread := (hd.seekTo (32 * i)).readdir (by rw [seekTo_slot]; exact hi)
    have hfound := (hd.seekTo (32 * i)).found_slot (i := i) (by rw [seekTo_slot])
    have hnext : nextUsed (s.seekTo h (32 * i)) cs i = nextUsed s cs i := rfl
    rw [hfound, hnext] at hread
    rw [List.range_succ_eq_map, List.map_cons, List.map_map]
    cases hfind : nextUsed s cs i with
    | some k =>
      rw [hfind] at hread
      dsimp only [Option.map_some] at hread
      rw [seekTo_seekTo] at hread
      have hk : 32 * (k + 1) < 2147483648 := by
        have := (firstFrom_eq_some.mp hfind).2.1
        have := hd.chain.length_le
        omega
      obtain ⟨j, hrest⟩ := ih (k + 1) hk
      have hlist : listingFrom s cs i = dirEntAt s cs k :: listingFrom s cs (k + 1) := by
        unfold listingFrom
        rw [filter_range'_of_firstFrom hfind, List.map_cons]
      refine ⟨j, ?_⟩
      rw [AtomOs.readdirs, bind_of_some hread]
      exact (bind_of_some hrest).trans (by rw [hlist]; rfl)
    | none =>
      rw [hfind] at hread
      obtain ⟨j, hrest⟩ := ih i hi
      have hlist : listingFrom s cs i = [] := by
        unfold listingFrom
        rw [filter_range'_of_none hfind, List.map_nil]
      refine ⟨j, ?_⟩
      rw [AtomOs.readdirs, bind_of_some hread]
      exact (bind_of_some hrest).trans (by rw [hlist]; rfl)

theorem OpenDir.readdirs_any (hd : OpenDir s pid fd h cs) (n : Nat) :
    ∀ i, i < 2147483648 → ∃ des j, AtomOs.readdirs pid fd n (s.seekTo h i) = some (des, s.seekTo h j) := by
  induction n with
  | zero => exact fun i _ => ⟨[], i, rfl⟩
  | succ n ih =>
    intro i hi
    have hread := (hd.seekTo i).readdir (by rw [seekTo_slot]; exact hi)
    rw [AtomOs.readdirs, bind_of_some hread]
    cases hfound : foundAt (s.seekTo h i) h with
    | some r =>
      obtain ⟨des, j, hrest⟩ := ih (r.off + 32) ((hd.seekTo i).found_off hfound).2
      dsimp only
      rw [seekTo_seekTo, bind_of_some hrest]
      exact ⟨_, j, rfl⟩
    | none =>
      obtain ⟨des, j, hrest⟩ := ih i hi
      dsimp only
      rw [bind_of_some hrest]
      exact ⟨_, j, rfl⟩

/-! ## The other three calls -/

theorem OpenDir.dirSlot (hd : OpenDir s pid fd h cs) : dirSlot s pid fd = some (s.openFileTable fd) := by
  refine if_pos ⟨hd.fd_lt, ?_⟩
  rw [hd.handle]
  omega

section dir

variable (hd : OpenDir s pid fd h cs) (hdir : hasFlag (s.openFileTable fd).flags ftflagsDir = true)
include hd hdir

theorem OpenDir.telldir (hpos : (s.openFileTable fd).curPosition < 2147483648) :
    syscallTelldir pid fd s = some (((s.openFileTable fd).curPosition : Int), s) := by
  rw [syscallTelldir, get_bind, hd.dirSlot]
  dsimp only
  rw [if_pos hdir, i32_of_range (by omega) (by omega)]
  rfl

theorem OpenDir.seekdir (pos : Nat) : syscallSeekdir pid fd pos s = some ((), s.seekTo fd pos) := by
  rw [syscallSeekdir, get_bind, hd.dirSlot]
  dsimp only
  rw [if_pos ⟨hdir, by omega⟩]
  rfl

theorem OpenDir.rewinddir : syscallRewinddir pid fd s = some ((), s.seekTo fd 0) := by
  rw [syscallRewinddir, get_bind, hd.dirSlot]
  dsimp only
  rw [if_pos hdir]
  rfl

end dir

/-- Where the slot with the number of the descriptor is no directory, the three calls do nothing. -/
theorem OpenDir.no_dir (hd : OpenDir s pid fd h cs)
    (hdir : hasFlag (s.openFileTable fd).flags ftflagsDir = false) :
    syscallTelldir pid fd s = some (einvalidHandle, s) ∧
      (∀ offset, syscallSeekdir pid fd offset s = some ((), s)) ∧
      syscallRewinddir pid fd s = some ((), s) := by
  have hno : ¬ hasFlag (s.openFileTable fd).flags ftflagsDir = true := by
    rw [hdir]
    decide
  refine ⟨?_, fun offset => ?_, ?_⟩
  · rw [syscallTelldir, get_bind, hd.dirSlot]
    exact congrFun (if_neg hno) s
  · rw [syscallSeekdir, get_bind, hd.dirSlot]
    exact congrFun (if_neg fun hc => hno hc.1) s
  · rw [syscallRewinddir, get_bind, hd.dirSlot]
    exact congrFun (if_neg hno) s

/-- One of the four calls leads from `s` to `t`. -/
inductive DirCall (pid fd : Nat) (s t : Fs) : Prop
  | readdir {de : Option DirEnt} (run : syscallReaddir pid fd s = some (de, t))
  | seekdir {offset : Int} (run : syscallSeekdir pid fd offset s = some ((), t))
  | telldir {pos : Int} (run : syscallTelldir pid fd s = some (pos, t))
  | rewinddir (run : syscallRewinddir pid fd s = some ((), t))

/-- What the four calls are to do together: going back to where `telldir` was called, the same entries come
    again; after `rewinddir` all entries come, from the first one on; and no other slot is touched. -/
structure Rereads (s : Fs) (pid fd h : Nat) (cs : List Int) : Prop where
  again : ∀ n m, ∃ pos des u w des', syscallTelldir pid fd s = some (pos, s) ∧
    readdirs pid fd n s = some (des, u) ∧ syscallSeekdir pid fd pos u = some ((), w) ∧
    (readdirs pid fd m s).map Prod.fst = some des' ∧ (readdirs pid fd m w).map Prod.fst = some des'
  fromStart : ∃ u, syscallRewinddir pid fd s = some ((), u) ∧ ∀ m, (readdirs pid fd m u).map Prod.fst =
    some ((List.range m).map fun k => (listingFrom s cs 0)[k]?)
  others : ∀ t j, DirCall pid fd s t → j ≠ h → t.openFileTable j = s.openFileTable j

theorem OpenDir.rereads_same (hd : OpenDir s pid fd fd cs)
    (hpos : (s.openFileTable fd).curPosition < 2147483648) : Rereads s pid fd fd cs := by
  have hself := seekTo_self s fd
  refine ⟨fun n m => ?_, ?_, fun t j hcall hj => ?_⟩
  · obtain ⟨des, j, hn⟩ := hd.readdirs_any n _ hpos
    obtain ⟨des', j', hm⟩ := hd.readdirs_any m _ hpos
    rw [hself] at hn hm
    have hback := (hd.seekTo j).seekdir (hd.seekTo j).dir (s.openFileTable fd).curPosition
    rw [seekTo_seekTo, hself] at hback
    refine ⟨_, des, _, s, des', hd.telldir hd.dir hpos, hn, hback, ?_, ?_⟩ <;>
    · rw [hm]
      rfl
  · refine ⟨_, hd.rewinddir hd.dir, fun m => ?_⟩
    obtain ⟨j, hm⟩ := hd.readdirs m 0 (by decide)
    rw [hm]
    rfl
  · cases hcall with
    | readdir hrun =>
      rw [hd.readdir hpos] at hrun
      cases hrun
      cases foundAt s fd with
      | some r => exact seekTo_ne s _ hj
      | none => rfl
    | @seekdir offset hrun =>
      by_cases hoff : 0 ≤ offset
      · rw [← Int.toNat_of_nonneg hoff, hd.seekdir hd.dir] at hrun
        cases hrun
        exact seekTo_ne s _ hj
      rw [syscallSeekdir, get_bind, hd.dirSlot] at hrun
      dsimp only at hrun
      rw [if_neg fun hc => hoff hc.2] at hrun
      cases hrun
      rfl
    | telldir hrun =>
      rw [hd.telldir hd.dir hpos] at hrun
      cases hrun
      rfl
    | rewinddir hrun =>
      rw [hd.rewinddir hd.dir] at hrun
      cases hrun
      exact seekTo_ne s _ hj

theorem OpenDir.readdirs_none (hd : OpenDir s pid fd h cs)
    (hpos : (s.openFileTable h).curPosition < 2147483648) (hnone : foundAt s h = none) (n : Nat) :
    AtomOs.readdirs pid fd n s = some ((List.range n).map fun _ => none, s) := by
  have hread := hd.readdir hpos
  rw [hnone] at hread
  induction n with
  | zero => rfl
  | succ n ih =>
    rw [AtomOs.readdirs, bind_of_some hread, bind_of_some ih, List.range_succ_eq_map, List.map_cons,
      List.map_map]
    rfl

/-- **The descriptor is another number.** Then only a directory without entries does as it should, and only
    if no directory is open in the slot with that number. -/
theorem OpenDir.rereads_other (hd : OpenDir s pid fd h cs) (hne : h ≠ fd)
    (hpos : (s.openFileTable h).curPosition < 2147483648) : Rereads s pid fd h cs ↔
    hasFlag (s.openFileTable fd).flags ftflagsDir = false ∧ foundAt s h = none ∧ listingFrom s cs 0 = [] := by
  constructor
  · intro hall
    have hdir : hasFlag (s.openFileTable fd).flags ftflagsDir = false := by
      rw [Bool.eq_false_iff]
      intro hdir
      -- `seekdir` moves the position of the other directory
      have hkept := hall.others _ fd (.seekdir (hd.seekdir hdir ((s.openFileTable fd).curPosition + 1))) hne.symm
      rw [seekTo_slot] at hkept
      have hkept := congrArg FileTableEntry.curPosition hkept
      exact absurd hkept (Nat.succ_ne_self _)
    obtain ⟨htell, hseek, hrewind⟩ := hd.no_dir hdir
    have hnone : foundAt s h = none := by
      cases hfound : foundAt s h with
      | none => rfl
      | some r =>
        -- after one call, the next one finds an entry further behind
        have hread := hd.readdir hpos
        rw [hfound] at hread
        dsimp only [Option.map_some] at hread
        have hfirst : AtomOs.readdirs pid fd 1 s = some ([some r.dirEnt], s.seekTo h (r.off + 32)) := by
          rw [AtomOs.readdirs, bind_of_some hread]
          rfl
        have hdir' : hasFlag ((s.seekTo h (r.off + 32)).openFileTable fd).flags ftflagsDir = false := by
          rw [seekTo_ne s _ hne.symm]
          exact hdir
        obtain ⟨pos, des, u, w, des', -, hn, hback, hm, hm'⟩ := hall.again 1 1
        rw [hfirst] at hn hm
        cases hn
        cases hm
        rw [((hd.seekTo (r.off + 32)).no_dir hdir').2.1] at hback
        cases hback
        have hread' := (hd.seekTo (r.off + 32)).readdir
          (by rw [seekTo_slot]; exact (hd.found_off hfound).2)
        rw [AtomOs.readdirs, bind_of_some hread'] at hm'
        have hm' : some [(foundAt (s.seekTo h (r.off + 32)) h).map ReadEntry.dirEnt] =
            some [some r.dirEnt] := hm'
        obtain ⟨r', hr', hent⟩ := Option.map_eq_some_iff.mp (List.singleton_inj.mp (Option.some.inj hm'))
        have hle := ((hd.seekTo (r.off + 32)).found_off hr').1
        rw [seekTo_slot] at hle
        have hsame : r'.off = r.off := congrArg DirEnt.off hent
        dsimp only at hle
        omega
    refine ⟨hdir, hnone, ?_⟩
    obtain ⟨u, hu, hlist⟩ := hall.fromStart
    rw [hrewind] at hu
    cases hu
    have hfirst := hlist 1
    rw [hd.readdirs_none hpos hnone] at hfirst
    have hhead : (listingFrom s cs 0)[0]? = none := by
      simpa using hfirst.symm
    simpa using hhead
  · rintro ⟨hdir, hnone, hempty⟩
    obtain ⟨htell, hseek, hrewind⟩ := hd.no_dir hdir
    refine ⟨fun n m => ⟨_, _, s, s, _, htell, hd.readdirs_none hpos hnone n, hseek _,
      by rw [hd.readdirs_none hpos hnone m]; rfl, by rw [hd.readdirs_none hpos hnone m]; rfl⟩,
      ⟨s, hrewind, fun m => ?_⟩, fun t j hcall _ => ?_⟩
    · rw [hd.readdirs_none hpos hnone m, hempty]
      rfl
    · cases hcall with
      | readdir hrun =>
        rw [hd.readdir hpos, hnone] at hrun
        cases hrun
        rfl
      | seekdir hrun =>
        rw [hseek] at hrun
        cases hrun
        rfl
      | telldir hrun =>
        rw [htell] at hrun
        cases hrun
        rfl
      | rewinddir hrun =>
        rw [hrewind] at hrun
        cases hrun
        rfl

/-- **Positions in a directory** are as they should be just if the descriptor of the directory is the number
    of its slot, or nothing is there to be listed and the slot with the number of the descriptor is no
    directory. -/
theorem dir_positions (hd : OpenDir s pid fd h cs) (hpos : (s.openFileTable h).curPosition < 2147483648) :
    Rereads s pid fd h cs ↔ h = fd ∨ hasFlag (s.openFileTable fd).flags ftflagsDir = false ∧
      foundAt s h = none ∧ listingFrom s cs 0 = [] := by
  by_cases hsame : h = fd
  · subst hsame
    exact iff_of_true (hd.rereads_same hpos) (.inl rfl)
  · rw [hd.rereads_other hsame hpos]
    exact (or_iff_right hsame).symm

end calls

/-! ## A directory with two files -/

/-- Process 0 has the root directory open in slot `h`, as descriptor 3. It holds the files `A` and `B`. -/
def dirOpen (h : Nat) : Fs :=
  let s := mountroot (fun _ => 0) fun b =>
    if b = 19 then (Bytes.zero.copy 0 12 (Bytes.ofList (blankTo 11 [65] ++ [0x20]))).copy 32 12
      (Bytes.ofList (blankTo 11 [66] ++ [0x20]))
    else Bytes.zero
  { s with
    openFileTable := fun i => if i = h then ⟨1, 3, 0, 0, 1⟩ else s.openFileTable i
    procs := fun pid => { s.procs pid with
      fhandles := fun fd => if pid = 0 ∧ fd = 3 then h else (s.procs pid).fhandles fd } }

theorem openDir_dirOpen {h : Nat} (hlt : h < ftableSize) : OpenDir (dirOpen h) 0 3 h rootClusters := by
  have hslot : (dirOpen h).openFileTable h = ⟨1, 3, 0, 0, 1⟩ := if_pos rfl
  refine ⟨by decide, rfl, hlt, ?_, ?_, fun _ => rfl, ?_, by decide⟩
  · rw [hslot]
    decide
  · rw [hslot]
    have hcount : ((dirOpen h).vnodes 1).count = 1 := rfl
    exact ⟨by decide, by rw [hcount]; decide, by rw [hcount]; decide⟩
  · have hstart : Dirent.startCluster rootDirent = -12 := by decide
    show DirChain _ (Dirent.startCluster rootDirent) _
    exact dirChain_root _

/-- **The second entry comes after `rewinddir`.** The descriptor is 3 and the slot 0. -/
theorem rewinddir_does_nothing : OpenDir (dirOpen 0) 0 3 0 rootClusters ∧
    ∃ t u de de', readdirs 0 3 1 (dirOpen 0) = some ([some de], t) ∧
      syscallRewinddir 0 3 t = some ((), u) ∧ (readdirs 0 3 1 u).map Prod.fst = some [some de'] ∧
      (listingFrom (dirOpen 0) rootClusters 0)[0]? = some de ∧ de' ≠ de := by
  obtain ⟨⟨_, t⟩, hread, rfl, ⟨_, u⟩, hrewind, hread'⟩ : ∃ r ∈ readdirs 0 3 1 (dirOpen 0),
      r.1 = [some ⟨0, 0, 32, [65]⟩] ∧ ∃ q ∈ syscallRewinddir 0 3 r.2,
        (readdirs 0 3 1 q.2).map Prod.fst = some [some ⟨0, 32, 32, [66]⟩] := by decide +kernel
  refine ⟨openDir_dirOpen (by decide), t, u, _, _, hread, hrewind, hread', ?_, by decide⟩
  decide +kernel

/-- The theorem where both numbers are 3: the first entry is read, and comes again. -/
theorem dir_positions_dirOpen : OpenDir (dirOpen 3) 0 3 3 rootClusters ∧
    Rereads (dirOpen 3) 0 3 3 rootClusters :=
  have hopen := openDir_dirOpen (h := 3) (by decide)
  ⟨hopen, (dir_positions hopen (by decide)).mpr (.inl rfl)⟩

end AtomOs
