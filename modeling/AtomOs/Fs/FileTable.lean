import Mathlib.Algebra.BigOperators.Group.Finset.Piecewise
import Mathlib.Data.Finset.Prod
import AtomOs.Fs.Frames

/-!
# Reference counts of the open file table

Descriptors of processes refer to slots of the open file table. `TableOk` says that a slot is in
use exactly if some descriptor refers to it, and that its `fte_refcount` is the number of those.

Sharing a slot (`dup`, `dup2`, inheritance) and giving up a share (`close`) keep the counts right:
`TableOk.share` and `TableOk.close`, over which **`file_table_counts`** runs. What does not is the
call that hands out a slot in the first place. Neither `syscall_open` nor `syscall_creat` sets
`fte_refcount`, so a slot that was just opened has one reference and the count 0
(`open_not_counted`), and its `close` makes that −1 instead of freeing the slot.
-/

namespace AtomOs

open Lib Prog

variable {a : Unit} {fd fvn mode pid vn : Nat} {path : List Nat} {ret : Int} {s t : Fs}

def maxProcesses : Nat := 32

/-- All descriptors: a process and an index into its `fhandles`. -/
def descriptors : Finset (Nat × Nat) := Finset.range maxProcesses ×ˢ Finset.range maxProcFiles

def handleAt (s : Fs) (d : Nat × Nat) : Int := (s.procs d.1).fhandles d.2

/-- The number of descriptors that refer to a slot. -/
def refs (s : Fs) (h : Nat) : Nat := (descriptors.filter fun d => handleAt s d = h).card

/-- A slot is used exactly if a descriptor refers to it, and its count is the number of those. -/
structure TableOk (s : Fs) : Prop where
  used : ∀ h < ftableSize,
    (s.openFileTable h).flags ≠ fteUnused ↔ ∃ d ∈ descriptors, handleAt s d = h
  count : ∀ h < ftableSize, (s.openFileTable h).refCount = refs s h

/-! ## Counting -/

theorem mem_descriptors : (pid, fd) ∈ descriptors ↔ pid < maxProcesses ∧ fd < maxProcFiles := by
  simp [descriptors]

theorem refs_pos {h : Nat} : 0 < refs s h ↔ ∃ d ∈ descriptors, handleAt s d = h := by
  rw [refs, Finset.card_pos]
  simp [Finset.Nonempty]

theorem refs_update {d0 : Nat × Nat} (hd0 : d0 ∈ descriptors)
    (hrest : ∀ d ∈ descriptors, d ≠ d0 → handleAt t d = handleAt s d) (h : Nat) :
    refs t h + (if handleAt s d0 = h then 1 else 0) =
      refs s h + (if handleAt t d0 = h then 1 else 0) := by
  have hsum : ∀ u : Fs, refs u h = (if handleAt u d0 = h then 1 else 0) +
      ∑ d ∈ descriptors.erase d0, if handleAt u d = h then 1 else 0 := by
    intro u
    rw [refs, Finset.card_filter]
    exact (Finset.add_sum_erase descriptors (fun d => if handleAt u d = h then 1 else 0) hd0).symm
  have heq : ∑ d ∈ descriptors.erase d0, (if handleAt t d = h then 1 else 0) =
      ∑ d ∈ descriptors.erase d0, if handleAt s d = h then 1 else 0 := by
    refine Finset.sum_congr rfl fun d hd => ?_
    rw [hrest d (Finset.mem_of_mem_erase hd) (Finset.ne_of_mem_erase hd)]
  rw [hsum t, hsum s, heq]
  omega

/-! ## Taking and dropping a reference -/

/-- The table entry of `h` gets `f` applied to it, if `h` is a slot, and nothing else of the table
    or the processes changes. -/
structure EntryChange (s t : Fs) (h : Int) (f : FileTableEntry → FileTableEntry) : Prop where
  procs : t.procs = s.procs
  table : ∀ i, t.openFileTable i =
    if isSlot h ∧ (i : Int) = h then f (s.openFileTable i) else s.openFileTable i

variable {x : Int} {s₁ s₂ : Fs} {oldfd parent child type : Nat}

theorem isSlot_eq {i : Nat} (hi : i < ftableSize) : (isSlot x ∧ (i : Int) = x) ↔ x = i := by
  unfold isSlot
  omega

/-- The entry of `h` is stored in a state in which at most that entry is another one. -/
theorem EntryChange.of_setFte {h : Int} {x : FileTableEntry}
    {f : FileTableEntry → FileTableEntry} (hslot : isSlot h) (hprocs : s₁.procs = s.procs)
    (htab : ∀ i, i ≠ h.toNat → s₁.openFileTable i = s.openFileTable i)
    (hset : setFte h.toNat x s₁ = some (a, s₂)) (hx : x = f (s.openFileTable h.toNat))
    (ht : SameFiles s₂ t) : EntryChange s t h f := by
  cases hset
  refine ⟨ht.procs.trans hprocs, fun i => ?_⟩
  rw [ht.table]
  show (if i = h.toNat then x else s₁.openFileTable i) = _
  have hi : i = h.toNat ↔ (isSlot h ∧ (i : Int) = h) := by
    unfold isSlot at *
    omega
  by_cases hih : i = h.toNat
  · rw [if_pos hih, if_pos (hi.mp hih), hih, hx]
  · rw [if_neg hih, if_neg (hih ∘ hi.mpr), htab i hih]

theorem EntryChange.of_not_slot {h : Int} (f : FileTableEntry → FileTableEntry) (hslot : ¬ isSlot h) :
    EntryChange s s h f :=
  ⟨rfl, fun _ => (if_neg fun hc => hslot hc.1).symm⟩

theorem incrementRefCount_spec {h : Int} (hrun : incrementRefCount h s = some (a, t)) :
    EntryChange s t h fun fte => { fte with refCount := fte.refCount + 1 } := by
  unfold incrementRefCount at hrun
  split at hrun
  · rename_i hslot
    simp only [bind_some] at hrun
    obtain ⟨_, _, hget, _, s₁, h1, _, s₂, h2, _, s3, h3, hrun⟩ := hrun
    cases hget
    have hs2 : SameFiles s s₂ := (keeps_getVnode SameFiles _ _ _ _ h1).trans
      (keeps_addCount SameFiles _ _ _ _ _ h2)
    exact .of_setFte hslot hs2.procs (fun i _ => by rw [hs2.table]) h3 rfl
      (keeps_releaseVnode SameFiles _ _ _ _ hrun)
  · rename_i hslot
    cases hrun
    exact .of_not_slot _ hslot

theorem decrementRefCount_spec {h : Int} (hrun : decrementRefCount h s = some (a, t)) :
    EntryChange s t h fun fte => { fte with
      refCount := fte.refCount - 1
      flags := if fte.refCount - 1 = 0 then fteUnused else fte.flags } := by
  unfold decrementRefCount at hrun
  split at hrun
  · rename_i hslot
    simp only [bind_some] at hrun
    obtain ⟨_, _, hget, _, s₁, h1, _, s₂, h2, _, s3, h3, _, s4, h4, hrun⟩ := hrun
    cases hget
    have hs2 : SameFiles s s₂ := (keeps_getVnode SameFiles _ _ _ _ h1).trans
      (keeps_addCount SameFiles _ _ _ _ _ h2)
    have hs4 := keeps_releaseVnode SameFiles _ _ _ _ h4
    split at hrun
    · rename_i hzero
      have hchange : EntryChange s s4 h fun fte => { fte with refCount := fte.refCount - 1 } :=
        .of_setFte hslot hs2.procs (fun i _ => by rw [hs2.table]) h3 rfl hs4
      refine .of_setFte hslot hchange.procs (fun i hi => ?_) hrun ?_ (SameFiles.refl t)
      · rw [hchange.table, if_neg fun hc => hi (by omega)]
      · rw [if_pos hzero]
    · rename_i hzero
      cases hrun
      refine .of_setFte hslot hs2.procs (fun i _ => by rw [hs2.table]) h3 ?_ hs4
      rw [if_neg hzero]
  · rename_i hslot
    cases hrun
    exact .of_not_slot _ hslot

theorem setHandle_spec (hrun : setHandle pid fd x s = some (a, t)) :
    t.openFileTable = s.openFileTable ∧
      ∀ d, handleAt t d = if d = (pid, fd) then x else handleAt s d := by
  cases hrun
  refine ⟨rfl, fun d => ?_⟩
  obtain ⟨p, i⟩ := d
  show (if p = pid then _ else s.procs p).fhandles i = _
  by_cases hp : p = pid
  · subst hp
    by_cases hi : i = fd
    · simp [hi]
    · simp [hi, handleAt]
  · simp [hp, handleAt]

theorem handleAt_of_procs (h : t.procs = s.procs) (d : Nat × Nat) : handleAt t d = handleAt s d := by
  rw [handleAt, h, handleAt]

theorem freeHandle_some {i : Nat} (h : freeHandle (s.procs pid) = some i) :
    i < maxProcFiles ∧ handleAt s (pid, i) = fhUnused := by
  refine ⟨by simpa using List.mem_of_find?_eq_some h, ?_⟩
  simpa [handleAt] using List.find?_some h

/-- A `close` drops the reference of the descriptor, or it does nothing. -/
theorem syscallClose_some (hrun : syscallClose pid fd s = some (ret, t)) :
    (ret = 0 ∧ fd < maxProcFiles ∧ isSlot (handleAt s (pid, fd)) ∧
      (∃ a b u, decrementRefCount (handleAt s (pid, fd)) s = some (a, u) ∧
        setHandle pid fd fhUnused u = some (b, t)) ∧
      ∀ d, handleAt t d = if d = (pid, fd) then fhUnused else handleAt s d) ∨
    ¬ (fd < maxProcFiles ∧ isSlot (handleAt s (pid, fd))) ∧ t = s ∧
      (ret = einvalidHandle ∨ fd < maxProcFiles ∧ ftableSize ≤ handleAt s (pid, fd) ∧
        handleAt s (pid, fd) < sockHandleEnd) := by
  unfold syscallClose at hrun
  rw [get_bind] at hrun
  split at hrun
  · rename_i hcase
    simp only [bind_some] at hrun
    obtain ⟨a, u, h1, b, v, h2, hrun⟩ := hrun
    cases hrun
    refine .inl ⟨rfl, hcase.1, hcase.2, ⟨a, b, u, h1, h2⟩, fun d => ?_⟩
    rw [(setHandle_spec h2).2 d, handleAt_of_procs (decrementRefCount_spec h1).procs]
  · rename_i hcase
    split at hrun
    · rename_i hsock
      cases hrun
      exact .inr ⟨hcase, rfl, .inr hsock⟩
    · cases hrun
      exact .inr ⟨hcase, rfl, .inl rfl⟩

/-! ## Sharing a slot and giving it up -/

theorem TableOk.of_slots (h : ∀ i < ftableSize,
    ((t.openFileTable i).flags ≠ fteUnused ↔ 0 < refs t i) ∧ (t.openFileTable i).refCount = refs t i) :
    TableOk t :=
  ⟨fun i hi => (h i hi).1.trans refs_pos, fun i hi => (h i hi).2⟩

section moves

variable {s : Fs} (h : TableOk s)
include h

theorem TableOk.share {u : Fs} {b : Unit} (hd : (pid, fd) ∈ descriptors)
    (hold : ¬ isSlot (handleAt s (pid, fd))) (hx : isSlot x → ∃ d ∈ descriptors, handleAt s d = x)
    (hset : setHandle pid fd x s = some (a, t)) (hinc : incrementRefCount x t = some (b, u)) :
    TableOk u := by
  obtain ⟨htab, hhan⟩ := setHandle_spec hset
  obtain ⟨hprocs, hentry⟩ := incrementRefCount_spec hinc
  have hhan' : ∀ d, handleAt u d = if d = (pid, fd) then x else handleAt s d := by
    intro d
    rw [← hhan d, handleAt_of_procs hprocs]
  have hrefs : ∀ i < ftableSize, refs u i = refs s i + if x = i then 1 else 0 := by
    intro i hi
    have hcount := refs_update (s := s) (t := u) hd (fun d _ hne => by rw [hhan', if_neg hne]) i
    rw [hhan' (pid, fd), if_pos rfl] at hcount
    have hne : handleAt s (pid, fd) ≠ i := by
      intro heq
      unfold isSlot at hold
      omega
    rw [if_neg hne] at hcount
    exact hcount
  refine TableOk.of_slots fun i hi => ?_
  have hused := h.used i hi
  rw [← refs_pos] at hused
  rw [hrefs i hi, hentry, htab]
  by_cases hxi : x = i
  · obtain ⟨d, hdm, hdx⟩ := hx ((isSlot_eq hi).mpr hxi).1
    have hpos := refs_pos.mpr ⟨d, hdm, hdx.trans hxi⟩
    rw [if_pos ((isSlot_eq hi).mpr hxi), if_pos hxi]
    refine ⟨iff_of_true (hused.mpr hpos) (Nat.succ_pos _), ?_⟩
    show (s.openFileTable i).refCount + 1 = _
    rw [h.count i hi]
    rfl
  · rw [if_neg (hxi ∘ (isSlot_eq hi).mp), if_neg hxi, Nat.add_zero]
    exact ⟨hused, h.count i hi⟩

/-- `syscall_close` gives up one reference; the other descriptors still refer to what they
    referred to. -/
theorem TableOk.close (hpid : pid < maxProcesses) (hrun : syscallClose pid fd s = some (ret, t)) :
    TableOk t ∧ (∀ d, d ≠ (pid, fd) → handleAt t d = handleAt s d) ∧
      (fd < maxProcFiles → ¬ isSlot (handleAt s (pid, fd)) ∧ handleAt t (pid, fd) =
        handleAt s (pid, fd) ∨ handleAt t (pid, fd) = fhUnused) := by
  obtain ⟨-, hfd, hslot, ⟨_, _, u, h1, h2⟩, hhan⟩ | ⟨hno, rfl, -⟩ := syscallClose_some hrun
  swap
  · exact ⟨h, fun _ _ => rfl, fun hfd => .inl ⟨fun hc => hno ⟨hfd, hc⟩, rfl⟩⟩
  obtain ⟨-, hentry⟩ := decrementRefCount_spec h1
  have htab := (setHandle_spec h2).1
  have hd : (pid, fd) ∈ descriptors := mem_descriptors.mpr ⟨hpid, hfd⟩
  refine ⟨?_, fun d hne => by rw [hhan, if_neg hne], fun _ => .inr (by rw [hhan, if_pos rfl])⟩
  generalize hx : handleAt s (pid, fd) = x at hslot hentry
  refine TableOk.of_slots fun i hi => ?_
  have hr : refs t i + (if x = i then 1 else 0) = refs s i := by
    have hcount := refs_update (s := s) (t := t) hd (fun d _ hne => by rw [hhan, if_neg hne]) i
    have hne : fhUnused ≠ i := by
      unfold fhUnused
      omega
    rw [hhan (pid, fd), if_pos rfl, hx, if_neg hne] at hcount
    exact hcount
  have hcount := h.count i hi
  have hused := h.used i hi
  rw [← refs_pos] at hused
  rw [htab, hentry]
  by_cases hxi : x = i
  · rw [if_pos hxi] at hr
    rw [if_pos ((isSlot_eq hi).mpr hxi)]
    refine ⟨?_, ?_⟩
    · show (if (s.openFileTable i).refCount - 1 = 0 then _ else _) ≠ fteUnused ↔ _
      split
      · exact ⟨fun hc => absurd rfl hc, fun hc => by omega⟩
      · exact ⟨fun _ => by omega, fun _ => hused.mpr (by omega)⟩
    · show (s.openFileTable i).refCount - 1 = _
      omega
  · rw [if_neg hxi, Nat.add_zero] at hr
    rw [if_neg (hxi ∘ (isSlot_eq hi).mp), hr]
    exact ⟨hused, hcount⟩

theorem TableOk.dup (hpid : pid < maxProcesses)
    (hrun : syscallDup pid oldfd s = some (ret, t)) : TableOk t := by
  unfold syscallDup at hrun
  rw [get_bind] at hrun
  split at hrun
  · cases hrun
    exact h
  rename_i hcase
  cases hfree : freeHandle (s.procs pid) with
  | none =>
    rw [hfree] at hrun
    cases hrun
    exact h
  | some i =>
    rw [hfree] at hrun
    simp only [bind_some] at hrun
    obtain ⟨_, s₁, h1, _, s₂, h2, hrun⟩ := hrun
    cases hrun
    obtain ⟨hi, hunused⟩ := freeHandle_some hfree
    refine h.share (mem_descriptors.mpr ⟨hpid, hi⟩) ?_ (fun _ => ?_) h1 h2
    · rw [hunused]
      decide
    · exact ⟨(pid, oldfd), mem_descriptors.mpr ⟨hpid, by omega⟩, rfl⟩

theorem TableOk.dup2 {newfd : Nat} (hpid : pid < maxProcesses)
    (hrun : syscallDup2 pid oldfd newfd s = some (ret, t)) : TableOk t := by
  unfold syscallDup2 at hrun
  rw [get_bind] at hrun
  split at hrun
  · cases hrun
    exact h
  rename_i hcase
  have hold : oldfd < maxProcFiles := by omega
  have hnew : newfd < maxProcFiles := by omega
  have hd : (pid, newfd) ∈ descriptors := mem_descriptors.mpr ⟨hpid, hnew⟩
  -- From any state in which the new descriptor refers to no slot.
  have hshare : ∀ {u : Fs} {a b : Unit} {v w : Fs}, TableOk u → ¬ isSlot (handleAt u (pid, newfd)) →
      setHandle pid newfd ((u.procs pid).fhandles oldfd) u = some (a, v) →
      incrementRefCount ((u.procs pid).fhandles oldfd) v = some (b, w) → TableOk w := by
    intro u a b v w hu hno h1 h2
    exact hu.share hd hno (fun _ => ⟨(pid, oldfd), mem_descriptors.mpr ⟨hpid, hold⟩, rfl⟩) h1 h2
  split at hrun
  · rename_i hopen
    simp only [bind_some] at hrun
    obtain ⟨_, s₁, h1, _, _, hget, _, s₂, h2, _, s3, h3, hrun⟩ := hrun
    cases hget
    cases hrun
    obtain ⟨hok, -, hno⟩ := h.close hpid h1
    refine hshare hok ?_ h2 h3
    rcases hno hnew with ⟨hno, hsame⟩ | hunused
    · rw [hsame]
      exact hno
    · rw [hunused]
      decide
  · rename_i hopen
    simp only [bind_some] at hrun
    obtain ⟨_, _, hget, _, s₂, h2, _, s3, h3, hrun⟩ := hrun
    cases hget
    cases hrun
    exact hshare h (fun hc => hopen hc.1) h2 h3

theorem TableOk.inheritHandles (hparent : parent < maxProcesses) (hchild : child < maxProcesses)
    (hnew : ∀ fd < maxProcFiles, ¬ isSlot (handleAt s (child, fd))) :
    ∀ {n : Nat} {a : Unit} {t : Fs}, n ≤ maxProcFiles →
      AtomOs.inheritHandles parent child n s = some (a, t) →
      TableOk t ∧ ∀ fd, n ≤ fd → handleAt t (child, fd) = handleAt s (child, fd) := by
  intro n
  induction n with
  | zero =>
    intro a t _ hrun
    cases hrun
    exact ⟨h, fun _ _ => rfl⟩
  | succ n ih =>
    intro a t hn hrun
    unfold AtomOs.inheritHandles at hrun
    simp only [bind_some] at hrun
    obtain ⟨_, s₁, h1, _, _, hget, _, s₂, h2, hrun⟩ := hrun
    cases hget
    obtain ⟨hok, hsame⟩ := ih (by omega) h1
    have hinc : ∃ b, incrementRefCount ((s₁.procs parent).fhandles n) s₂ = some (b, t) := by
      split at hrun
      · exact ⟨_, hrun⟩
      rename_i hneg
      cases hrun
      refine ⟨(), ?_⟩
      unfold incrementRefCount
      rw [if_neg fun hc => hneg hc.1]
      rfl
    obtain ⟨b, hinc⟩ := hinc
    have hno : ¬ isSlot (handleAt s₁ (child, n)) := by
      rw [hsame n (Nat.le_refl n)]
      exact hnew n (by omega)
    refine ⟨hok.share (mem_descriptors.mpr ⟨hchild, by omega⟩) hno (fun _ => ?_) h2 hinc, ?_⟩
    · exact ⟨(parent, n), mem_descriptors.mpr ⟨hparent, by omega⟩, rfl⟩
    · intro fd hfd
      obtain ⟨hprocs, -⟩ := incrementRefCount_spec hinc
      obtain ⟨-, hhan⟩ := setHandle_spec h2
      have hfd' : (child, fd) ≠ (child, n) := by
        intro heq
        have := (Prod.mk.inj heq).2
        omega
      rw [handleAt_of_procs hprocs, hhan, if_neg hfd', hsame fd (by omega)]

theorem TableOk.congr (htab : t.openFileTable = s.openFileTable)
    (hhan : ∀ d, handleAt t d = handleAt s d) : TableOk t := by
  constructor
  · intro i hi
    simp only [htab, hhan]
    exact h.used i hi
  · intro i hi
    simp only [htab, refs, hhan]
    exact h.count i hi

theorem TableOk.sameFiles (hst : SameFiles s t) : TableOk t :=
  h.congr hst.table (handleAt_of_procs hst.procs)

theorem TableOk.inheritFiles (hparent : parent < maxProcesses) (hchild : child < maxProcesses)
    (hnew : ∀ fd < maxProcFiles, ¬ isSlot (handleAt s (child, fd)))
    (hrun : AtomOs.inheritFiles parent child s = some (a, t)) : TableOk t := by
  unfold AtomOs.inheritFiles at hrun
  simp only [bind_some] at hrun
  obtain ⟨cur, s₁, h1, _, s₂, h2, _, s3, h3, root, s4, h4, _, s5, h5, _, s6, h6, _, s7, h7, hrun⟩ :=
    hrun
  have hs6 : SameFiles s s6 :=
    ((((keeps_getCurdir SameFiles _ _ _ _ h1).trans (keeps_addCount SameFiles _ _ _ _ _ h2)).trans
      (keeps_releaseVnode SameFiles _ _ _ _ h3)).trans (keeps_getRootdir SameFiles _ _ _ _ h4)).trans
      ((keeps_addCount SameFiles _ _ _ _ _ h5).trans (keeps_releaseVnode SameFiles _ _ _ _ h6))
  cases h7
  -- The new process has its directories; its descriptors are still those it came with.
  have hhan : ∀ d,
      handleAt (s6.setProc child ⟨root, cur, (s6.procs child).fhandles⟩) d = handleAt s d := by
    intro d
    rw [handleAt, Fs.setProc]
    dsimp only
    rw [hs6.procs]
    by_cases hd : d.1 = child
    · rw [if_pos hd, ← hd]
      rfl
    · rw [if_neg hd]
      rfl
  have hok := h.congr (t := s6.setProc child _) hs6.table hhan
  refine (hok.inheritHandles hparent hchild (fun fd hfd => ?_) (Nat.le_refl _) hrun).1
  rw [hhan]
  exact hnew fd hfd

end moves

/-! ## Calls that take no slot -/

/-- What `syscall_open` and `syscall_creat` look up first: the directory and the file in it. -/
def findFile (pid : Nat) (path : List Nat) : Prog Fs (Nat × Nat) := do
  let vn ← openDirPart pid (parsePath path).1
  if vn = 0 then return (0, 0)
  else
    let fvn ← fat12VopLookup vn (parsePath path).2
    return (vn, fvn)

/-- The call gets no slot of the table: the path is too long, no slot is unused, there is no such
    file and none can be made, or it may not be opened that way. -/
def TakesNoSlot (s : Fs) (pid : Nat) (path : List Nat) (creates : Bool) (refused : Bytes → Bool) :
    Prop :=
  pathMax < path.length ∨
  (∀ i < ftableSize, (s.openFileTable i).flags ≠ fteUnused) ∨
  ∀ vn fvn t, findFile pid path s = some ((vn, fvn), t) →
    vn = 0 ∨ (fvn = 0 ∧ (creates = false ∨ convertName (parsePath path).2 = none)) ∨
      (fvn ≠ 0 ∧ refused (t.vnodes fvn).data = true)

/-- How the calls on a path begin: they find the directory and look for the file in it. -/
theorem withFile_some {body : Nat → Nat → Prog Fs Int}
    (hrun : (if pathMax < path.length then pure elongPath else do
      let vn ← openDirPart pid (parsePath path).1
      if vn = 0 then pure epathNotExists else do
        let fvn ← fat12VopLookup vn (parsePath path).2
        body vn fvn : Prog Fs Int) s = some (ret, t)) :
    (ret = elongPath ∧ t = s) ∨
    (ret = epathNotExists ∧ ¬ pathMax < path.length ∧
      openDirPart pid (parsePath path).1 s = some (0, t)) ∨
    ∃ vn fvn s₁ s₂, ¬ pathMax < path.length ∧ vn ≠ 0 ∧
      openDirPart pid (parsePath path).1 s = some (vn, s₁) ∧
      fat12VopLookup vn (parsePath path).2 s₁ = some (fvn, s₂) ∧ SameFiles s s₂ ∧
      body vn fvn s₂ = some (ret, t) := by
  split at hrun
  · cases hrun
    exact .inl ⟨rfl, rfl⟩
  rename_i hlen
  obtain ⟨vn, s₁, h1, hrun⟩ := bind_some.mp hrun
  split at hrun
  · rename_i hvn
    cases hrun
    exact .inr (.inl ⟨rfl, hlen, hvn ▸ h1⟩)
  rename_i hvn
  obtain ⟨fvn, s₂, h2, hrun⟩ := bind_some.mp hrun
  exact .inr (.inr ⟨vn, fvn, s₁, s₂, hlen, hvn, h1, h2, (keeps_openDirPart SameFiles _ _ _ _ _ h1).trans
    (keeps_fat12VopLookup SameFiles _ _ _ _ _ h2), hrun⟩)

theorem TakesNoSlot.reason {creates : Bool} {refused : Bytes → Bool}
    (hno : TakesNoSlot s pid path creates refused) (hlen : ¬ pathMax < path.length) (hvn : vn ≠ 0)
    (h1 : openDirPart pid (parsePath path).1 s = some (vn, s₁))
    (h2 : fat12VopLookup vn (parsePath path).2 s₁ = some (fvn, s₂)) (hs2 : SameFiles s s₂) :
    (∀ i < ftableSize, (s₂.openFileTable i).flags ≠ fteUnused) ∨
      (fvn = 0 ∧ (creates = false ∨ convertName (parsePath path).2 = none)) ∨
      (fvn ≠ 0 ∧ refused (s₂.vnodes fvn).data = true) := by
  have hfind : findFile pid path s = some ((vn, fvn), s₂) := by
    unfold findFile
    rw [bind_of_some h1, if_neg hvn, bind_of_some h2]
    rfl
  rcases hno with hlong | hfull | hnot
  · exact absurd hlong hlen
  · rw [hs2.table]
    exact .inl hfull
  · exact .inr ((hnot vn fvn s₂ hfind).resolve_left hvn)

/-- The types of `syscall_open` that make a file if there is none. -/
def openCreates (type : Nat) : Bool :=
  hasFlag type oCreat || hasFlag type oWronly || hasFlag type oRdwr

def openRefuses (type : Nat) (d : Bytes) : Bool :=
  Dirent.isDir d || ((hasFlag (openType type) oWronly || hasFlag (openType type) oRdwr ||
    hasFlag (openType type) oAppend) && Dirent.readOnly d)

def creatRefuses (d : Bytes) : Bool := Dirent.isDir d || Dirent.readOnly d

theorem allocFtabSlot_full {r : Option Nat}
    (hfull : ∀ i < ftableSize, (s.openFileTable i).flags ≠ fteUnused)
    (hrun : allocFtabSlot s = some (r, t)) : r = none ∧ t = s := by
  have hnone : ((List.range ftableSize).find? fun i => (s.openFileTable i).flags == fteUnused) =
      none := by
    rw [List.find?_eq_none]
    intro i hi
    simpa using hfull i (by simpa using hi)
  unfold allocFtabSlot at hrun
  rw [get_bind] at hrun
  rw [hnone] at hrun
  cases hrun
  exact ⟨rfl, rfl⟩

/-- `syscall_open` once the file is there, if it is refused or the table is full. -/
theorem openFile_noSlot (hno : (∀ i < ftableSize, (s.openFileTable i).flags ≠ fteUnused) ∨
      openRefuses type (s.vnodes fvn).data = true)
    (hrun : openFile pid vn fvn type s = some (ret, t)) : SameFiles s t := by
  have hout := keeps_releaseBoth SameFiles vn fvn
  obtain ⟨-, hrun⟩ := vnode_bind.mp hrun
  split at hrun
  · exact hout _ _ _ _ hrun
  rename_i hdir
  dsimp only at hrun
  split at hrun
  · exact hout _ _ _ _ hrun
  rename_i hro
  have hfull : ∀ i < ftableSize, (s.openFileTable i).flags ≠ fteUnused := by
    rcases hno with hfull | href
    · exact hfull
    unfold openRefuses at href
    simp only [Bool.or_eq_true] at href
    rcases href with href | href
    · exact absurd href hdir
    · exact absurd href hro
  rw [bind_some] at hrun
  obtain ⟨slot, s₂, h2, hrun⟩ := hrun
  obtain ⟨rfl, rfl⟩ := allocFtabSlot_full hfull h2
  exact hout _ _ _ _ hrun

theorem creatFile_noSlot (hfull : ∀ i < ftableSize, (s.openFileTable i).flags ≠ fteUnused)
    (hrun : creatFile pid vn fvn s = some (ret, t)) : SameFiles s t := by
  unfold creatFile at hrun
  rw [bind_some] at hrun
  obtain ⟨slot, s₂, h2, hrun⟩ := hrun
  obtain ⟨rfl, rfl⟩ := allocFtabSlot_full hfull h2
  exact keeps_releaseBoth SameFiles fvn vn emaxFiles _ _ _ hrun

theorem fat12VopCreate_bad {dvn p : Nat} {name : List Nat}
    (hname : convertName name = none) (hrun : fat12VopCreate dvn name mode s = some (p, t)) :
    p = 0 ∧ t = s := by
  unfold fat12VopCreate at hrun
  rw [hname] at hrun
  cases hrun
  exact ⟨rfl, rfl⟩

theorem syscallOpen_noSlot (hno : TakesNoSlot s pid path (openCreates type) (openRefuses type))
    (hrun : syscallOpen pid path type mode s = some (ret, t)) : SameFiles s t := by
  obtain ⟨-, rfl⟩ | ⟨-, -, h1⟩ | ⟨vn, fvn, s₁, s₂, hlen, hvn, h1, h2, hs2, hrun⟩ := withFile_some hrun
  · exact SameFiles.refl _
  · exact keeps_openDirPart SameFiles _ _ _ _ _ h1
  have hwhy := hno.reason hlen hvn h1 h2 hs2
  split at hrun
  · rename_i hfvn
    refine hs2.trans (openFile_noSlot ?_ hrun)
    rcases hwhy with hfull | ⟨h0, -⟩ | ⟨-, href⟩
    · exact .inl hfull
    · exact absurd h0 hfvn
    · exact .inr href
  rename_i hfvn
  split at hrun
  · rename_i hcreate
    rw [bind_some] at hrun
    obtain ⟨fvn', s3, h3, hrun⟩ := hrun
    have hs3 := hs2.trans (keeps_fat12VopCreate SameFiles _ _ _ _ _ _ h3)
    split at hrun
    · exact hs3.trans (keeps_releaseOne SameFiles vn _ _ _ _ hrun)
    rename_i hne
    refine hs3.trans (openFile_noSlot (.inl ?_) hrun)
    rcases hwhy with hfull | ⟨-, hnot | hbad⟩ | ⟨hne', -⟩
    · rw [hs3.table, ← hs2.table]
      exact hfull
    · exact absurd hcreate (by simpa [openCreates] using hnot)
    · exact absurd (fat12VopCreate_bad hbad h3).1 hne
    · exact absurd hne' hfvn
  · exact hs2.trans (keeps_releaseOne SameFiles vn _ _ _ _ hrun)

theorem syscallCreat_noSlot (hno : TakesNoSlot s pid path true creatRefuses)
    (hrun : syscallCreat pid path mode s = some (ret, t)) : SameFiles s t := by
  obtain ⟨-, rfl⟩ | ⟨-, -, h1⟩ | ⟨vn, fvn, s₁, s₂, hlen, hvn, h1, h2, hs2, hrun⟩ := withFile_some hrun
  · exact SameFiles.refl _
  · exact keeps_openDirPart SameFiles _ _ _ _ _ h1
  have hwhy := hno.reason hlen hvn h1 h2 hs2
  split at hrun
  · rename_i hfvn
    obtain ⟨-, hrun⟩ := vnode_bind.mp hrun
    split at hrun
    · exact hs2.trans (keeps_releaseBoth SameFiles fvn vn _ _ _ _ hrun)
    rename_i hok
    rw [bind_some] at hrun
    obtain ⟨_, s4, h4, hrun⟩ := hrun
    have hs4 := hs2.trans (keeps_fat12VopTrunc SameFiles _ _ _ _ h4)
    refine hs4.trans (creatFile_noSlot ?_ hrun)
    rcases hwhy with hfull | ⟨h0, -⟩ | ⟨-, href⟩
    · rw [hs4.table, ← hs2.table]
      exact hfull
    · exact absurd h0 hfvn
    · exact absurd href hok
  · rename_i hfvn
    rw [bind_some] at hrun
    obtain ⟨fvn', s3, h3, hrun⟩ := hrun
    have hs3 := hs2.trans (keeps_fat12VopCreate SameFiles _ _ _ _ _ _ h3)
    split at hrun
    · exact hs3.trans (keeps_releaseOne SameFiles vn _ _ _ _ hrun)
    rename_i hne
    refine hs3.trans (creatFile_noSlot ?_ hrun)
    rcases hwhy with hfull | ⟨-, hnot | hbad⟩ | ⟨hne', -⟩
    · rw [hs3.table, ← hs2.table]
      exact hfull
    · exact absurd hnot (by simp)
    · exact absurd (fat12VopCreate_bad hbad h3).1 hne
    · exact absurd hne' hfvn

/-! ## Runs -/

/-- The calls that share and drop references, by processes of the process table; a new process has
    no slots of its own; and calls that open a file, as long as they get no slot. -/
def FtOpOk (s : Fs) : FsOp → Prop
  | .open pid path type _ =>
    pid < maxProcesses ∧ TakesNoSlot s pid path (openCreates type) (openRefuses type)
  | .creat pid path _ => pid < maxProcesses ∧ TakesNoSlot s pid path true creatRefuses
  | .close pid _ => pid < maxProcesses
  | .dup pid _ => pid < maxProcesses
  | .dup2 pid _ _ => pid < maxProcesses
  | .inherit parent child => parent < maxProcesses ∧ child < maxProcesses ∧
    ∀ fd < maxProcFiles, ¬ isSlot (handleAt s (child, fd))
  | _ => False

theorem TableOk.step {op : FsOp} (h : TableOk s) (hop : FtOpOk s op)
    (hstep : fsStep s op = some t) : TableOk t := by
  obtain ⟨⟨ret, u⟩, hrun, rfl⟩ := Option.map_eq_some_iff.mp hstep
  cases op with
  | «open» pid path type mode => exact h.sameFiles (syscallOpen_noSlot hop.2 hrun)
  | creat pid path mode => exact h.sameFiles (syscallCreat_noSlot hop.2 hrun)
  | close pid fd => exact (h.close hop hrun).1
  | dup pid oldfd => exact h.dup hop hrun
  | dup2 pid oldfd newfd => exact h.dup2 hop hrun
  | inherit parent child =>
    obtain ⟨_, v, hinherit, hret⟩ := bind_some.mp hrun
    cases hret
    exact h.inheritFiles hop.1 hop.2.1 hop.2.2 hinherit
  | read | write | lseek | mkdir | rmdir | chdir | unlink | stat | rename => exact hop.elim

/-- **The counts of the open file table.** From any state in which used slots are those with a
    descriptor and counts are numbers of descriptors, every sequence of `dup`, `dup2`, `close` and
    inheritance, by any processes, leads to such a state again; so does an `open` or `creat` that
    gets no slot. And from each such state, `close` leaves all other descriptors usable. -/
theorem file_table_counts {s t : Fs} (h : TableOk s) (hrun : Reaches fsStep FtOpOk s t) :
    TableOk t ∧ ∀ pid fd ret u, pid < maxProcesses → syscallClose pid fd t = some (ret, u) →
      ∀ d ∈ descriptors, d ≠ (pid, fd) → isSlot (handleAt t d) →
        handleAt u d = handleAt t d ∧
          (u.openFileTable (handleAt t d).toNat).flags ≠ fteUnused := by
  have hok : TableOk t := hrun.invariant TableOk h TableOk.step
  refine ⟨hok, fun pid fd ret u hpid hclose d hd hne hslot => ?_⟩
  obtain ⟨hok', hsame, -⟩ := hok.close hpid hclose
  refine ⟨hsame d hne, ?_⟩
  unfold isSlot at hslot
  refine (hok'.used _ (by omega)).mpr ⟨d, hd, ?_⟩
  rw [hsame d hne, Int.toNat_of_nonneg hslot.1]

/-- A mounted volume on which process 0 has the file at address 2 open, as descriptor 3. -/
def oneOpen : Fs :=
  let s := mountroot (fun _ => 0) fun _ => Bytes.zero
  { s with
    vnodes := fun p => if p = 2 then ⟨false, 1, 0, 0, 2, 1, Bytes.zero⟩ else s.vnodes p
    nextVnode := 3
    openFileTable := fun i => if i = 0 then ⟨1, 13, 0, 0, 2⟩ else s.openFileTable i
    procs := fun pid => { s.procs pid with
      fhandles := fun fd => if pid = 0 ∧ fd = 3 then 0 else (s.procs pid).fhandles fd } }

theorem handleAt_oneOpen (d : Nat × Nat) :
    handleAt oneOpen d = if d = (0, 3) then 0 else if d.2 < 3 then -1 - (d.2 : Int) else fhUnused := by
  obtain ⟨pid, fd⟩ := d
  simp only [Prod.mk.injEq]
  rfl

theorem oneOpen_tableOk : TableOk oneOpen := by
  have hnone : ∀ h : Nat, h ≠ 0 → ¬ ∃ d ∈ descriptors, handleAt oneOpen d = h := by
    rintro h hne ⟨d, -, hd⟩
    rw [handleAt_oneOpen, fhUnused] at hd
    split at hd
    · omega
    · split at hd <;> omega
  constructor
  · intro h _
    by_cases hh : h = 0
    · subst hh
      exact iff_of_true (by decide) ⟨(0, 3), by decide +kernel, by decide⟩
    · exact iff_of_false (by simp [oneOpen, hh, mountroot]) (hnone h hh)
  · intro h _
    by_cases hh : h = 0
    · subst hh
      decide +kernel
    · have hzero : refs oneOpen h = 0 := Nat.eq_zero_of_not_pos (hnone h hh ∘ refs_pos.mp)
      rw [hzero]
      simp [oneOpen, hh, mountroot]

/-- The descriptor is duplicated and then closed: one reference is left, and the count says so. -/
theorem file_table_counts_duplicate : ∃ t, Reaches fsStep FtOpOk oneOpen t ∧ TableOk t ∧
    handleAt t (0, 3) = fhUnused ∧ handleAt t (0, 4) = 0 ∧ (t.openFileTable 0).refCount = 1 := by
  obtain ⟨u, hdup, t, hclose, hobs⟩ : ∃ u ∈ fsStep oneOpen (.dup 0 3), ∃ t ∈ fsStep u (.close 0 3),
      handleAt t (0, 3) = fhUnused ∧ handleAt t (0, 4) = 0 ∧ (t.openFileTable 0).refCount = 1 := by
    decide +kernel
  have hreach : Reaches fsStep FtOpOk oneOpen t := by
    refine Reaches.snoc (Reaches.snoc (Reaches.refl _) ?_ hdup) ?_ hclose
    · exact (by decide : 0 < maxProcesses)
    · exact (by decide : 0 < maxProcesses)
  exact ⟨t, hreach, (file_table_counts oneOpen_tableOk hreach).1, hobs⟩

/-- A mounted volume with one file, `A`. -/
def oneFile : Fs := mountroot (fun _ => 0) fun b =>
  if b = 19 then Bytes.zero.copy 0 12 (Bytes.ofList (blankTo 11 [65] ++ [0x20])) else Bytes.zero

/-- `open("A", O_RDONLY)` by process 0, then `close` of the descriptor it got. After the `open`,
    slot 0 has one descriptor and the count 0; after the `close` it is still used, and no
    descriptor refers to it. -/
theorem open_not_counted : TableOk oneFile ∧
    ∃ t u, fsStep oneFile (.open 0 [65] oRdonly 0) = some t ∧ fsStep t (.close 0 3) = some u ∧
      refs t 0 = 1 ∧ (t.openFileTable 0).refCount = 0 ∧
      refs u 0 = 0 ∧ (u.openFileTable 0).flags ≠ fteUnused ∧
        (oneFile.openFileTable 0).flags = fteUnused := by
  obtain ⟨t, hopen, u, hclose, hrefs, hcount, hrefs', hflags⟩ :
      ∃ t ∈ fsStep oneFile (.open 0 [65] oRdonly 0), ∃ u ∈ fsStep t (.close 0 3), refs t 0 = 1 ∧
        (t.openFileTable 0).refCount = 0 ∧ refs u 0 = 0 ∧ (u.openFileTable 0).flags ≠ fteUnused := by
    decide +kernel
  refine ⟨?_, t, u, hopen, hclose, hrefs, hcount, hrefs', hflags, rfl⟩
  have hnone : ∀ h : Nat, ¬ ∃ d ∈ descriptors, handleAt oneFile d = h := by
    rintro h ⟨⟨pid, fd⟩, -, hd⟩
    change (if fd < 3 then -1 - (fd : Int) else fhUnused) = h at hd
    rw [fhUnused] at hd
    split at hd <;> omega
  constructor
  · intro h _
    exact iff_of_false (fun hc => hc rfl) (hnone h)
  · intro h _
    have hzero : refs oneFile h = 0 := Nat.eq_zero_of_not_pos (hnone h ∘ refs_pos.mp)
    rw [hzero]
    rfl

end AtomOs
