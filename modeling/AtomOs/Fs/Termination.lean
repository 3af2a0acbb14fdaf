import AtomOs.Fs.CountsRun
import AtomOs.Fs.Descriptors

/-!
# The files of a process that has come to its end

`thread_terminate_handler` closes the descriptors of the dead process with `syscall_close`, which
works on the process of the calling thread: for every descriptor number that is open in the dead
process, the descriptor with this number is closed in the other one. A file that is closed this way is
a file of the wrong process, and the dead one keeps its own (`terminates_other_files`).

**`termination_drops_own`** says when the handler still does what it is for, in both directions. The
dead process has no file open, the other one has no file at the numbers of its sockets, and there it
has each socket as often as the dead process has; `close` leaves the descriptor of a socket as it is,
so nothing is seen of it in the other process. A process without open descriptors is the plain case.
Then only the references to the current and the root directory are left to give back. The counts of the
vnodes may record any references, as long as these two are among them.
-/

namespace AtomOs.Files

open Lib Prog

variable {s t : Files} {pid dead : Nat} {R : Multiset Nat}

/-! ## What should be dropped -/

/-- The number of descriptors of a process that refer to `h`. -/
def handlesTo (s : Fs) (pid : Nat) (h : Int) : Nat :=
  ((Finset.range maxProcFiles).filter fun fd => handleAt s (pid, fd) = h).card

/-- The references of the process `dead` are gone, and nothing else has changed: slots and sockets
    have lost as many references as it had descriptors for them, and the vnodes have the references
    `R`, which are those of all others. -/
structure Dropped (s t : Files) (dead : Nat) (R : Multiset Nat) : Prop where
  procs : ∀ pid, pid ≠ dead → t.procs pid = s.procs pid
  slots : ∀ h < ftableSize, (t.openFileTable h).refCount =
    (s.openFileTable h).refCount - handlesTo s.toFs dead h
  socks : ∀ j < maxSockets, (t.socktable j).refCount =
    (s.socktable j).refCount - handlesTo s.toFs dead (j + ftableSize)
  vnodes : Refs t.toFs R

/-- The number of descriptors, up to the `n`-th, that are open in the process `dead` and refer to `h`
    in the process `pid`. -/
def sharedTo (s : Fs) (pid dead n : Nat) (h : Int) : Nat :=
  ((Finset.range n).filter fun fd => 0 ≤ handleAt s (dead, fd) ∧ handleAt s (pid, fd) = h).card

/-- The dead process has no file open, the other one has none at the numbers of its sockets, and there
    it has the same sockets. -/
structure SameSockets (s : Fs) (pid dead : Nat) : Prop where
  own : ∀ fd < maxProcFiles, ¬ isSlot (handleAt s (dead, fd))
  other : ∀ fd < maxProcFiles, 0 ≤ handleAt s (dead, fd) → ¬ isSlot (handleAt s (pid, fd))
  same : ∀ j < maxSockets, handlesTo s dead (j + ftableSize) =
    sharedTo s pid dead maxProcFiles (j + ftableSize)

/-! ## Directories -/

theorem dropDir_refs {s t : Fs} {R : Multiset Nat} {p : Nat} {a : Unit} (h : Refs s (p ::ₘ R))
    (hR : R.card + 3 ≤ refsMax) (hrun : dropDir p s = some (a, t)) : Refs t R := by
  unfold dropDir at hrun
  split at hrun
  · rename_i hp
    cases hrun
    exact Refs.drop_null (hp ▸ h)
  · simp only [bind_some] at hrun
    obtain ⟨_, s1, h1, _, s2, h2, hrun⟩ := hrun
    exact releaseVnode_refs (addCount_back h hR h1 h2) (by rw [Multiset.card_cons]; omega) hrun

theorem keeps_dropDir (p : Nat) : Keeps SameFiles (dropDir p) := by
  refine Keeps.ite (Keeps.pure _) (Keeps.bind (keeps_getVnode SameFiles p) fun _ => ?_)
  exact Keeps.bind (keeps_addCount SameFiles p _) fun _ => keeps_releaseVnode SameFiles p

/-! ## Sockets -/

theorem deleteSocket_some {j : Nat} {k : ProcSock} {a : Unit} (hrun : deleteSocket j k s = some (a, t)) :
    t.toFs = s.toFs ∧ t.socktable = Function.update s.socktable j
      { k with port := 0, transmitterUsing := true, type := .unused } := by
  unfold deleteSocket at hrun
  simp only [bind_some] at hrun
  obtain ⟨_, u, hlock, _, v, hunlock, hset⟩ := hrun
  obtain ⟨-, rfl⟩ := lockSocklist_some hlock
  cases hunlock
  cases hset
  exact ⟨rfl, rfl⟩

/-- A call that returns has taken one reference of the socket, and has left everything else. -/
theorem decrementSockrefCount_some {h : Int} {a : Unit} (hsock : isSock h)
    (hrun : decrementSockrefCount h s = some (a, t)) :
    t.toFs = s.toFs ∧ ∀ j, (t.socktable j).refCount =
      (s.socktable j).refCount - if j = sockIndex h then 1 else 0 := by
  have hcount : ∀ {k : ProcSock} (j), k.refCount = (s.socktable (sockIndex h)).refCount - 1 →
      (Function.update s.socktable (sockIndex h) k j).refCount =
        (s.socktable j).refCount - if j = sockIndex h then 1 else 0 := by
    intro k j hk
    by_cases hj : j = sockIndex h
    · rw [hj, Function.update_self, if_pos rfl, hk]
    · rw [Function.update_of_ne hj, if_neg hj, sub_zero]
  unfold decrementSockrefCount at hrun
  rw [if_pos hsock] at hrun
  obtain ⟨_, u, hlock, hrun⟩ := bind_some.mp hrun
  obtain ⟨-, rfl⟩ := lockSocklist_some hlock
  rw [get_bind] at hrun
  simp only at hrun
  split at hrun
  · obtain ⟨_, _, hset, hunlock⟩ := bind_some.mp hrun
    cases hset
    cases hunlock
    exact ⟨rfl, fun j => hcount j rfl⟩
  split at hrun
  · obtain ⟨_, _, hunlock, hrun⟩ := bind_some.mp hrun
    cases hunlock
    split at hrun
    · cases hrun
      exact ⟨rfl, fun j => hcount j rfl⟩
    · obtain ⟨hfs, htab⟩ := deleteSocket_some hrun
      exact ⟨hfs, fun j => by rw [htab]; exact hcount j rfl⟩
  split at hrun
  · cases hrun
    exact ⟨rfl, fun j => hcount j rfl⟩
  · obtain ⟨hfs, htab⟩ := deleteSocket_some hrun
    exact ⟨hfs, fun j => by rw [htab]; exact hcount j rfl⟩

/-! ## The loop over the descriptors -/

/-- What `close` does: it takes a reference of a socket, or frees the descriptor of a file, or does
    nothing. -/
theorem syscallClose_cases {fd : Nat} {ret : Int} (hfd : fd < maxProcFiles)
    (hrun : syscallClose pid fd s = some (ret, t)) :
    (isSock (handleAt s.toFs (pid, fd)) ∧ t.toFs = s.toFs ∧ ∀ j, (t.socktable j).refCount =
      (s.socktable j).refCount - if j = sockIndex (handleAt s.toFs (pid, fd)) then 1 else 0) ∨
    (isSlot (handleAt s.toFs (pid, fd)) ∧ ∀ d, handleAt t.toFs d =
      if d = (pid, fd) then fhUnused else handleAt s.toFs d) ∨
    ¬ isSock (handleAt s.toFs (pid, fd)) ∧ ¬ isSlot (handleAt s.toFs (pid, fd)) ∧ t.toFs = s.toFs ∧
      t.socktable = s.socktable := by
  unfold syscallClose at hrun
  rw [get_bind] at hrun
  by_cases hsock : isSock (handleAt s.toFs (pid, fd))
  · rw [if_pos ⟨hfd, hsock⟩, syscallCloseSocket, get_bind] at hrun
    rw [if_neg (not_le.mpr hfd), if_pos (show isSock ((s.procs pid).fhandles fd) from hsock)] at hrun
    obtain ⟨_, u, hdec, hrun⟩ := bind_some.mp hrun
    cases hrun
    exact .inl ⟨hsock, decrementSockrefCount_some hsock hdec⟩
  · rw [if_neg fun h => hsock h.2] at hrun
    obtain ⟨hclose, hsocks⟩ := onFs_some hrun
    obtain ⟨-, -, hslot, -, hhan⟩ | ⟨hslot, hsame, -⟩ := syscallClose_some hclose
    · exact .inr (.inl ⟨hslot, hhan⟩)
    · exact .inr (.inr ⟨hsock, fun h => hslot ⟨hfd, h⟩, hsame, hsocks⟩)

theorem sharedTo_succ (s : Fs) (n : Nat) (h : Int) : sharedTo s pid dead (n + 1) h =
    sharedTo s pid dead n h +
      if 0 ≤ handleAt s (dead, n) ∧ handleAt s (pid, n) = h then 1 else 0 := by
  unfold sharedTo
  rw [Finset.range_add_one, Finset.filter_insert]
  split
  · rw [Finset.card_insert_of_notMem (by simp)]
  · rfl

theorem sockIndex_eq {h : Int} (hsock : isSock h) (j : Nat) : j = sockIndex h ↔ h = j + ftableSize := by
  obtain ⟨hlo, -⟩ := hsock
  unfold sockIndex
  unfold ftableSize at hlo ⊢
  omega

theorem isSock.not_isSlot {h : Int} (hsock : isSock h) : ¬ isSlot h := fun hslot =>
  absurd hslot.2 (not_lt.mpr hsock.1)

/-- What the loop has done up to the `n`-th descriptor: it has closed a file of the process it runs in,
    or only references of sockets are gone. -/
theorem closeHandles_some (hne : pid ≠ dead) : ∀ {n : Nat} {a : Unit} {t : Files}, n ≤ maxProcFiles →
    closeHandles pid dead n s = some (a, t) →
      (∃ fd < n, 0 ≤ handleAt s.toFs (dead, fd) ∧ isSlot (handleAt s.toFs (pid, fd)) ∧
        handleAt t.toFs (pid, fd) = fhUnused ∧
          ∀ fd, handleAt t.toFs (dead, fd) = handleAt s.toFs (dead, fd)) ∨
      (∀ fd < n, 0 ≤ handleAt s.toFs (dead, fd) → ¬ isSlot (handleAt s.toFs (pid, fd))) ∧
        t.toFs = s.toFs ∧ ∀ j < maxSockets, (t.socktable j).refCount =
          (s.socktable j).refCount - sharedTo s.toFs pid dead n (j + ftableSize)
  | 0, _, _, _, hrun => by
    cases hrun
    exact .inr ⟨fun _ h => absurd h (Nat.not_lt_zero _), rfl, fun _ _ => by simp [sharedTo]⟩
  | n + 1, _, t, hn, hrun => by
    obtain ⟨_, u, h1, hrest⟩ := bind_some.mp hrun
    rw [get_bind] at hrest
    have ih := closeHandles_some hne (Nat.le_of_succ_le hn) h1
    have hdead : handleAt u.toFs (dead, n) = handleAt s.toFs (dead, n) := by
      rcases ih with ⟨-, -, -, -, -, hdead⟩ | ⟨-, hfs, -⟩
      · exact hdead n
      · rw [hfs]
    by_cases hopen : 0 ≤ handleAt s.toFs (dead, n)
    · have hopen' : 0 ≤ (u.procs dead).fhandles n := hopen.trans_eq hdead.symm
      rw [if_pos hopen'] at hrest
      obtain ⟨_, v, hclose, hrest⟩ := bind_some.mp hrest
      cases hrest
      have hcases := syscallClose_cases hn hclose
      rcases ih with ⟨fd, hfd, hfdopen, hslot, hclosed, hdeads⟩ | ⟨hother, hfs, hsocks⟩
      · have hkept : ∀ d, d ≠ (pid, n) → handleAt t.toFs d = handleAt u.toFs d := by
          intro d hd
          rcases hcases with ⟨-, hv, -⟩ | ⟨-, hv⟩ | ⟨-, -, hv, -⟩
          · rw [hv]
          · rw [hv, if_neg hd]
          · rw [hv]
        refine .inl ⟨fd, Nat.lt_succ_of_lt hfd, hfdopen, hslot, ?_, fun x => ?_⟩
        · rw [hkept _ (by simp [hfd.ne]), hclosed]
        · rw [hkept _ (by simp [hne.symm]), hdeads]
      rw [hfs] at hcases
      have hlast : (∀ fd < n + 1, 0 ≤ handleAt s.toFs (dead, fd) → ¬ isSlot (handleAt s.toFs (pid, fd))) ↔
          ¬ isSlot (handleAt s.toFs (pid, n)) := by
        refine ⟨fun h => h n (Nat.lt_succ_self n) hopen, fun h fd hfd => ?_⟩
        rcases Nat.lt_succ_iff_lt_or_eq.mp hfd with hfd | rfl
        · exact hother fd hfd
        · exact fun _ => h
      rcases hcases with ⟨hsock, hv, hcounts⟩ | ⟨hslot, hv⟩ | ⟨hsock, hslot, hv, hsame⟩
      · refine .inr ⟨hlast.mpr hsock.not_isSlot, hv, fun j hj => ?_⟩
        rw [hcounts, hsocks j hj, sharedTo_succ]
        simp only [sockIndex_eq hsock, hopen, true_and]
        push_cast
        omega
      · refine .inl ⟨n, Nat.lt_succ_self n, hopen, hslot, ?_, fun x => ?_⟩
        · rw [hv, if_pos rfl]
        · rw [hv, if_neg (by simp [hne.symm])]
      · refine .inr ⟨hlast.mpr hslot, hv, fun j hj => ?_⟩
        rw [hsame, hsocks j hj, sharedTo_succ, if_neg, Nat.add_zero]
        rintro ⟨-, he⟩
        refine hsock ?_
        rw [he, isSock, sockHandleEnd, ftableSize]
        unfold maxSockets at hj
        omega
    · have hopen' : ¬ 0 ≤ (u.procs dead).fhandles n := fun hno => hopen (hno.trans_eq hdead)
      rw [if_neg hopen'] at hrest
      cases hrest
      rcases ih with ⟨fd, hfd, hih⟩ | ⟨hother, hfs, hsocks⟩
      · exact .inl ⟨fd, Nat.lt_succ_of_lt hfd, hih⟩
      · refine .inr ⟨fun fd hfd hfdopen => ?_, hfs, fun j hj => ?_⟩
        · rcases Nat.lt_succ_iff_lt_or_eq.mp hfd with hfd | rfl
          · exact hother fd hfd hfdopen
          · exact absurd hfdopen hopen
        · rw [hsocks j hj, sharedTo_succ, if_neg fun h => hopen h.1, Nat.add_zero]

/-- **When the end of a process takes away its references and nothing else.** -/
theorem termination_drops_own (hne : pid ≠ dead)
    (hrefs : Refs s.toFs ((s.procs dead).currentDir ::ₘ (s.procs dead).rootDir ::ₘ R))
    (hcard : R.card + 4 ≤ refsMax) {a : Unit} (hrun : terminateFiles pid dead s = some (a, t)) :
    Dropped s t dead R ↔ SameSockets s.toFs pid dead := by
  obtain ⟨_, u, h0, hrest⟩ := bind_some.mp hrun
  rw [get_bind] at hrest
  obtain ⟨_, s1, h1, h2⟩ := bind_some.mp hrest
  obtain ⟨hcur, hsock1⟩ := onFs_some h1
  obtain ⟨hroot, hsock2⟩ := onFs_some h2
  have hsame := (keeps_dropDir _ _ _ _ hcur).trans (keeps_dropDir _ _ _ _ hroot)
  rcases closeHandles_some hne le_rfl h0 with ⟨fd, hfd, hopen, hslot, hclosed, -⟩ | ⟨hother, hfs, hsocks⟩
  · -- a file of the other process was closed
    refine iff_of_false (fun h => ?_) fun h => h.other fd hfd hopen hslot
    have hkept : handleAt t.toFs (pid, fd) = handleAt s.toFs (pid, fd) := by
      rw [handleAt, h.procs pid hne, handleAt]
    rw [handleAt, hsame.procs, ← handleAt, hclosed] at hkept
    rw [← hkept] at hslot
    exact absurd hslot (by decide)
  · rw [hfs] at hcur
    have hs1 := dropDir_refs hrefs (by rw [Multiset.card_cons]; omega) hcur
    rw [hfs] at hroot
    have hs2 := dropDir_refs hs1 (by omega) hroot
    have htable : t.openFileTable = s.openFileTable := hsame.table.trans (by rw [hfs])
    have hprocs : t.procs = s.procs := hsame.procs.trans (by rw [hfs])
    have hsocktable : t.socktable = u.socktable := by rw [hsock2, hsock1]
    constructor
    · intro h
      refine ⟨fun fd hfd hslot => ?_, hother, fun j hj => ?_⟩
      · -- the slot would have lost a reference
        have hlost := h.slots (handleAt s.toFs (dead, fd)).toNat
          (by unfold isSlot at hslot; omega)
        have hpos : 0 < handlesTo s.toFs dead (handleAt s.toFs (dead, fd)) :=
          Finset.card_pos.mpr ⟨fd, Finset.mem_filter.mpr ⟨Finset.mem_range.mpr hfd, rfl⟩⟩
        rw [htable, Int.toNat_of_nonneg hslot.1] at hlost
        omega
      · have hcount := h.socks j hj
        rw [hsocktable, hsocks j hj] at hcount
        omega
    · intro h
      refine ⟨fun p _ => by rw [hprocs], fun k hk => ?_, fun j hj => ?_, hs2⟩
      · have hnone : handlesTo s.toFs dead k = 0 := by
          refine Finset.card_eq_zero.mpr (Finset.filter_eq_empty_iff.mpr fun fd hfd he => ?_)
          refine h.own fd (Finset.mem_range.mp hfd) ?_
          rw [he, isSlot]
          omega
        rw [htable, hnone]
        simp
      · rw [hsocktable, hsocks j hj, h.same j hj]

/-- The volume with one process, which nobody else shares with it, and no sockets. -/
def oneProcessFiles : Files where
  toFs := oneProcess
  socktable _ := ⟨.unused, 0, 0, 0, 0, false, false⟩
  thisHostid := 1
  socklistLocked := false

theorem oneProcess_refs : Refs oneProcess (1 ::ₘ 1 ::ₘ 0) := by
  have hrefs := (countsOk_iff.mp oneProcess_countsOk).1
  refine ⟨⟨hrefs.counted.older, fun q hq => ?_⟩, hrefs.hashed⟩
  by_cases hq1 : q = 1
  · subst hq1
    decide +kernel
  · have hcount := hrefs.counted.count_eq q hq
    have hzero : (oneProcess.vnodes q).count = 0 := if_neg hq1
    simp only [hzero] at hcount ⊢
    simp only [Multiset.count_cons_of_ne hq1, Multiset.count_zero]
    omega

/-- The process 0 comes to its end; its directories were the last references to the root. -/
theorem termination_drops_own_last : ∃ t, terminateFiles 1 0 oneProcessFiles = some ((), t) ∧
    Dropped oneProcessFiles t 0 0 ∧ (t.vnodes 1).count = 0 := by
  obtain ⟨⟨_, t⟩, hrun, hcount⟩ : ∃ r ∈ terminateFiles 1 0 oneProcessFiles,
      (r.2.vnodes 1).count = 0 := by decide +kernel
  have hneg : ∀ fd, handleAt oneProcess (0, fd) < 0 := fun fd => by
    show (if fd < 3 then -1 - (fd : Int) else fhUnused) < 0
    unfold fhUnused
    split <;> omega
  refine ⟨t, hrun, (termination_drops_own (by decide) oneProcess_refs (by decide) hrun).mpr
    ⟨fun fd _ hslot => ?_, fun fd _ hopen => ?_, fun j _ => ?_⟩, hcount⟩
  · exact absurd hslot.1 (not_le.mpr (hneg fd))
  · exact absurd hopen (not_le.mpr (hneg fd))
  · have hnone : ∀ fd, ¬ handleAt oneProcess (0, fd) = j + ftableSize := fun fd he => by
      have := hneg fd
      omega
    have hclosed : ∀ fd, ¬ 0 ≤ handleAt oneProcess (0, fd) := fun fd => not_le.mpr (hneg fd)
    simp only [handlesTo, sharedTo, oneProcessFiles, hnone, hclosed, false_and]

/-- Two processes: the descriptor 3 of process 0 is the slot 0, and that of process 1 the slot 1. -/
def twoFiles : Files where
  toFs := { mountroot (fun _ => 0) (fun _ => Bytes.zero) with
    vnodes := fun p =>
      if p = 1 then ⟨false, 6, 0, 0, -12, 0, rootDirent⟩
      else ⟨false, if p < 4 then 1 else 0, 0, 0, p, 1, Bytes.zero⟩
    nextVnode := 4
    openFileTable := fun i => if i < 2 then ⟨1, 13, 0, 0, 2 + i⟩ else ⟨0, fteUnused, 0, 0, 0⟩
    procs := fun pid =>
      if pid < 2 then ⟨1, 1, fun fd => if fd = 3 then pid else fhUnused⟩
      else ⟨0, 0, fun _ => fhUnused⟩ }
  socktable _ := ⟨.unused, 0, 0, 0, 0, false, false⟩
  thisHostid := 1
  socklistLocked := false

/-- **The end of process 1, in a thread of process 0.** The slot of the dead process keeps its
    reference; it is process 0 that loses its descriptor and the reference of its slot. -/
theorem terminates_other_files : ∃ t, terminateFiles 0 1 twoFiles = some ((), t) ∧
    handleAt twoFiles.toFs (0, 3) = 0 ∧ handleAt t.toFs (0, 3) = fhUnused ∧
    (t.openFileTable 0).refCount = (twoFiles.openFileTable 0).refCount - 1 ∧
    (t.openFileTable 1).refCount = (twoFiles.openFileTable 1).refCount ∧
    ∀ R, ¬ Dropped twoFiles t 1 R := by
  obtain ⟨⟨_, t⟩, hrun, hfd, hzero, hone⟩ : ∃ r ∈ terminateFiles 0 1 twoFiles,
      handleAt r.2.toFs (0, 3) = fhUnused ∧ (r.2.openFileTable 0).refCount = 0 ∧
        (r.2.openFileTable 1).refCount = 1 := by decide +kernel
  refine ⟨t, hrun, rfl, hfd, hzero, hone, fun R hdrop => ?_⟩
  have hkept : handleAt t.toFs (0, 3) = handleAt twoFiles.toFs (0, 3) := by
    rw [handleAt, hdrop.procs 0 (by decide), handleAt]
  rw [hfd] at hkept
  exact absurd hkept (by decide +kernel)

end AtomOs.Files
