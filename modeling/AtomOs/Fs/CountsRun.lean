import AtomOs.Fs.HeldRefs

/-!
# Runs of path operations

The calls of `PathCounts` and `HeldRefs`, in any order and by any processes: **`vnode_counts`**. Since
the held references determine all counts, a call that fails leaves every count as it was, and so
does an `open` with its `close`.

`open_loses_count` is the simplest run that is not of this kind: the file it opens has no live vnode.
-/

namespace AtomOs

open Lib Prog

/-- There may be new vnodes; the others have the parents they had. -/
structure OldParents (s t : Fs) : Prop where
  next : s.nextVnode ≤ t.nextVnode
  parent : ∀ q, q < s.nextVnode → (t.vnodes q).parent = (s.vnodes q).parent

theorem OldParents.refl (s : Fs) : OldParents s s := ⟨Nat.le_refl _, fun _ _ => rfl⟩

theorem OldParents.trans {s t u : Fs} (h : OldParents s t) (k : OldParents t u) : OldParents s u :=
  ⟨Nat.le_trans h.next k.next, fun q hq =>
    (k.parent q (Nat.lt_of_lt_of_le hq h.next)).trans (h.parent q hq)⟩

theorem OldParents.of_sameVnodes {s t : Fs} (h : SameVnodes s t) : OldParents s t :=
  ⟨Nat.le_of_eq h.next.symm, fun q _ => h.parent q⟩

instance : Describing OldParents where
  refl := OldParents.refl
  trans _ _ _ := OldParents.trans
  fat s fat := .of_sameVnodes (Quiet.fat s fat)
  blocks s disk unreadable := .of_sameVnodes (Quiet.blocks s disk unreadable)
  data s p changed data := .of_sameVnodes (Quiet.data s p changed data)
  count s p n := ⟨Nat.le_refl _, fun q _ => withCount_parent s p n q⟩
  next _ := ⟨Nat.le_succ _, fun _ _ => rfl⟩
  fresh s v i := ⟨Nat.le_succ _, fun q hq => by
    rw [Fs.newVnode_vnodes, if_neg (Nat.ne_of_lt hq)]⟩
  fte _ _ _ := ⟨Nat.le_refl _, fun _ _ => rfl⟩
  proc _ _ _ := ⟨Nat.le_refl _, fun _ _ => rfl⟩

theorem counts_eq {s t : Fs} (hs : Refs s (heldRefs s)) (ht : Refs t (heldRefs t))
    (hheld : heldRefs t = heldRefs s) (hold : OldParents s t) (p : Nat) :
    (t.vnodes p).count = (s.vnodes p).count := by
  rw [hheld] at ht
  exact hs.counted.unique ht.counted
    (fun q hq _ => hold.parent q (hs.counted.older q hq).2) p

/-- The path operations, on paths on which references balance; `close`, always. -/
def CountOpOk (s : Fs) : FsOp → Prop
  | .open pid path type _ => pid < maxProcesses ∧
    CallOk s pid path (!openCreates type || (convertName (parsePath path).2).isNone)
  | .close pid _ => pid < maxProcesses
  | .stat pid path => pid < maxProcesses ∧ CallOk s pid path true
  | .unlink pid path => pid < maxProcesses ∧ CallOk s pid path true
  | .mkdir pid path => pid < maxProcesses ∧ CallOk s pid path true
  | .chdir pid path => pid < maxProcesses ∧ (pathMax < path.length ∨
    ∃ b dent, seekPath s pid path = some (b, dent) ∧ Roomy s b)
  | _ => False

section step

variable {s t : Fs} {ret : Int}

theorem CountsOk.quiet (h : CountsOk s) (hrefs : Refs t (heldRefs s)) (hfiles : SameFiles s t) :
    CountsOk t ∧ heldRefs t = heldRefs s := by
  have hheld := heldRefs_sameFiles hfiles
  rw [← hheld] at hrefs
  exact ⟨countsOk_iff.mpr ⟨hrefs, h.slots.sameFiles hfiles⟩, hheld⟩

/-- What an allowed call does: the counts stay right, and if it fails it holds what was held. -/
theorem CountsOk.call {op : FsOp} (h : CountsOk s) (hop : CountOpOk s op)
    (hrun : op.call s = some (ret, t)) :
    CountsOk t ∧ OldParents s t ∧ (ret < 0 → heldRefs t = heldRefs s) := by
  obtain ⟨hs, hslots⟩ := countsOk_iff.mp h
  have hR := card_heldRefs_room s
  cases op with
  | «open» pid path type mode =>
    obtain ⟨hrefs, hslots', fvn, hopened⟩ := syscallOpen_refs hs hslots hop.1 hop.2 hrun
    refine ⟨countsOk_iff.mpr ⟨hrefs, hslots'⟩, keeps_syscallOpen OldParents _ _ _ _ _ _ _ hrun,
      fun hret => ?_⟩
    rcases hopened with ⟨-, hheld⟩ | ⟨hpos, -⟩
    · exact hheld
    · omega
  | close pid fd =>
    obtain ⟨hrefs, hslots', hrefused, -⟩ := syscallClose_refs hs hslots hop hrun
    refine ⟨countsOk_iff.mpr ⟨hrefs, hslots'⟩, keeps_syscallClose OldParents _ _ _ _ _ hrun,
      fun hret => by rw [hrefused hret]⟩
  | chdir pid path =>
    obtain ⟨b, dent, hok⟩ : ∃ b dent,
        pathMax < path.length ∨ seekPath s pid path = some (b, dent) ∧ Roomy s b := by
      rcases hop.2 with hlong | ⟨b, dent, hok⟩
      · exact ⟨true, Bytes.zero, .inl hlong⟩
      · exact ⟨b, dent, .inr hok⟩
    obtain ⟨hrefs, hslots', hrefused⟩ := syscallChdir_refs hs hslots hop.1 hok hrun
    refine ⟨countsOk_iff.mpr ⟨hrefs, hslots'⟩, keeps_syscallChdir OldParents _ _ _ _ _ hrun,
      fun hret => by rw [hrefused hret]⟩
  | stat pid path =>
    obtain ⟨hok, hheld⟩ := h.quiet (syscallStat_refs hs hR (startDir_mem hop.1 _) hop.2 hrun)
      (keeps_syscallStat SameFiles _ _ _ _ _ hrun)
    exact ⟨hok, keeps_syscallStat OldParents _ _ _ _ _ hrun, fun _ => hheld⟩
  | unlink pid path =>
    obtain ⟨hok, hheld⟩ := h.quiet (syscallUnlink_refs hs hR (startDir_mem hop.1 _) hop.2 hrun)
      (keeps_syscallUnlink SameFiles _ _ _ _ _ hrun)
    exact ⟨hok, keeps_syscallUnlink OldParents _ _ _ _ _ hrun, fun _ => hheld⟩
  | mkdir pid path =>
    obtain ⟨hok, hheld⟩ := h.quiet (syscallMkdir_refs hs hR (startDir_mem hop.1 _) hop.2 hrun)
      (keeps_syscallMkdir SameFiles _ _ _ _ _ hrun)
    exact ⟨hok, keeps_syscallMkdir OldParents _ _ _ _ _ hrun, fun _ => hheld⟩
  | creat | dup | dup2 | inherit | read | write | lseek | rmdir | rename => exact hop.elim

theorem CountsOk.step {op : FsOp} (h : CountsOk s) (hop : CountOpOk s op)
    (hstep : fsStep s op = some t) : CountsOk t := by
  obtain ⟨⟨ret, u⟩, hrun, rfl⟩ := Option.map_eq_some_iff.mp hstep
  exact (h.call hop hrun).1

end step

/-- **Counts of vnodes.** From any state in which every `v_count` is the number of references, every
    sequence of path operations on which references balance leads to such a state again, by any
    processes. From there, a call that fails changes no count, and neither does opening a file and
    closing it. -/
theorem vnode_counts {s t : Fs} (h : CountsOk s) (hrun : Reaches fsStep CountOpOk s t) :
    CountsOk t ∧
      (∀ op ret u, CountOpOk t op → op.call t = some (ret, u) → ret < 0 →
        ∀ p, (u.vnodes p).count = (t.vnodes p).count) ∧
      ∀ pid path type mode fd u ret w, CountOpOk t (.open pid path type mode) →
        syscallOpen pid path type mode t = some (fd, u) → 0 ≤ fd →
          syscallClose pid fd.toNat u = some (ret, w) →
            ∀ p, (w.vnodes p).count = (t.vnodes p).count := by
  have hok : CountsOk t := hrun.invariant CountsOk h CountsOk.step
  obtain ⟨ht, hslots⟩ := countsOk_iff.mp hok
  refine ⟨hok, fun op ret u hop hcall hret p => ?_, ?_⟩
  · obtain ⟨hu, hold, hheld⟩ := hok.call hop hcall
    exact counts_eq ht (countsOk_iff.mp hu).1 (hheld hret) hold p
  · intro pid path type mode fd u ret w hop hopen hfd hclose p
    obtain ⟨hu, hslots', fvn, hopened⟩ := syscallOpen_refs ht hslots hop.1 hop.2 hopen
    rcases hopened with ⟨hneg, -⟩ | ⟨-, hd, href, hheld⟩
    · omega
    obtain ⟨hw, -, -, hheld'⟩ := syscallClose_refs hu hslots' hop.1 hclose
    have hback := hheld' hd
    rw [href, hheld, add_comm, Multiset.singleton_add, Multiset.cons_inj_right] at hback
    exact counts_eq ht hw hback ((keeps_syscallOpen OldParents _ _ _ _ _ _ _ hopen).trans
      (keeps_syscallClose OldParents _ _ _ _ _ hclose)) p

/-- A volume with a file `A` and a directory `D`, mounted, and one process in its root directory. -/
def oneProcess : Fs :=
  let s := mountroot (fun i => if i = 3 then 0xff else if i = 4 then 0x0f else 0) fun b =>
    if b = 19 then
      (Bytes.zero.copy 0 12 (Bytes.ofList (blankTo 11 [65] ++ [0x20]))).copy 32 32
        (Dirent.setStart (Bytes.ofList (blankTo 11 [68] ++ [0x10])) 2)
    else Bytes.zero
  { s with
    vnodes := fun p => { s.vnodes p with count := if p = 1 then 2 else 0 }
    procs := fun pid => if pid = 0 then s.procs 0 else ⟨0, 0, (s.procs 0).fhandles⟩ }

theorem oneProcess_countsOk : CountsOk oneProcess := by
  have hslots : ∀ d, ¬ isSlot (handleAt oneProcess d) := by
    rintro ⟨pid, fd⟩
    have hhan : handleAt oneProcess (pid, fd) = if fd < 3 then -1 - (fd : Int) else fhUnused := by
      change (if pid = 0 then _ else _ : FilesInfo).fhandles fd = _
      split <;> rfl
    rw [hhan, isSlot, fhUnused]
    split <;> omega
  have hcount : ∀ p, (oneProcess.vnodes p).count = if p = 1 then 2 else 0 := fun _ => rfl
  have hlive : ∀ p, 0 < (oneProcess.vnodes p).count → p = 1 := by
    intro p hp
    rw [hcount] at hp
    by_contra hne
    rw [if_neg hne] at hp
    exact absurd hp (by decide)
  refine ⟨fun p hp => ?_, fun p hp => ?_, fun i p hp => ?_, fun d _ hd => absurd hd (hslots d)⟩
  · by_cases hp1 : p = 1
    · subst hp1
      decide +kernel
    have hdir : ∀ pid, (oneProcess.procs pid).currentDir ≠ p ∧
        (oneProcess.procs pid).rootDir ≠ p := by
      intro pid
      change (if pid = 0 then _ else _ : FilesInfo).currentDir ≠ p ∧
        (if pid = 0 then _ else _ : FilesInfo).rootDir ≠ p
      split
      · exact ⟨Ne.symm hp1, Ne.symm hp1⟩
      · exact ⟨Ne.symm hp, Ne.symm hp⟩
    have hchild : ∀ q, ¬ (0 < (oneProcess.vnodes q).count ∧ (oneProcess.vnodes q).parent = p) :=
      fun q hq => hp hq.2.symm
    rw [hcount, if_neg hp1, references]
    simp [hslots, hdir, hchild]
  · rw [hlive p hp]
    decide
  · change p ∈ (if i = vnodeHash (-12) then [1] else []) at hp
    have hp1 : p = 1 := by
      split at hp
      · exact List.mem_singleton.mp hp
      · exact absurd hp (List.not_mem_nil)
    rw [hp1]
    decide

/-- Into the directory `D` and back: in `D`, its vnode and the root directory's count one reference
    each from the process, and the latter one from its child. -/
theorem vnode_counts_chdir : ∃ t u, Reaches fsStep CountOpOk oneProcess t ∧
    Reaches fsStep CountOpOk oneProcess u ∧ CountsOk t ∧ CountsOk u ∧
      (t.vnodes 1).count = 2 ∧ (t.vnodes 2).count = 1 ∧
        (u.vnodes 1).count = 2 ∧ (u.vnodes 2).count = 0 := by
  obtain ⟨t, hin, u, hback, hcounts⟩ : ∃ t ∈ fsStep oneProcess (.chdir 0 [68]),
      ∃ u ∈ fsStep t (.chdir 0 [47]), (t.vnodes 1).count = 2 ∧ (t.vnodes 2).count = 1 ∧
        (u.vnodes 1).count = 2 ∧ (u.vnodes 2).count = 0 := by decide +kernel
  have hseek : (seekPath oneProcess 0 [68]).isSome = true := by decide +kernel
  obtain ⟨⟨b, dent⟩, hseek⟩ := Option.isSome_iff_exists.mp hseek
  have hok : CountOpOk oneProcess (.chdir 0 [68]) :=
    ⟨by decide, .inr ⟨b, dent, hseek, .inr fun _ => rfl⟩⟩
  have hok' : CountOpOk t (.chdir 0 [47]) := ⟨by decide, .inr ⟨true, _, rfl, .inl rfl⟩⟩
  have ht : Reaches fsStep CountOpOk oneProcess t := (Reaches.refl _).snoc hok hin
  have hu : Reaches fsStep CountOpOk oneProcess u := ht.snoc hok' hback
  exact ⟨t, u, ht, hu, (vnode_counts oneProcess_countsOk ht).1,
    (vnode_counts oneProcess_countsOk hu).1, hcounts⟩

/-- `open("A", O_RDONLY)` and `close`, twice. The first pair costs the root directory, which is
    still the current and the root directory of the process, one of its two counts, and the second
    pair the other one. -/
theorem open_loses_count : CountsOk oneProcess ∧ ∃ t u, runOps fsStep (fun _ _ => True) oneProcess
        [.open 0 [65] oRdonly 0, .close 0 3] = some t ∧
      runOps fsStep (fun _ _ => True) t [.open 0 [65] oRdonly 0, .close 0 3] = some u ∧
        (oneProcess.vnodes 1).count = 2 ∧ (t.vnodes 1).count = 1 ∧ references t 1 = 2 ∧
          (u.vnodes 1).count = 0 ∧ references u 1 = 2 := by
  obtain ⟨t, ht, u, hu, hobs⟩ : ∃ t ∈ runOps fsStep (fun _ _ => True) oneProcess
      [.open 0 [65] oRdonly 0, .close 0 3],
        ∃ u ∈ runOps fsStep (fun _ _ => True) t [.open 0 [65] oRdonly 0, .close 0 3],
          (t.vnodes 1).count = 1 ∧ references t 1 = 2 ∧
            (u.vnodes 1).count = 0 ∧ references u 1 = 2 := by decide +kernel
  exact ⟨oneProcess_countsOk, t, u, ht, hu, rfl, hobs⟩

end AtomOs
