import Mathlib.Algebra.Group.Action.Defs
import Mathlib.Algebra.Order.Group.Multiset
import Mathlib.Tactic.Abel
import AtomOs.Fs.PathCounts

/-!
# The references processes hold

The references that outlive a call are those of descriptors, of current directories and of root
directories (`heldRefs`), and `CountsOk` is `Refs` for exactly these (`countsOk_iff`). The calls that
change what is held are `open`, `close` and `chdir`; each ends with the references of the state it
leaves, if it started with those of the state it found.

As a multiset, what is held changes by one element when a descriptor or a directory does
(`heldRefs_update`, `heldRefs_setDir`), so the calls need no counting of their own: the lemmas about
`get_vnode` and `release_vnode` say which element the call itself adds or takes away, and the two agree.
-/

namespace AtomOs

open Lib Prog Multiset

/-! ## Held references -/

/-- The vnode a descriptor refers to through the open file table. -/
def fileRef (s : Fs) (d : Nat × Nat) : Multiset Nat :=
  if isSlot (handleAt s d) then {(s.openFileTable (handleAt s d).toNat).vn} else 0

/-- All references to vnodes that processes hold. -/
def heldRefs (s : Fs) : Multiset Nat :=
  ∑ d ∈ descriptors, fileRef s d +
    ∑ pid ∈ Finset.range maxProcesses, {(s.procs pid).currentDir, (s.procs pid).rootDir}

/-- The number of references to a vnode: by descriptors, as a current directory, as a root
    directory, and by live children. -/
def references (s : Fs) (p : Nat) : Nat :=
  (descriptors.filter fun d =>
      isSlot (handleAt s d) ∧ (s.openFileTable (handleAt s d).toNat).vn = p).card +
    ((Finset.range maxProcesses).filter fun pid => (s.procs pid).currentDir = p).card +
    ((Finset.range maxProcesses).filter fun pid => (s.procs pid).rootDir = p).card +
    ((Finset.range s.nextVnode).filter fun q =>
      0 < (s.vnodes q).count ∧ (s.vnodes q).parent = p).card

/-- Descriptors that refer to the open file table refer to different slots, all of them used. -/
def SlotsOk (s : Fs) : Prop :=
  ∀ d ∈ descriptors, isSlot (handleAt s d) →
    (s.openFileTable (handleAt s d).toNat).flags ≠ fteUnused ∧
      ∀ d' ∈ descriptors, handleAt s d' = handleAt s d → d' = d

/-- Every `v_count` is the number of references. -/
structure CountsOk (s : Fs) : Prop where
  counts : ∀ p, p ≠ 0 → (s.vnodes p).count = references s p
  older : ∀ p, 0 < (s.vnodes p).count → (s.vnodes p).parent < p ∧ p < s.nextVnode
  hashed : ∀ i, ∀ p ∈ s.vnlist i, (s.vnodes p).parent < p ∧ p < s.nextVnode
  slots : SlotsOk s

theorem count_heldRefs (s : Fs) (p : Nat) :
    (heldRefs s).count p + (liveChildren (fun q => (s.vnodes q).parent)
      (fun q => (s.vnodes q).count) s.nextVnode p).card = references s p := by
  have hfiles : ∀ d, (fileRef s d).count p =
      if isSlot (handleAt s d) ∧ (s.openFileTable (handleAt s d).toNat).vn = p then 1 else 0 := by
    intro d
    unfold fileRef
    by_cases hslot : isSlot (handleAt s d)
    · rw [if_pos hslot, count_singleton]
      simp [hslot, eq_comm]
    · rw [if_neg hslot, count_zero, if_neg fun hc => hslot hc.1]
  have hdirs : ∀ pid, ({(s.procs pid).currentDir, (s.procs pid).rootDir} : Multiset Nat).count p =
      (if (s.procs pid).currentDir = p then 1 else 0) +
        if (s.procs pid).rootDir = p then 1 else 0 := by
    intro pid
    rw [insert_eq_cons, count_cons, count_singleton, Nat.add_comm]
    simp only [eq_comm]
  unfold heldRefs references liveChildren
  rw [count_add, count_sum', count_sum']
  simp only [hfiles, hdirs, Finset.sum_add_distrib, Finset.card_filter]
  omega

theorem countsOk_iff {s : Fs} : CountsOk s ↔ Refs s (heldRefs s) ∧ SlotsOk s := by
  constructor
  · intro h
    refine ⟨⟨⟨h.older, fun p hp => ?_⟩, h.hashed⟩, h.slots⟩
    rw [count_heldRefs]
    exact h.counts p (Nat.pos_iff_ne_zero.mp hp)
  · rintro ⟨h, hslots⟩
    refine ⟨fun p hp => ?_, h.counted.older, h.hashed, hslots⟩
    rw [← count_heldRefs]
    exact h.counted.count_eq p (Nat.pos_of_ne_zero hp)

theorem card_heldRefs_le (s : Fs) : (heldRefs s).card ≤ 704 := by
  have hfile : ∀ d ∈ descriptors, (fileRef s d).card ≤ 1 := by
    intro d _
    unfold fileRef
    split <;> simp
  unfold heldRefs
  rw [card_add, card_sum, card_sum]
  have hfiles := Finset.sum_le_card_nsmul descriptors _ 1 hfile
  have hcard : descriptors.card = 640 := by simp [descriptors, maxProcesses, maxProcFiles]
  simp only [insert_eq_cons, card_cons, card_singleton,
    Finset.sum_const, Finset.card_range, smul_eq_mul, maxProcesses] at hfiles ⊢
  omega

theorem startDir_mem {s : Fs} {pid : Nat} (hpid : pid < maxProcesses) (path : List Nat) :
    startDir s pid path ∈ heldRefs s := by
  have hdir : ∀ x, x = (s.procs pid).currentDir ∨ x = (s.procs pid).rootDir → x ∈ heldRefs s := by
    intro x hx
    refine mem_add.mpr (.inr (mem_sum.mpr ⟨pid, Finset.mem_range.mpr hpid, ?_⟩))
    simpa using hx
  unfold startDir
  split
  · exact hdir _ (.inr rfl)
  · exact hdir _ (.inl rfl)

theorem heldRefs_sameFiles {s t : Fs} (h : SameFiles s t) : heldRefs t = heldRefs s := by
  unfold heldRefs fileRef handleAt
  rw [h.table, h.procs]

theorem SlotsOk.sameFiles {s t : Fs} (hs : SlotsOk s) (h : SameFiles s t) : SlotsOk t := by
  unfold SlotsOk handleAt
  rw [h.table, h.procs]
  exact hs

theorem heldRefs_update {s t : Fs} {d0 : Nat × Nat} (hd0 : d0 ∈ descriptors)
    (hrest : ∀ d ∈ descriptors, d ≠ d0 → fileRef t d = fileRef s d)
    (hdirs : ∀ pid, (t.procs pid).currentDir = (s.procs pid).currentDir ∧
      (t.procs pid).rootDir = (s.procs pid).rootDir) :
    heldRefs t + fileRef s d0 = heldRefs s + fileRef t d0 := by
  have hsum : ∀ u : Fs, ∑ d ∈ descriptors, fileRef u d =
      fileRef u d0 + ∑ d ∈ descriptors.erase d0, fileRef u d :=
    fun u => (Finset.add_sum_erase descriptors (fileRef u) hd0).symm
  have heq : ∑ d ∈ descriptors.erase d0, fileRef t d = ∑ d ∈ descriptors.erase d0, fileRef s d :=
    Finset.sum_congr rfl fun d hd =>
      hrest d (Finset.mem_of_mem_erase hd) (Finset.ne_of_mem_erase hd)
  unfold heldRefs
  rw [hsum t, hsum s, heq]
  simp only [hdirs]
  abel

variable {fd h fvn type size : Nat} {a : Unit} {path : List Nat} {u : Fs}

theorem setHandle_dirs {s t : Fs} {pid : Nat} {x : Int}
    (hrun : setHandle pid fd x s = some (a, t)) (p : Nat) :
    (t.procs p).currentDir = (s.procs p).currentDir ∧
      (t.procs p).rootDir = (s.procs p).rootDir := by
  cases hrun
  change (if p = pid then _ else s.procs p : FilesInfo).currentDir = _ ∧
    (if p = pid then _ else s.procs p : FilesInfo).rootDir = _
  split
  · rename_i hp
    rw [hp]
    exact ⟨rfl, rfl⟩
  · exact ⟨rfl, rfl⟩

theorem handleAt_setDir (s : Fs) (pid vn : Nat) (d : Nat × Nat) :
    handleAt (s.setProc pid { s.procs pid with currentDir := vn }) d = handleAt s d := by
  unfold handleAt Fs.setProc
  dsimp only
  split
  · rename_i hp
    rw [hp]
  · rfl

theorem heldRefs_setDir (s : Fs) {pid : Nat} (hpid : pid < maxProcesses) (vn : Nat) :
    heldRefs (s.setProc pid { s.procs pid with currentDir := vn }) + {(s.procs pid).currentDir} =
      heldRefs s + {vn} := by
  have hfiles : ∀ d, fileRef (s.setProc pid { s.procs pid with currentDir := vn }) d =
      fileRef s d := by
    intro d
    unfold fileRef
    rw [handleAt_setDir]
    rfl
  have hsum : ∀ f : Nat → Multiset Nat, ∑ p ∈ Finset.range maxProcesses, f p =
      f pid + ∑ p ∈ (Finset.range maxProcesses).erase pid, f p :=
    fun f => (Finset.add_sum_erase _ f (Finset.mem_range.mpr hpid)).symm
  have hrest : ∑ p ∈ (Finset.range maxProcesses).erase pid,
      ({((s.setProc pid { s.procs pid with currentDir := vn }).procs p).currentDir,
        ((s.setProc pid { s.procs pid with currentDir := vn }).procs p).rootDir} : Multiset Nat) =
      ∑ p ∈ (Finset.range maxProcesses).erase pid,
        {(s.procs p).currentDir, (s.procs p).rootDir} := by
    refine Finset.sum_congr rfl fun p hp => ?_
    unfold Fs.setProc
    dsimp only
    rw [if_neg (Finset.ne_of_mem_erase hp)]
  unfold heldRefs
  rw [Finset.sum_congr rfl fun d _ => hfiles d, hsum, hrest,
    hsum fun p => {(s.procs p).currentDir, (s.procs p).rootDir}]
  simp only [Fs.setProc, if_true, insert_eq_cons, ← singleton_add]
  abel

/-! ## Descriptors -/

section descriptors

variable {s t : Fs} {R : Multiset Nat} {pid : Nat} {ret : Int}

theorem decrementRefCount_refs {h : Int} (hslot : isSlot h)
    (hs : Refs s ((s.openFileTable h.toNat).vn ::ₘ R)) (hR : R.card + 3 ≤ refsMax)
    (hrun : decrementRefCount h s = some (a, t)) : Refs t R := by
  unfold decrementRefCount at hrun
  unfold isSlot at hslot
  rw [if_pos hslot] at hrun
  simp only [bind_some] at hrun
  obtain ⟨_, _, hget, _, s1, h1, _, s2, h2, _, s3, h3, _, s4, h4, hrun⟩ := hrun
  cases hget
  cases h3
  have hrefs2 := addCount_back hs hR h1 h2
  have hrefs3 : Refs (s2.setFte h.toNat { s.openFileTable h.toNat with
      refCount := (s.openFileTable h.toNat).refCount - 1 }) ((s.openFileTable h.toNat).vn ::ₘ R) :=
    hrefs2.congr ⟨rfl, rfl, fun _ => rfl, fun _ => rfl⟩
  have hrefs4 := releaseVnode_refs hrefs3 (by rw [card_cons]; omega) h4
  split at hrun
  · cases hrun
    exact hrefs4.congr ⟨rfl, rfl, fun _ => rfl, fun _ => rfl⟩
  · cases hrun
    exact hrefs4

theorem card_heldRefs_room (s : Fs) : (heldRefs s).card + 3 ≤ refsMax :=
  Nat.le_trans (Nat.add_le_add_right (card_heldRefs_le s) 3) (by decide)

/-- **`close` always balances.** What the descriptor referred to is not held any more; a call that
    is refused has changed nothing. -/
theorem syscallClose_refs (hs : Refs s (heldRefs s)) (hslots : SlotsOk s)
    (hpid : pid < maxProcesses) (hrun : syscallClose pid fd s = some (ret, t)) :
    Refs t (heldRefs t) ∧ SlotsOk t ∧
      (ret < 0 → t = s) ∧
        ((pid, fd) ∈ descriptors → heldRefs t + fileRef s (pid, fd) = heldRefs s) := by
  obtain ⟨rfl, hfd, hslot, ⟨_, _, u, h1, h2⟩, hhan⟩ | ⟨hcase, rfl, -⟩ := syscallClose_some hrun
  swap
  · refine ⟨hs, hslots, fun _ => rfl, fun hd => ?_⟩
    have hslot : ¬ isSlot (handleAt t (pid, fd)) := fun hc => hcase ⟨(mem_descriptors.mp hd).2, hc⟩
    rw [fileRef, if_neg hslot, add_zero]
  obtain ⟨hprocs, hentry⟩ := decrementRefCount_spec h1
  have htab := (setHandle_spec h2).1
  have hd : (pid, fd) ∈ descriptors := mem_descriptors.mpr ⟨hpid, hfd⟩
  have hvn : ∀ i, (t.openFileTable i).vn = (s.openFileTable i).vn := by
    intro i
    rw [htab, hentry]
    split <;> rfl
  have hunused : ¬ isSlot fhUnused := by decide
  have hrest : ∀ d ∈ descriptors, d ≠ (pid, fd) → fileRef t d = fileRef s d := by
    intro d _ hne
    unfold fileRef
    rw [hhan, if_neg hne, hvn]
  have hgone : fileRef t (pid, fd) = 0 := by
    unfold fileRef
    rw [hhan, if_pos rfl, if_neg hunused]
  have hheld := heldRefs_update hd hrest (hprocs ▸ setHandle_dirs h2)
  rw [hgone, add_zero] at hheld
  have href : fileRef s (pid, fd) = {(s.openFileTable (handleAt s (pid, fd)).toNat).vn} := if_pos hslot
  refine ⟨?_, fun d hdm hdslot => ?_, fun hc => absurd hc (by decide), fun _ => hheld⟩
  · rw [← hheld, href, add_comm, singleton_add] at hs
    have hcard := card_heldRefs_room t
    have hrefs := decrementRefCount_refs hslot hs hcard h1
    cases h2
    exact hrefs.congr ⟨rfl, rfl, fun _ => rfl, fun _ => rfl⟩
  · have hne : d ≠ (pid, fd) := by
      intro heq
      rw [hhan, if_pos heq] at hdslot
      exact hunused hdslot
    rw [hhan, if_neg hne] at hdslot ⊢
    obtain ⟨hused, hdistinct⟩ := hslots d hdm hdslot
    refine ⟨?_, fun d' hd' heq => ?_⟩
    · rw [htab, hentry, if_neg]
      · exact hused
      · rintro ⟨-, hh⟩
        refine hne (hdistinct (pid, fd) hd ?_).symm
        unfold isSlot at hdslot
        omega
    · rw [hhan] at heq
      split at heq
      · rw [← heq] at hdslot
        exact absurd hdslot hunused
      · exact hdistinct d' hd' heq

/-- **`chdir` balances** on a path whose directories it brings to life: the reference to the old
    directory is gone, and there is one to the new one. -/
theorem syscallChdir_refs {b : Bool} {dent : Bytes} (hs : Refs s (heldRefs s))
    (hslots : SlotsOk s) (hpid : pid < maxProcesses)
    (hok : pathMax < path.length ∨ seekPath s pid path = some (b, dent) ∧ Roomy s b)
    (hrun : syscallChdir pid path s = some (ret, t)) :
    Refs t (heldRefs t) ∧ SlotsOk t ∧ (ret < 0 → t = s) := by
  unfold syscallChdir at hrun
  split at hrun
  · cases hrun
    exact ⟨hs, hslots, fun _ => rfl⟩
  rename_i hlen
  obtain ⟨hseek, hroom⟩ := hok.resolve_left hlen
  have hR := card_heldRefs_room s
  simp only [bind_some] at hrun
  obtain ⟨vn, s1, h1, hrun⟩ := hrun
  obtain ⟨hfound, -⟩ := lookupPath_refs hs hR (startDir_mem hpid path) hseek hroom h1
  rw [if_neg hfound.ne_zero] at hrun
  simp only [bind_some] at hrun
  obtain ⟨_, s2, h2, _, s3, h3, _, _, hget, _, s4, h4, _, s5, h5, _, s6, h6, _, s7, h7, hrun⟩ := hrun
  cases hget
  cases hrun
  have hfiles3 := ((keeps_lookupPath SameFiles _ _ _ _ _ h1).trans
    (keeps_addCount SameFiles _ _ _ _ _ h2)).trans (keeps_releaseVnode SameFiles _ _ _ _ h3)
  have hfiles6 := ((hfiles3.trans (keeps_getVnode SameFiles _ _ _ _ h4)).trans
    (keeps_addCount SameFiles _ _ _ _ _ h5)).trans (keeps_releaseVnode SameFiles _ _ _ _ h6)
  -- The new directory: counted for the process, and no longer for the call.
  obtain ⟨hrefs2, -⟩ := getVnode_refs hfound.refs (by rw [card_cons]; omega)
    (hfound.refs.live hfound.ne_zero (mem_cons_self _ _)) h2
  have hrefs3 := releaseVnode_refs hrefs2 (by simp only [card_cons]; omega) h3
  -- The old one.
  obtain ⟨R, hold⟩ := exists_cons_of_mem (startDir_mem hpid [] (s := s))
  have hcur : startDir s pid [] = (s3.procs pid).currentDir := by
    rw [hfiles3.procs]
    rfl
  rw [hcur] at hold
  rw [hold, cons_swap] at hrefs3
  rw [hold, card_cons] at hR
  generalize (s3.procs pid).currentDir = old at *
  have hrefs5 := addCount_back hrefs3 (by rw [card_cons]; omega) h4 h5
  have hrefs6 := releaseVnode_refs hrefs5 (by simp only [card_cons]; omega) h6
  cases h7
  have hdir : (s6.procs pid).currentDir = old := by
    rw [hfiles6.procs]
    exact hcur
  have hheld := heldRefs_setDir s6 hpid vn
  rw [heldRefs_sameFiles hfiles6, hold, hdir, add_comm, singleton_add, cons_add,
    cons_inj_right, add_comm, singleton_add] at hheld
  refine ⟨?_, ?_, fun hc => absurd hc (by decide)⟩
  · have hrefs : Refs s6 (heldRefs (s6.setProc pid { s6.procs pid with currentDir := vn })) := by
      rw [hheld]
      exact hrefs6
    exact hrefs.congr ⟨rfl, rfl, fun _ => rfl, fun _ => rfl⟩
  · have hslots6 := hslots.sameFiles hfiles6
    intro d hd hslot
    rw [handleAt_setDir] at hslot ⊢
    obtain ⟨hused, hdistinct⟩ := hslots6 d hd hslot
    refine ⟨hused, fun d' hd' heq => hdistinct d' hd' ?_⟩
    rw [handleAt_setDir] at heq
    exact heq

theorem allocFtabSlot_spec {slot : Option Nat} (hrun : allocFtabSlot s = some (slot, t)) :
    slot = none ∧ t = s ∨ ∃ h, slot = some h ∧ h < ftableSize ∧
      (s.openFileTable h).flags = fteUnused ∧
        t = s.setFte h { s.openFileTable h with flags := fteUsed } := by
  unfold allocFtabSlot at hrun
  rw [get_bind] at hrun
  cases hfind : (List.range ftableSize).find? fun i => (s.openFileTable i).flags == fteUnused with
  | none =>
    rw [hfind] at hrun
    cases hrun
    exact .inl ⟨rfl, rfl⟩
  | some h =>
    rw [hfind] at hrun
    cases hrun
    refine .inr ⟨h, rfl, ?_, ?_, rfl⟩
    · simpa using List.mem_of_find?_eq_some hfind
    · simpa using List.find?_some hfind

/-- The slot `h`, which no descriptor refers to, was filled in for the vnode `fvn`. -/
structure SlotFilled (s t : Fs) (h fvn : Nat) : Prop where
  procs : t.procs = s.procs
  vn : (t.openFileTable h).vn = fvn
  used : (t.openFileTable h).flags ≠ fteUnused
  others : ∀ i, i ≠ h → t.openFileTable i = s.openFileTable i

theorem SlotFilled.sameFiles (hf : SlotFilled s t h fvn)
    (hsame : SameFiles t u) : SlotFilled s u h fvn := by
  refine ⟨hsame.procs.trans hf.procs, ?_, ?_, fun i hi => ?_⟩
  · rw [hsame.table]
    exact hf.vn
  · rw [hsame.table]
    exact hf.used
  · rw [hsame.table]
    exact hf.others i hi

theorem SlotFilled.of_taken {fte : FileTableEntry} (hf : SlotFilled (s.setFte h fte) t h fvn) :
    SlotFilled s t h fvn := by
  refine ⟨hf.procs, hf.vn, hf.used, fun i hi => ?_⟩
  rw [hf.others i hi]
  simp [Fs.setFte, hi]

theorem openFlags_ne (type : Nat) : openFlags type ≠ fteUnused := by
  simp [openFlags, fteUnused, ftflagsFile]

theorem SlotFilled.setFte {fte : FileTableEntry} (hsame : SameFiles s u)
    (hvn : fte.vn = fvn) (hused : fte.flags ≠ fteUnused) : SlotFilled s (u.setFte h fte) h fvn := by
  refine ⟨hsame.procs, ?_, ?_, fun i hi => ?_⟩
  · simpa [Fs.setFte] using hvn
  · simpa [Fs.setFte] using hused
  · rw [← hsame.table]
    simp [Fs.setFte, hi]

theorem initSlot_spec (hrun : initSlot h fvn type size s = some (a, t)) :
    ∃ u v fte, addCount fvn 1 s = some ((), u) ∧ SameFiles u v ∧ SameVnodes u v ∧
      fte.vn = fvn ∧ fte.flags ≠ fteUnused ∧ t = v.setFte h fte := by
  unfold initSlot at hrun
  simp only [bind_some] at hrun
  obtain ⟨_, u, h1, _, _, hget, hrun⟩ := hrun
  cases hget
  split at hrun
  · split at hrun
    · simp only [bind_some] at hrun
      obtain ⟨_, v, h2, hrun⟩ := hrun
      cases hrun
      exact ⟨u, v, _, h1, keeps_fat12VopTrunc SameFiles _ _ _ _ h2,
        keeps_fat12VopTrunc SameVnodes _ _ _ _ h2, rfl, openFlags_ne type, rfl⟩
    · cases hrun
      exact ⟨u, u, _, h1, .refl u, .refl u, rfl, openFlags_ne type, rfl⟩
  · cases hrun
    exact ⟨u, u, _, h1, .refl u, .refl u, rfl, openFlags_ne type, rfl⟩

theorem initSlot_filled
    (hrun : initSlot h fvn type size s = some (a, t)) : SlotFilled s t h fvn := by
  obtain ⟨u, v, fte, h1, hfiles, -, hvn, hused, rfl⟩ := initSlot_spec hrun
  exact .setFte ((keeps_addCount SameFiles _ _ _ _ _ h1).trans hfiles) hvn hused

theorem initSlot_refs (hs : Refs s R) (hR : R.card ≤ refsMax)
    (hmem : fvn ∈ R) (hrun : initSlot h fvn type size s = some (a, t)) :
    Refs t (fvn ::ₘ R) := by
  obtain ⟨u, v, fte, h1, -, hvnodes, -, -, rfl⟩ := initSlot_spec hrun
  obtain ⟨hfvn, -⟩ := addCount_some h1
  obtain ⟨hrefs, -⟩ := getVnode_refs hs hR (hs.live hfvn hmem) h1
  exact (hrefs.congr hvnodes).congr ⟨rfl, rfl, fun _ => rfl, fun _ => rfl⟩

/-- What an `open` that found its file has done: it has failed and left the references as they
    were, or the new descriptor refers to the file. -/
def Opened (s t : Fs) (pid : Nat) (ret : Int) (fvn : Nat) : Prop :=
  ret < 0 ∧ heldRefs t = heldRefs s ∨
    0 ≤ ret ∧ (pid, ret.toNat) ∈ descriptors ∧ fileRef t (pid, ret.toNat) = {fvn} ∧
      heldRefs t = fvn ::ₘ heldRefs s

theorem handleFor_some (hrun : handleFor pid (some h) s = some (ret, t)) :
    ret < 0 ∧ (∃ a, decrementRefCount h s = some (a, t)) ∨
      ∃ i : Nat, ret = i ∧ i < maxProcFiles ∧ handleAt s (pid, i) = fhUnused ∧
        ∃ a, setHandle pid i h s = some (a, t) := by
  unfold handleFor allocProcessFileHandle at hrun
  simp only [bind_some] at hrun
  obtain ⟨fd, u, ⟨_, _, hget, h1⟩, hrun⟩ := hrun
  cases hget
  cases hfh : freeHandle (s.procs pid) with
  | none =>
    rw [hfh] at h1
    cases h1
    rw [if_pos (by decide)] at hrun
    simp only [bind_some] at hrun
    obtain ⟨_, v, h2, hrun⟩ := hrun
    cases hrun
    exact .inl ⟨by decide, _, h2⟩
  | some i =>
    rw [hfh] at h1
    simp only [bind_some] at h1
    obtain ⟨_, v, h2, h1⟩ := h1
    cases h1
    cases hrun
    obtain ⟨hi, hunused⟩ := freeHandle_some hfh
    exact .inr ⟨i, rfl, hi, hunused, _, h2⟩

theorem handleFor_refs (hslots : SlotsOk s) (hpid : pid < maxProcesses) (hh : h < ftableSize)
    (hfree : (s.openFileTable h).flags = fteUnused) (hfill : SlotFilled s u h fvn)
    (hu : Refs u (fvn ::ₘ heldRefs s)) (hrun : handleFor pid (some h) u = some (ret, t)) :
    Refs t (heldRefs t) ∧ SlotsOk t ∧ Opened s t pid ret fvn := by
  have hnone : ∀ d ∈ descriptors, isSlot (handleAt s d) → (handleAt s d).toNat ≠ h := by
    intro d hd hslot heq
    have hused := (hslots d hd hslot).1
    rw [heq] at hused
    exact hused hfree
  have hhan := handleAt_of_procs hfill.procs
  have href : ∀ (v : Fs) (d : Nat × Nat), d ∈ descriptors → handleAt v d = handleAt s d →
      (∀ i, i ≠ h → v.openFileTable i = s.openFileTable i) → fileRef v d = fileRef s d := by
    intro v d hd hdh hv
    unfold fileRef
    rw [hdh]
    split
    · rename_i hslot
      rw [hv _ (hnone d hd hslot)]
    · rfl
  have hslot : isSlot (h : Int) := by
    unfold isSlot
    omega
  obtain ⟨hret, _, h2⟩ | ⟨i, rfl, hi, hfhu, _, h2⟩ := handleFor_some hrun
  · obtain ⟨hprocs, hentry⟩ := decrementRefCount_spec h2
    have hothers : ∀ i, i ≠ h → t.openFileTable i = s.openFileTable i := by
      intro i hi
      rw [hentry, if_neg fun hc => hi (by omega), hfill.others i hi]
    have hhan2 := handleAt_of_procs (hprocs.trans hfill.procs)
    have hheld : heldRefs t = heldRefs s := by
      unfold heldRefs
      rw [Finset.sum_congr rfl fun d hd => href t d hd (hhan2 d) hothers, hprocs, hfill.procs]
    refine ⟨?_, fun d hd hds => ?_, .inl ⟨hret, hheld⟩⟩
    · rw [hheld]
      refine decrementRefCount_refs hslot ?_ (card_heldRefs_room s) h2
      rw [Int.toNat_natCast, hfill.vn]
      exact hu
    · rw [hhan2] at hds ⊢
      obtain ⟨hused, hdistinct⟩ := hslots d hd hds
      refine ⟨?_, fun d' hd' heq => hdistinct d' hd' (by rw [← heq, hhan2])⟩
      rw [hothers _ (hnone d hd hds)]
      exact hused
  · have hd0 : (pid, i) ∈ descriptors := mem_descriptors.mpr ⟨hpid, hi⟩
    rw [hhan] at hfhu
    obtain ⟨htab, hset⟩ := setHandle_spec h2
    have hothers : ∀ j, j ≠ h → t.openFileTable j = s.openFileTable j := by
      intro j hj
      rw [htab, hfill.others j hj]
    have hhan2 : ∀ d, handleAt t d = if d = (pid, i) then (h : Int) else handleAt s d := by
      intro d
      rw [hset, hhan]
    have hnew : fileRef t (pid, i) = {fvn} := by
      unfold fileRef
      rw [hhan2, if_pos rfl, if_pos hslot, Int.toNat_natCast, htab, hfill.vn]
    have hold : fileRef s (pid, i) = 0 := by
      unfold fileRef
      rw [hfhu, if_neg (by decide)]
    have hheld := heldRefs_update hd0
      (fun d hd hne => href t d hd (by rw [hhan2, if_neg hne]) hothers)
      (hfill.procs ▸ setHandle_dirs h2)
    rw [hold, hnew, add_zero, add_comm, singleton_add] at hheld
    refine ⟨?_, fun d hd hds => ?_, .inr ⟨by omega, ?_, ?_, hheld⟩⟩
    · rw [hheld]
      cases h2
      exact hu.congr ⟨rfl, rfl, fun _ => rfl, fun _ => rfl⟩
    · rw [hhan2] at hds ⊢
      by_cases hdi : d = (pid, i)
      · rw [if_pos hdi, Int.toNat_natCast, htab]
        refine ⟨hfill.used, fun d' hd' heq => ?_⟩
        rw [hhan2] at heq
        split at heq
        · rename_i hd'i
          rw [hd'i, hdi]
        · refine absurd ?_ (hnone d' hd' (by rw [heq]; exact hslot))
          rw [heq, Int.toNat_natCast]
      · rw [if_neg hdi] at hds ⊢
        obtain ⟨hused, hdistinct⟩ := hslots d hd hds
        refine ⟨?_, fun d' hd' heq => ?_⟩
        · rw [hothers _ (hnone d hd hds)]
          exact hused
        · rw [hhan2] at heq
          split at heq
          · refine absurd ?_ (hnone d hd hds)
            rw [← heq, Int.toNat_natCast]
          · exact hdistinct d' hd' heq
    · exact hd0
    · exact hnew

theorem openFile_refs {vn : Nat} (hs : Refs s (fvn ::ₘ vn ::ₘ heldRefs s)) (hslots : SlotsOk s)
    (hpid : pid < maxProcesses) (hrun : openFile pid vn fvn type s = some (ret, t)) :
    Refs t (heldRefs t) ∧ SlotsOk t ∧ Opened s t pid ret fvn := by
  have hR := card_heldRefs_room s
  rw [cons_swap] at hs
  have hrefuse : ∀ r : Int, r < 0 →
      (do releaseVnode vn; releaseVnode fvn; return r : Prog Fs Int) s = some (ret, t) →
        Refs t (heldRefs t) ∧ SlotsOk t ∧ Opened s t pid ret fvn := by
    intro r hr hrun
    have hfiles := keeps_releaseBoth SameFiles vn fvn r _ _ _ hrun
    have hheld := heldRefs_sameFiles hfiles
    have hret : ret = r := by
      simp only [bind_some] at hrun
      obtain ⟨_, _, _, _, _, _, hrun⟩ := hrun
      exact (pure_some.mp hrun).1.symm
    refine ⟨?_, hslots.sameFiles hfiles, .inl ⟨by rw [hret]; exact hr, hheld⟩⟩
    rw [hheld]
    exact releaseBoth_refs hs hR hrun
  obtain ⟨-, hrun⟩ := vnode_bind.mp hrun
  split at hrun
  · exact hrefuse _ (by decide) hrun
  dsimp only at hrun
  split at hrun
  · exact hrefuse _ (by decide) hrun
  obtain ⟨slot, s2, h2, hrun⟩ := bind_some.mp hrun
  rcases allocFtabSlot_spec h2 with ⟨rfl, rfl⟩ | ⟨h, rfl, hh, hfree, rfl⟩
  · simp only [handleFor, bind_some] at hrun
    exact hrefuse emaxFiles (by decide) (by simpa only [bind_some] using hrun)
  simp only [bind_some] at hrun
  obtain ⟨_, s3, h3, _, s4, h4, _, s5, h5, hrun⟩ := hrun
  have hs2 : Refs (s.setFte h { s.openFileTable h with flags := fteUsed })
      (vn ::ₘ fvn ::ₘ heldRefs s) := hs.congr ⟨rfl, rfl, fun _ => rfl, fun _ => rfl⟩
  have hrefs3 := initSlot_refs hs2 (by simp only [card_cons]; omega)
    (mem_cons_of_mem (mem_cons_self _ _)) h3
  have hfill3 := (initSlot_filled h3).of_taken
  rw [cons_swap] at hrefs3
  have hrefs4 := releaseVnode_refs hrefs3 (by simp only [card_cons]; omega) h4
  have hrefs5 := releaseVnode_refs hrefs4 (by simp only [card_cons]; omega) h5
  have hfill5 := (hfill3.sameFiles (keeps_releaseVnode SameFiles _ _ _ _ h4)).sameFiles
    (keeps_releaseVnode SameFiles _ _ _ _ h5)
  exact handleFor_refs hslots hpid hh hfree hfill5 hrefs5 hrun

/-- **`open` balances** if the file's vnode is alive, or there is no file and none is made. -/
theorem syscallOpen_refs {mode : Nat} (hs : Refs s (heldRefs s))
    (hslots : SlotsOk s) (hpid : pid < maxProcesses)
    (hok : CallOk s pid path (!openCreates type || (convertName (parsePath path).2).isNone))
    (hrun : syscallOpen pid path type mode s = some (ret, t)) :
    Refs t (heldRefs t) ∧ SlotsOk t ∧ ∃ fvn, Opened s t pid ret fvn := by
  have hR := card_heldRefs_room s
  have hd := startDir_mem hpid (parsePath path).1 (s := s)
  obtain ⟨rfl, rfl⟩ | ⟨-, hlen, h1⟩ | ⟨vn, fvn, s1, s2, hlen, -, h1, h2, hfiles, hrun⟩ :=
    withFile_some hrun
  · exact ⟨hs, hslots, 0, .inl ⟨by decide, rfl⟩⟩
  · exact absurd rfl ((hok.resolve_left hlen).dir_ne_zero hs hR hd h1)
  have hok := hok.resolve_left hlen
  have hheld := heldRefs_sameFiles hfiles
  -- Nothing to open: the directory is released.
  have hmiss : ∀ (r : Int) (u : Fs), r < 0 → Refs u (vn ::ₘ heldRefs s) → SameFiles s u →
      (do releaseVnode vn; return r : Prog Fs Int) u = some (ret, t) →
        Refs t (heldRefs t) ∧ SlotsOk t ∧ ∃ fvn, Opened s t pid ret fvn := by
    intro r u hr hu hsu hrun
    have hfiles' := hsu.trans (keeps_releaseOne SameFiles vn r _ _ _ hrun)
    have hret : ret = r := by
      simp only [bind_some] at hrun
      obtain ⟨_, _, _, hrun⟩ := hrun
      exact (pure_some.mp hrun).1.symm
    have hheld' := heldRefs_sameFiles hfiles'
    refine ⟨?_, hslots.sameFiles hfiles', 0, .inl ⟨by rw [hret]; exact hr, hheld'⟩⟩
    rw [hheld']
    exact releaseOne_refs hu hR hrun
  rcases findFile_refs hs hR hd hok h1 h2 with ⟨hfvn, hno, hrefs⟩ | ⟨hfvn, hrefs⟩
  · rw [if_neg (by simpa using hfvn)] at hrun
    split at hrun
    · rename_i hcreates
      have hcreates : openCreates type = true := hcreates
      have hbad : convertName (parsePath path).2 = none := by simpa [hcreates] using hno
      simp only [bind_some] at hrun
      obtain ⟨fvn', s3, h3, hrun⟩ := hrun
      obtain ⟨rfl, rfl⟩ := fat12VopCreate_bad hbad h3
      exact hmiss _ _ (by decide) hrefs hfiles hrun
    · exact hmiss _ _ (by decide) hrefs hfiles hrun
  · rw [if_pos hfvn] at hrun
    rw [← hheld] at hrefs
    obtain ⟨hrefs', hslots', hopened⟩ := openFile_refs hrefs (hslots.sameFiles hfiles) hpid hrun
    refine ⟨hrefs', hslots', fvn, ?_⟩
    unfold Opened at hopened ⊢
    rw [hheld] at hopened
    exact hopened

end descriptors

end AtomOs
