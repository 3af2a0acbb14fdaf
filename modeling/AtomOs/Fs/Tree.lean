import AtomOs.Fs.Directory

/-!
# The directory tree of a volume

`Tree D v` says that the volume `v` has the directories `D`: each is a chain of clusters, no cluster
is in two of them, the names in a directory are different, and every entry of a directory leads to
one of `D`, a different one for each entry. Nothing is said about files except that their names
differ.

A directory is determined by the cluster it starts with (`Tree.start_inj`). That cluster is the number
in the key of its vnode, so the vnodes of two directories have different keys.
-/

namespace AtomOs

open Lib Dirent

/-- A directory: the cluster its entry names, and its clusters. -/
structure Dir where
  start : Int
  clusters : List Int
deriving DecidableEq

def Dir.slot (d : Dir) (v : Volume) (k : Nat) : Bytes := AtomOs.slot v d.clusters k

/-- Slot `k` of the directory holds the entry of a file. -/
structure FileSlot (v : Volume) (d : Dir) (k : Nat) : Prop where
  lt : k < 16 * d.clusters.length
  used : skipped (d.slot v k) = false
  file : Dirent.isDir (d.slot v k) = false

/-- Slot `k` of the directory holds the entry of a directory other than `.` and `..`. -/
structure DirSlot (v : Volume) (d : Dir) (k : Nat) : Prop where
  lt : k < 16 * d.clusters.length
  used : skipped (d.slot v k) = false
  dir : Dirent.isDir (d.slot v k) = true
  named : d.slot v k 0 ≠ 46

/-- The volume has the directories `D`. -/
structure Tree (D : List Dir) (v : Volume) : Prop where
  healthy : Healthy v
  chain : ∀ d ∈ D, DirChain v.fat d.start d.clusters
  nonempty : ∀ d ∈ D, d.clusters ≠ []
  kind : ∀ d ∈ D, d.start = -12 ∨ ∀ c ∈ d.clusters, 2 ≤ c
  apart : ∀ d ∈ D, ∀ e ∈ D, ∀ c ∈ d.clusters, c ∈ e.clusters → d = e
  names : ∀ d ∈ D, ∀ k m, k < 16 * d.clusters.length → m < 16 * d.clusters.length → m ≠ k →
    skipped (d.slot v k) = false → Dirent.unused (d.slot v m) = false →
      entryName (d.slot v m) ≠ entryName (d.slot v k)
  subdirs : ∀ d ∈ D, ∀ k, DirSlot v d k →
    ∃ e ∈ D, e.start = Dirent.startCluster (d.slot v k) ∧ e.start ≠ -12
  once : ∀ d ∈ D, ∀ e ∈ D, ∀ k m, DirSlot v d k → DirSlot v e m →
    Dirent.startCluster (d.slot v k) = Dirent.startCluster (e.slot v m) → d = e ∧ k = m

/-! ## What the tests on an entry look at -/

section tests

variable {d d' : Bytes}

theorem unused_congr (h : ∀ i, i < 12 → d' i = d i) : unused d' = unused d := by
  rw [unused, unused, h 0 (by omega)]

theorem skipped_congr (h : ∀ i, i < 12 → d' i = d i) : skipped d' = skipped d := by
  rw [skipped, skipped, unused_congr h, h 11 (by omega)]

theorem isDir_congr (h : ∀ i, i < 12 → d' i = d i) : isDir d' = isDir d := by
  rw [isDir, isDir, attrib, attrib, h 11 (by omega)]

theorem unused_of_skipped (h : skipped d = false) : unused d = false :=
  (Bool.or_eq_false_iff.mp h).1

theorem copied_out {i : Nat} (h : i ≠ 0) : copied d i = d i := by
  unfold copied
  split
  · exact Bytes.put_ne h
  · rfl

theorem copied_eq (h : d 0 ≠ 0x05) : copied d = d := if_neg h

theorem isDir_copied : isDir (copied d) = isDir d := by
  rw [isDir, isDir, attrib, attrib, copied_out (by omega)]

theorem startCluster_copied : startCluster (copied d) = startCluster d :=
  startCluster_congr fun i h _ => copied_out (by omega)

end tests

section tree

variable {D : List Dir} {v v' : Volume} {d e : Dir} {k m : Nat}

theorem DirChain.root_le {fat : FatTable} : ∀ {cs : List Int} {start : Int}, DirChain fat start cs →
    start ≤ 1 → ∀ c ∈ cs, c ≤ 1
  | [], _, _, _, _, hc => absurd hc (by simp)
  | x :: cs, start, h, hle, c, hc => by
    obtain rfl : start = x := h.linked.1
    rcases List.mem_cons.mp hc with rfl | hc
    · exact hle
    by_cases hlast : start = 1
    · -- behind cluster 1 the root directory ends
      have htail := h.tail
      rw [hlast, show stepCluster fat 1 = 0xfff from rfl] at htail
      obtain rfl : cs = [] :=
        ((show Linked (stepCluster fat) (fun c => 0xff8 ≤ c) 0xfff [] from by simp).unique
          htail.linked).symm
      simp at hc
    · refine h.tail.root_le ?_ c hc
      rw [stepCluster, if_pos (by omega)]
      omega

namespace Tree

theorem start_mem (h : Tree D v) (hd : d ∈ D) : d.start ∈ d.clusters := by
  have hlinked := (h.chain d hd).linked
  rcases hlinked.stop_or_mem with hstop | hmem
  · cases hcs : d.clusters with
    | nil => exact absurd hcs (h.nonempty d hd)
    | cons x cs =>
      rw [hcs] at hlinked
      rw [hlinked.1]
      exact List.mem_cons_self
  · exact hmem

theorem start_inj (h : Tree D v) (hd : d ∈ D) (he : e ∈ D) (hstart : d.start = e.start) : d = e :=
  h.apart d hd e he d.start (h.start_mem hd) (hstart ▸ h.start_mem he)

end Tree

end tree

end AtomOs
