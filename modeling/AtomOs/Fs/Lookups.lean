import Mathlib.Data.List.Find
import AtomOs.Fs.Names
import AtomOs.Fs.Tree
import AtomOs.Fs.Counts

/-!
# What a lookup takes

A lookup finds the entry, takes the vnode that has its key or makes a new one, and fills it from the
slot if nobody held it. Here is what it takes (`allocVnode_cases`), what is found in a directory of
the tree (`entryOf_slot`), and what filling a vnode does; `AtomOs/Fs/PathWalk.lean` walks down paths
with it.
-/

namespace AtomOs

open Lib Prog

def Live (s : Fs) (p : Nat) : Prop := (s.vnodes p).count ≠ 0

/-! ## New vnodes -/

variable {v : Volume} {dent : Bytes} {name : List Nat}

section lookup

variable {D : List Dir} {own : Dir → Nat → List Nat} {s t : Fs} {p ret : Nat} {d : Dir} {k : Nat}
  {dev no off : Int} {pvn : Nat}

section fresh

variable {w : Vnode} {q : Nat} {e : Dir} {m : Nat}

theorem newVnode_ne (hq : q ≠ s.nextVnode) (i : Nat) : (s.newVnode w i).vnodes q = s.vnodes q := by
  rw [Fs.newVnode_vnodes, if_neg hq]

theorem newVnode_same (s : Fs) (w : Vnode) (i : Nat) : (s.newVnode w i).vnodes s.nextVnode = w := by
  rw [Fs.newVnode_vnodes, if_pos rfl]

theorem mem_newVnode {i h : Nat} :
    q ∈ (s.newVnode w i).vnlist h ↔ (h = i ∧ q = s.nextVnode) ∨ q ∈ s.vnlist h := by
  change q ∈ (if h = i then s.nextVnode :: s.vnlist h else s.vnlist h) ↔ _
  split
  · rename_i hi
    simp [hi]
  · rename_i hi
    simp [hi]

end fresh

/-! ## Entries -/

theorem entryOf_eq (htree : Tree D v) (hd : d ∈ D) (hstart : Dirent.startCluster dent = d.start) :
    entryOf v dent name = (convertName name).bind fun fname =>
      (firstFrom (fun j => isEntry (Bytes.ofList fname) (slot v d.clusters j)) 0
        (16 * d.clusters.length)).map (entryAt v d.clusters) := by
  have hchain := htree.chain d hd
  have hlen := hchain.length_le
  rw [← hstart] at hchain
  unfold entryOf
  congr 1
  funext fname
  have hfind := findEntry_eq (hchain.row htree.healthy) (htree.nonempty d hd) (Bytes.ofList fname)
    (i := 0) (Nat.zero_le _) (show 16 * d.clusters.length < 0 + slotFuel by rw [slotFuel]; omega)
  rw [show (0 : Nat) = 32 * 0 from rfl, hfind]
  rfl

theorem entryOf_slot {e : ReadEntry} (htree : Tree D v)
    (hd : d ∈ D) (hstart : Dirent.startCluster dent = d.start) (he : entryOf v dent name = some e) :
    ∃ k, e = entryAt v d.clusters k ∧ (DirSlot v d k ∨ FileSlot v d k) := by
  rw [entryOf_eq htree hd hstart] at he
  obtain ⟨fname, hconv, he⟩ := Option.bind_eq_some_iff.mp he
  obtain ⟨k, hfind, rfl⟩ := Option.map_eq_some_iff.mp he
  obtain ⟨-, hlt, hentry, -⟩ := firstFrom_eq_some.mp hfind
  obtain ⟨hused, hsame⟩ := Bool.and_eq_true_iff.mp hentry
  have hused' : skipped (d.slot v k) = false := by
    rw [Bool.not_eq_true'] at hused
    exact hused
  refine ⟨k, rfl, ?_⟩
  cases hdir : Dirent.isDir (d.slot v k) with
  | false => exact .inr ⟨hlt, hused', hdir⟩
  | true =>
    refine .inl ⟨hlt, hused', hdir, fun hdot => ?_⟩
    -- the slot would be `.` or `..`, but no converted name begins with a dot
    have hcopied : copied (slot v d.clusters k) 0 = 46 := by
      have hslot : slot v d.clusters k 0 = 46 := hdot
      rw [copied_eq (by omega), hslot]
    refine nameFrom_ne (n := 10) (i := 0) ?_ (sameName_iff.mp hsame)
    rw [hcopied]
    exact (convertName_head hconv).symm

/-! ## Vnodes that are filled again -/

/-- The state in which vnode `q` is held once and was filled with an entry. -/
def Fs.filled (s : Fs) (q : Nat) (x : Bytes) : Fs :=
  s.setVnode q { s.vnodes q with count := 1, changed := false, data := x }

section filled

variable {q : Nat} {x : Bytes} {e : Dir}

theorem filled_same (s : Fs) (q : Nat) (x : Bytes) :
    (s.filled q x).vnodes q = { s.vnodes q with count := 1, changed := false, data := x } := if_pos rfl

theorem filled_ne {r : Nat} (h : r ≠ q) : (s.filled q x).vnodes r = s.vnodes r := if_neg h

end filled

/-! ## Looking up -/

end lookup

end AtomOs
