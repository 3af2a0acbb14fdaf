import AtomOs.Fs.CountsRun
import AtomOs.Fs.Lookups

/-!
# Path resolution

What a path means: its components, one by one, lead from an entry to the next (`resolve`). A place in
the tree is the list of the entries that lead to it, innermost first; the root directory is the empty
list. A vnode stands for a place if it and its parents have the keys of those entries (`Stands`), and
the vnode table stays consistent while a path is walked (`Table`, `TableGrown`).

`lookup_path` goes through the string with a buffer for one component and takes a step for each, down,
up or none at all. It does not look at what it stands on: from a file it goes on as from a directory,
and what it does then depends on the bytes of the file, which are searched for entries. Between two
separators it looks up the empty name, which no directory has; at the root it goes up through a null
pointer; and a component that fills the buffer is ended behind it. Its answer is the right one exactly
if none of this makes a difference (`WalkRight`, **`path_resolution`**); **`dotdot_at_root`** has two
paths for which it does.
-/

namespace AtomOs

open Lib Prog List Dirent

/-- The components of a path: what stands between separators. -/
def components (path : List Nat) : List (List Nat) :=
  (path.splitOnP isSeparator).filter fun c => !c.isEmpty

def topDent : List ReadEntry → Bytes
  | [] => rootDirent
  | e :: _ => e.dent

def topIsDir (st : List ReadEntry) : Bool := Dirent.isDir (topDent st)

/-- The entries of a place are found one in the other. -/
def InTree (v : Volume) : List ReadEntry → Prop
  | [] => True
  | e :: st => (∃ name, entryOf v (topDent st) name = some e) ∧ topIsDir st = true ∧ InTree v st

section places

variable {D : List Dir} {v : Volume} {e : ReadEntry} {st : List ReadEntry}

theorem InTree.dir (htree : Tree D v) (hroot : ∃ d ∈ D, d.start = -12) :
    ∀ {st : List ReadEntry}, InTree v st → topIsDir st = true →
      ∃ d ∈ D, startCluster (topDent st) = d.start
  | [], _, _ => by
    obtain ⟨d, hd, hstart⟩ := hroot
    exact ⟨d, hd, by rw [hstart]; decide⟩
  | e :: st, ⟨⟨name, he⟩, htop, hparent⟩, hdir => by
    obtain ⟨d, hd, hstart⟩ := hparent.dir htree hroot htop
    obtain ⟨k, rfl, hslot | hslot⟩ := entryOf_slot htree hd hstart he
    · obtain ⟨d', hd', hstart', -⟩ := htree.subdirs d hd k hslot
      refine ⟨d', hd', ?_⟩
      rw [hstart']
      exact startCluster_copied
    · have hplain : isDir (copied (d.slot v k)) = true := hdir
      rw [isDir_copied, hslot.file] at hplain
      exact Bool.noConfusion hplain

theorem InTree.entry (htree : Tree D v) (hroot : ∃ d ∈ D, d.start = -12) (h : InTree v (e :: st)) :
    ∃ d ∈ D, startCluster (topDent st) = d.start ∧
      ∃ k, e = entryAt v d.clusters k ∧ (DirSlot v d k ∨ FileSlot v d k) := by
  obtain ⟨⟨name, he⟩, htop, hparent⟩ := h
  obtain ⟨d, hd, hstart⟩ := hparent.dir htree hroot htop
  exact ⟨d, hd, hstart, entryOf_slot htree hd hstart he⟩

end places

/-! ## The walk along a path -/

/-- The vnode `p` stands for a place: it and its parents are in the table, under the keys of the
    entries that lead there. -/
def Stands (s : Fs) : Nat → List ReadEntry → Prop
  | p, [] => p ∈ s.vnlist (vnodeHash (s.vnodes p).no) ∧ (s.vnodes p).parent = 0 ∧
    Dirent.startCluster (s.vnodes p).data = -12
  | p, e :: st => p ∈ s.vnlist (vnodeHash (s.vnodes p).no) ∧ (s.vnodes p).no = e.ino ∧
    (s.vnodes p).offset = e.off ∧ (∃ name, entryOf s.toVolume (topDent st) name = some e) ∧
    topIsDir st = true ∧ Stands s (s.vnodes p).parent st

/-- The vnode is in use, or is the parent of one in the table. -/
def Held (s : Fs) (p : Nat) : Prop :=
  Live s p ∨ ∃ h q, q ∈ s.vnlist h ∧ (s.vnodes q).parent = p

/-- The vnode table of a volume with the directories `D`: a vnode that stands for a directory and is
    held knows the directory's first cluster. -/
structure Table (D : List Dir) (s : Fs) : Prop where
  tree : Tree D s.toVolume
  root : ∃ d ∈ D, d.start = -12
  next : s.nextVnode ≠ 0
  listed : ∀ h p, p ∈ s.vnlist h → p ≠ 0 ∧ p < s.nextVnode ∧ (s.vnodes p).parent < s.nextVnode
  coherent : ∀ p e st, Stands s p (e :: st) → Dirent.isDir e.dent = true → Held s p →
    Dirent.startCluster (s.vnodes p).data = (s.vnodes p).no

/-- The vnode is in the table under the same key. -/
def SameKey (v w : Vnode) : Prop := v.no = w.no ∧ v.parent = w.parent ∧ v.offset = w.offset

/-- The vnode has been filled with the entry it stands for. -/
def Refilled (s t : Fs) (p : Nat) : Prop := ∃ e st, Stands s p (e :: st) ∧ (t.vnodes p).data = e.dent

/-- The vnodes of `s` are in the table of `t` under their keys, and know what they knew or have been
    filled again. -/
structure KeysKept (s t : Fs) : Prop where
  rest : t = { s with vnodes := t.vnodes, vnlist := t.vnlist, nextVnode := t.nextVnode }
  next : s.nextVnode ≤ t.nextVnode
  list : ∀ h p, p < s.nextVnode → (p ∈ t.vnlist h ↔ p ∈ s.vnlist h)
  key : ∀ p, p < s.nextVnode → SameKey (t.vnodes p) (s.vnodes p)
  data : ∀ p, p < s.nextVnode → (t.vnodes p).data = (s.vnodes p).data ∨ Refilled s t p

/-- A new vnode: it is below another one, and has been filled with its entry. -/
structure NewVnode (t : Fs) (p : Nat) : Prop where
  lt : p < t.nextVnode
  parent : (t.vnodes p).parent < t.nextVnode
  filled : Refilled t t p

structure TableGrown (s t : Fs) : Prop extends KeysKept s t where
  held : ∀ p, p < s.nextVnode → Held t p → Held s p ∨ Refilled s t p
  fresh : ∀ h p, p ∈ t.vnlist h → s.nextVnode ≤ p → NewVnode t p

variable {w : Vnode} {q : Nat}

section table

variable {D : List Dir} {s t u : Fs} {p cur : Nat} {st st' : List ReadEntry} {e : ReadEntry}

theorem Stands.mem (h : Stands s p st) : p ∈ s.vnlist (vnodeHash (s.vnodes p).no) := by
  cases st with
  | nil => exact h.1
  | cons e st => exact h.1

theorem Stands.inTree : ∀ {st : List ReadEntry} {p : Nat}, Stands s p st → InTree s.toVolume st
  | [], _, _ => trivial
  | _ :: _, _, h => ⟨h.2.2.2.1, h.2.2.2.2.1, Stands.inTree h.2.2.2.2.2⟩

theorem Stands.ino_eq (htree : Tree D s.toVolume) (hroot : ∃ d ∈ D, d.start = -12)
    (h : Stands s p (e :: st)) : startCluster e.dent = e.ino := by
  obtain ⟨d, -, -, k, rfl, -⟩ := h.inTree.entry htree hroot
  exact startCluster_copied

theorem Stands.unique (htree : Tree D s.toVolume) (hroot : ∃ d ∈ D, d.start = -12)
    (hzero : ∀ h, 0 ∉ s.vnlist h) : ∀ {st st' : List ReadEntry} {p : Nat},
      Stands s p st → Stands s p st' → st = st'
  | [], [], _, _, _ => rfl
  | [], e' :: st', p, h, h' => by
    have hparent : Stands s (s.vnodes p).parent st' := h'.2.2.2.2.2
    rw [h.2.1] at hparent
    exact absurd hparent.mem (hzero _)
  | e :: st, [], p, h, h' => by
    have hparent : Stands s (s.vnodes p).parent st := h.2.2.2.2.2
    rw [h'.2.1] at hparent
    exact absurd hparent.mem (hzero _)
  | e :: st, e' :: st', p, h, h' => by
    obtain rfl : st = st' := Stands.unique htree hroot hzero h.2.2.2.2.2 h'.2.2.2.2.2
    obtain ⟨d, hd, hstart, k, rfl, -⟩ := h.inTree.entry htree hroot
    obtain ⟨d', hd', hstart', k', rfl, -⟩ := h'.inTree.entry htree hroot
    obtain rfl := htree.start_inj hd hd' (hstart.symm.trans hstart')
    -- both are at the offset of the vnode
    have hoff : ((32 * k : Nat) : Int) = (32 * k' : Nat) := h.2.2.1.symm.trans h'.2.2.1
    obtain rfl : k = k' := by omega
    rfl

namespace KeysKept

theorem volume (h : KeysKept s t) : t.toVolume = s.toVolume := by rw [h.rest]

theorem noMem (h : KeysKept s t) : t.noMem = s.noMem := by rw [h.rest]

theorem no (h : KeysKept s t) (hp : p < s.nextVnode) : (t.vnodes p).no = (s.vnodes p).no :=
  (h.key p hp).1

theorem parent (h : KeysKept s t) (hp : p < s.nextVnode) : (t.vnodes p).parent = (s.vnodes p).parent :=
  (h.key p hp).2.1

end KeysKept

namespace Table

section

variable (hT : Table D s)
include hT

theorem zero (h : Nat) : 0 ∉ s.vnlist h := fun hmem => (hT.listed h 0 hmem).1 rfl

theorem ne_zero (h : Stands s p st) : p ≠ 0 := (hT.listed _ p h.mem).1

theorem lt_next (h : Stands s p st) : p < s.nextVnode := (hT.listed _ p h.mem).2.1

theorem dir (h : Stands s p st) (hdir : topIsDir st = true) :
    ∃ d ∈ D, startCluster (topDent st) = d.start := h.inTree.dir hT.tree hT.root hdir

theorem unique (h : Stands s p st) (h' : Stands s p st') : st = st' :=
  Stands.unique hT.tree hT.root hT.zero h h'

theorem start (h : Stands s p st) (hdir : topIsDir st = true) (hheld : Held s p) :
    startCluster (s.vnodes p).data = startCluster (topDent st) := by
  cases st with
  | nil =>
    rw [h.2.2]
    decide
  | cons e st => rw [hT.coherent p e st h hdir hheld, h.2.1, topDent, h.ino_eq hT.tree hT.root]

end

end Table

theorem Stands.kept (hT : Table D s) (hK : KeysKept s t) :
    ∀ {st : List ReadEntry} {p : Nat}, p < s.nextVnode → (Stands t p st ↔ Stands s p st)
  | [], p, hp => by
    rw [Stands, Stands, hK.no hp, hK.list _ p hp, hK.parent hp]
    refine and_congr Iff.rfl (and_congr_right fun hparent => ?_)
    rcases hK.data p hp with hdata | ⟨e, st, hst, -⟩
    · rw [hdata]
    · exact absurd hparent (hT.ne_zero hst.2.2.2.2.2)
  | e :: st, p, hp => by
    rw [Stands, Stands, hK.no hp, hK.list _ p hp, hK.parent hp, (hK.key p hp).2.2, hK.volume]
    refine and_congr_right fun hmem => ?_
    have hparent := (hT.listed _ p hmem).2.2
    rw [Stands.kept hT hK hparent]

theorem SameKey.trans {v x : Vnode} (h : SameKey v w) (h' : SameKey w x) : SameKey v x :=
  ⟨h.1.trans h'.1, h.2.1.trans h'.2.1, h.2.2.trans h'.2.2⟩

theorem Refilled.kept (hK : KeysKept t u) (hp : p < t.nextVnode) (h : Refilled s t p)
    (hiff : ∀ st, Stands t p st ↔ Stands s p st) : Refilled s u p := by
  obtain ⟨e, st, hst, hdata⟩ := h
  rcases hK.data p hp with hsame | ⟨e', st', hst', hdata'⟩
  · exact ⟨e, st, hst, hsame.trans hdata⟩
  · exact ⟨e', st', (hiff _).mp hst', hdata'⟩

theorem NewVnode.kept (hT : Table D t) (hK : KeysKept t u) (h : NewVnode t p) : NewVnode u p := by
  have hle := hK.next
  obtain ⟨e, st, hst, hdata⟩ := Refilled.kept hK h.lt h.filled fun _ => Iff.rfl
  refine ⟨h.lt.trans_le hle, ?_, e, st, (Stands.kept hT hK h.lt).mpr hst, hdata⟩
  rw [hK.parent h.lt]
  exact h.parent.trans_le hle

namespace TableGrown

section

variable (hT : Table D s)
include hT

theorem stands (hG : TableGrown s t) (hst : Stands s p st) : Stands t p st :=
  (Stands.kept hT hG.toKeysKept (hT.lt_next hst)).mpr hst

/-- What vnodes that are held know of their entries, if it is so when they are filled. -/
theorem agrees (hG : TableGrown s t) (hzero : ∀ h, 0 ∉ t.vnlist h)
    {R : ReadEntry → List ReadEntry → Bytes → Prop}
    (hself : ∀ p e st, Stands t p (e :: st) → R e st e.dent)
    (hold : ∀ p e st, Stands s p (e :: st) → Held s p → R e st (s.vnodes p).data) :
    ∀ p e st, Stands t p (e :: st) → Held t p → R e st (t.vnodes p).data := by
  intro p e st hst hheld
  by_cases hp : p < s.nextVnode
  · have hst' := (Stands.kept hT hG.toKeysKept hp).mp hst
    have hfilled : Refilled s t p → R e st (t.vnodes p).data := by
      rintro ⟨e', st', hst'', hdata⟩
      obtain ⟨rfl, -⟩ := List.cons.inj (hT.unique hst' hst'')
      rw [hdata]
      exact hself p e st hst
    rcases hG.held p hp hheld with hheld' | hfill
    · rcases hG.data p hp with hdata | hfill
      · rw [hdata]
        exact hold p e st hst' hheld'
      · exact hfilled hfill
    · exact hfilled hfill
  · obtain ⟨e', st', hst', hdata⟩ := (hG.fresh _ p hst.mem (by omega)).filled
    have htree : Tree D t.toVolume := hG.volume ▸ hT.tree
    obtain ⟨rfl, -⟩ := List.cons.inj (Stands.unique htree hT.root hzero hst hst')
    rw [hdata]
    exact hself p e st hst

theorem table (hG : TableGrown s t) : Table D t := by
  have hle := hG.next
  have hpos := hT.next
  have htree : Tree D t.toVolume := hG.volume ▸ hT.tree
  have hlisted : ∀ h p, p ∈ t.vnlist h → p ≠ 0 ∧ p < t.nextVnode ∧ (t.vnodes p).parent < t.nextVnode := by
    intro h p hp
    by_cases hlt : p < s.nextVnode
    · have hold := hT.listed h p ((hG.list h p hlt).mp hp)
      rw [hG.parent hlt]
      exact ⟨hold.1, by omega, by omega⟩
    · have hfresh := hG.fresh h p hp (by omega)
      exact ⟨by omega, hfresh.lt, hfresh.parent⟩
  refine ⟨htree, hT.root, by omega, hlisted, fun p e st hst hdir hheld => ?_⟩
  rw [hst.2.1]
  refine hG.agrees hT (fun h h0 => (hlisted h 0 h0).1 rfl)
    (R := fun e _ x => isDir e.dent = true → startCluster x = e.ino)
    (fun p e st hst _ => hst.ino_eq htree hT.root) (fun p e st hst hheld hdir => ?_) p e st hst hheld hdir
  rw [hT.coherent p e st hst hdir hheld, hst.2.1]

theorem trans (h : TableGrown s t) (h' : TableGrown t u) : TableGrown s u := by
  have hT' := h.table hT
  have hlt : ∀ {p}, p < s.nextVnode → p < t.nextVnode := fun hp => Nat.lt_of_lt_of_le hp h.next
  have hiff : ∀ {p}, p < s.nextVnode → ∀ st, Stands t p st ↔ Stands s p st := fun hp st =>
    Stands.kept hT h.toKeysKept hp
  refine ⟨⟨?_, h.next.trans h'.next, fun i p hp => (h'.list i p (hlt hp)).trans (h.list i p hp),
    fun p hp => (h'.key p (hlt hp)).trans (h.key p hp), fun p hp => ?_⟩, fun p hp hheld => ?_,
    fun i p hmem hle => ?_⟩
  · have hrest := h'.rest
    rw [h.rest] at hrest
    exact hrest
  · rcases h'.data p (hlt hp) with hdata | ⟨e, st, hst, hdata⟩
    · rcases h.data p hp with hdata' | hfill
      · exact .inl (hdata.trans hdata')
      · exact .inr (hfill.kept h'.toKeysKept (hlt hp) (hiff hp))
    · exact .inr ⟨e, st, (hiff hp _).mp hst, hdata⟩
  · rcases h'.held p (hlt hp) hheld with hheld' | ⟨e, st, hst, hdata⟩
    · rcases h.held p hp hheld' with hheld'' | hfill
      · exact .inl hheld''
      · exact .inr (hfill.kept h'.toKeysKept (hlt hp) (hiff hp))
    · exact .inr ⟨e, st, (hiff hp _).mp hst, hdata⟩
  · by_cases hp : p < t.nextVnode
    · exact (h.fresh i p ((h'.list i p hp).mp hmem) hle).kept hT' h'.toKeysKept
    · exact h'.fresh i p hmem (by omega)

theorem of_vnode (hrest : t = { s with vnodes := t.vnodes })
    (hne : ∀ r, r ≠ p → t.vnodes r = s.vnodes r) (hkey : SameKey (t.vnodes p) (s.vnodes p))
    (hdata : (t.vnodes p).data = (s.vnodes p).data ∨ Refilled s t p)
    (hheld : Held s p ∨ Refilled s t p) : TableGrown s t := by
  have hlist : t.vnlist = s.vnlist := by rw [hrest]
  have hnext : t.nextVnode = s.nextVnode := by rw [hrest]
  have hkeys : ∀ r, SameKey (t.vnodes r) (s.vnodes r) := fun r => by
    by_cases hr : r = p
    · exact hr ▸ hkey
    · rw [hne r hr]
      exact ⟨rfl, rfl, rfl⟩
  refine ⟨⟨by rw [hrest], hnext.ge, fun h r _ => by rw [hlist], fun r _ => hkeys r, fun r _ => ?_⟩,
    fun r _ hh => ?_, fun h r hr hle => ?_⟩
  · by_cases hr : r = p
    · exact hr ▸ hdata
    · rw [hne r hr]
      exact .inl rfl
  · by_cases hr : r = p
    · exact hr ▸ hheld
    rcases hh with hl | ⟨h, c, hc, hparent⟩
    · rw [Live, hne r hr] at hl
      exact .inl (.inl hl)
    · rw [(hkeys c).2.1] at hparent
      exact .inl (.inr ⟨h, c, hlist ▸ hc, hparent⟩)
  · have := (hT.listed h r (hlist ▸ hr)).2.1
    omega

theorem withCount (hp : Held s p) (n : Nat) : TableGrown s (s.withCount p n) := by
  have hsame : (s.withCount p n).vnodes p = { s.vnodes p with count := n } := by
    rw [Fs.withCount, Fs.setVnode_vnodes, if_pos rfl]
  refine of_vnode hT rfl (fun r hr => withCount_ne hr) ?_ (.inl ?_) (.inl hp)
  · rw [hsame]
    exact ⟨rfl, rfl, rfl⟩
  · rw [hsame]

theorem filled (hst : Stands s p (e :: st)) : TableGrown s (s.filled p e.dent) := by
  have hfilled : Refilled s (s.filled p e.dent) p := ⟨e, st, hst, by rw [filled_same]⟩
  refine of_vnode hT rfl (fun r hr => filled_ne hr) ?_ (.inr hfilled) (.inr hfilled)
  rw [filled_same]
  exact ⟨rfl, rfl, rfl⟩

theorem newVnode (hst : Stands s cur st) (hdir : topIsDir st = true)
    (hheld : Held s cur) (hentry : ∃ name, entryOf s.toVolume (topDent st) name = some e)
    (hw : w = ⟨false, 1, (s.vnodes cur).dev, e.off, e.ino, cur, e.dent⟩) :
    TableGrown s (s.newVnode w (vnodeHash w.no)) ∧
      Stands (s.newVnode w (vnodeHash w.no)) s.nextVnode (e :: st) := by
  have hlt := hT.lt_next hst
  have hold : ∀ r, r < s.nextVnode → (s.newVnode w (vnodeHash w.no)).vnodes r = s.vnodes r := fun r hr =>
    newVnode_ne (by omega) _
  have hnew : (s.newVnode w (vnodeHash w.no)).vnodes s.nextVnode = w := newVnode_same s w _
  have hK : KeysKept s (s.newVnode w (vnodeHash w.no)) := by
    refine ⟨rfl, Nat.le_succ _, fun h r hr => ?_, fun r hr => ?_, fun r hr => .inl ?_⟩
    · rw [mem_newVnode]
      exact ⟨fun h => h.resolve_left fun h => by omega, .inr⟩
    · rw [hold r hr]
      exact ⟨rfl, rfl, rfl⟩
    · rw [hold r hr]
  have hparent : w.parent = cur := by rw [hw]
  have hstands : Stands (s.newVnode w (vnodeHash w.no)) s.nextVnode (e :: st) := by
    rw [Stands, hnew, hparent, Stands.kept hT hK hlt]
    refine ⟨mem_newVnode.mpr (.inl ⟨rfl, rfl⟩), ?_, ?_, hentry, hdir, hst⟩
    · rw [hw]
    · rw [hw]
  refine ⟨⟨hK, fun r hr hheld' => .inl ?_, fun h r hr hle => ?_⟩, hstands⟩
  · rcases hheld' with hlive | ⟨h, c, hc, hpar⟩
    · rw [Live, hold r hr] at hlive
      exact .inl hlive
    rcases mem_newVnode.mp hc with ⟨-, rfl⟩ | hc
    · rw [hnew, hparent] at hpar
      exact hpar ▸ hheld
    · rw [hold c (hT.listed h c hc).2.1] at hpar
      exact .inr ⟨h, c, hc, hpar⟩
  · rcases mem_newVnode.mp hr with ⟨-, rfl⟩ | hr
    · refine ⟨Nat.lt_succ_self _, ?_, e, st, hstands, ?_⟩
      · rw [hnew, hparent]
        exact Nat.lt_succ_of_lt hlt
      · rw [hnew, hw]
    · have := (hT.listed h r hr).2.1
      omega

end

end TableGrown

end table

/-! ## The steps of a walk -/

section steps

variable {D : List Dir} {s t : Fs} {p cur : Nat} {st : List ReadEntry} {name : List Nat}

theorem addCount_run (hp : p ≠ 0) (k : Int) (s : Fs) :
    addCount p k s = some ((), s.withCount p ((((s.vnodes p).count + k) % 65536).toNat)) := by
  rw [addCount, bind_of_some (vnode_eq hp s)]
  rfl

theorem addCount_up (hp : p ≠ 0) (hlt : (s.vnodes p).count + 1 < 65536) :
    addCount p 1 s = some ((), s.withCount p ((s.vnodes p).count + 1)) := by
  rw [addCount_run hp, show ((((s.vnodes p).count : Int) + 1) % 65536).toNat = (s.vnodes p).count + 1 by omega]

theorem releaseVnode_kept (hp : p ≠ 0) (h2 : 2 ≤ (s.vnodes p).count) (hlt : (s.vnodes p).count < 65536) :
    releaseVnode p s = some ((), s.withCount p ((s.vnodes p).count - 1)) := by
  have hcount : ((((s.vnodes p).count : Int) + -1) % 65536).toNat = (s.vnodes p).count - 1 := by omega
  rw [releaseVnode, get_bind, releaseVnodeFrom,
    bind_of_some (addCount_run hp (-1) s), hcount, bind_of_some (vnode_eq hp _), withCount_same,
    if_neg (by omega)]
  rfl

/-- No count is so high that `n` more references would make it overflow. -/
def Fits (s : Fs) (n : Nat) : Prop := n < 60000 ∧ ∀ p, p < s.nextVnode → (s.vnodes p).count + n < 65536

theorem Fits.mono {m n : Nat} (h : Fits s n) (hle : m ≤ n) : Fits s m := by
  have hn := h.1
  refine ⟨by omega, fun p hp => ?_⟩
  have := h.2 p hp
  omega

theorem Fits.drop {n : Nat} (h : Fits s n) : Fits (s.withCount p ((s.vnodes p).count - 1)) n := by
  refine ⟨h.1, fun q hq => ?_⟩
  have := h.2 q hq
  by_cases hqp : q = p
  · rw [hqp, withCount_same]
    rw [hqp] at this
    omega
  · rw [withCount_ne hqp]
    exact this

/-- A step to the vnode `q`, which takes a reference to it and to no other. -/
structure StepTo (s t : Fs) (q n : Nat) : Prop where
  grown : TableGrown s t
  fits : Fits t n
  next : t.nextVnode ≤ s.nextVnode + 1
  live : Live t q
  counts : ∀ p, p < s.nextVnode → (s.vnodes p).count + (if p = q then 1 else 0) ≤ (t.vnodes p).count

theorem StepTo.of_vnode {n : Nat} (hgrown : TableGrown s t) (hfits : Fits s (n + 1))
    (hnext : t.nextVnode = s.nextVnode) (hq : (t.vnodes q).count = (s.vnodes q).count + 1)
    (hother : ∀ p, p ≠ q → t.vnodes p = s.vnodes p) : StepTo s t q n := by
  have hn := hfits.1
  refine ⟨hgrown, ⟨by omega, fun p hp => ?_⟩, by omega, by rw [Live, hq]; omega, fun p hp => ?_⟩
  · have hold := hfits.2 p (hnext ▸ hp)
    by_cases hpq : p = q
    · rw [hpq] at hold ⊢
      omega
    · rw [hother p hpq]
      omega
  · by_cases hpq : p = q
    · rw [if_pos hpq, hpq, hq]
    · rw [if_neg hpq, hother p hpq, Nat.add_zero]

theorem StepTo.withCount {n : Nat} (hT : Table D s) (hheld : Held s q) (hfits : Fits s (n + 1)) :
    StepTo s (s.withCount q ((s.vnodes q).count + 1)) q n :=
  .of_vnode (.withCount hT hheld _) hfits rfl (withCount_same _ _ _) fun _ => withCount_ne

theorem StepTo.filled {n : Nat} {e : ReadEntry} (hT : Table D s) (hst : Stands s q (e :: st))
    (hdead : (s.vnodes q).count = 0) (hfits : Fits s (n + 1)) : StepTo s (s.filled q e.dent) q n := by
  refine .of_vnode (.filled hT hst) hfits rfl ?_ fun _ => filled_ne
  rw [filled_same, hdead]

theorem StepTo.newVnode {n : Nat} (hgrown : TableGrown s (s.newVnode w (vnodeHash w.no)))
    (hcount : w.count = 1) (hfits : Fits s (n + 1)) :
    StepTo s (s.newVnode w (vnodeHash w.no)) s.nextVnode n := by
  have hn := hfits.1
  have hnew : ((s.newVnode w (vnodeHash w.no)).vnodes s.nextVnode).count = 1 := by
    rw [newVnode_same, hcount]
  refine ⟨hgrown, ⟨by omega, fun p hp => ?_⟩, Nat.le_refl _, by rw [Live, hnew]; omega, fun p hp => ?_⟩
  · have hp' : p < s.nextVnode + 1 := hp
    by_cases hps : p = s.nextVnode
    · rw [hps, hnew]
      omega
    · have := hfits.2 p (by omega)
      rw [newVnode_ne hps]
      omega
  · have hps : p ≠ s.nextVnode := by omega
    rw [if_neg hps, newVnode_ne hps, Nat.add_zero]

/-- The search of a file for a name, as if its bytes were entries, finds nothing. -/
def Lacks (v : Volume) (dent : Bytes) (name : List Nat) : Prop :=
  ∀ fname, convertName name = some fname → findEntry v dent (Bytes.ofList fname) slotFuel 0 = some none

/-- No file of the tree has bytes that look like an entry with the name. A file that is in use has the
    clusters its vnode knows of. -/
structure FilesLack (s : Fs) (name : List Nat) : Prop where
  entries : ∀ e st, InTree s.toVolume (e :: st) → isDir e.dent = false → Lacks s.toVolume e.dent name
  vnodes : ∀ p e st, Stands s p (e :: st) → isDir e.dent = false → Held s p →
    Lacks s.toVolume (s.vnodes p).data name

theorem TableGrown.filesLack (hT : Table D s) (hG : TableGrown s t) (h : FilesLack s name) :
    FilesLack t name := by
  have hentries : ∀ e st, InTree t.toVolume (e :: st) → isDir e.dent = false →
      Lacks t.toVolume e.dent name := by
    rw [hG.volume]
    exact h.entries
  refine ⟨hentries, fun p e st hst hfile hheld => ?_⟩
  refine hG.agrees hT (hG.table hT).zero
    (R := fun e _ x => isDir e.dent = false → Lacks t.toVolume x name)
    (fun p e st hst => hentries e st hst.inTree) (fun p e st hst hheld hfile => ?_) p e st hst hheld hfile
  rw [hG.volume]
  exact h.vnodes p e st hst hfile hheld

theorem Lacks.entryOf_eq {v : Volume} {dent : Bytes} (h : Lacks v dent name) :
    entryOf v dent name = none := by
  unfold entryOf
  cases hconv : convertName name with
  | none => rfl
  | some fname =>
    rw [Option.bind_some, h fname hconv]
    rfl

/-- `lookup_path` is at the vnode `cur`, which stands for the place `st` and which it holds twice, and
    has the rest `path` before it: there is memory for a vnode for each character, and room for two
    references. -/
structure AtPlace (D : List Dir) (s : Fs) (cur : Nat) (st : List ReadEntry) (path : List Nat) : Prop where
  table : Table D s
  lacks : ∀ c ∈ components path, c ≠ nameDot → c ≠ nameDotDot → FilesLack s c
  stands : Stands s cur st
  twice : 2 ≤ (s.vnodes cur).count
  fits : Fits s (2 * path.length)
  memory : ∀ p, s.nextVnode ≤ p → p < s.nextVnode + path.length → s.noMem p = false

section walk

variable {path rest : List Nat} (h : AtPlace D s cur st path)
include h

/-- With less of the path left. -/
theorem AtPlace.mono (hlen : rest.length ≤ path.length)
    (hsub : ∀ c ∈ components rest, c ∈ components path) : AtPlace D s cur st rest :=
  ⟨h.table, fun c hc => h.lacks c (hsub c hc), h.stands, h.twice, h.fits.mono (by omega),
    fun p hp hp' => h.memory p hp (by omega)⟩

theorem AtPlace.live : Live s cur := by
  have := h.twice
  rw [Live]
  omega

theorem AtPlace.release :
    releaseVnode cur s = some ((), s.withCount cur ((s.vnodes cur).count - 1)) := by
  have := h.fits.2 cur (h.table.lt_next h.stands)
  exact releaseVnode_kept (h.table.ne_zero h.stands) h.twice (by omega)

/-- What `lookup_path` does between two components: it gives up the old vnode and holds the new one
    twice. -/
theorem AtPlace.step {new : Nat} {s1 : Fs} {st1 : List ReadEntry} (hless : rest.length < path.length)
    (hsub : ∀ c ∈ components rest, c ∈ components path) (h1 : StepTo s s1 new (2 * rest.length + 1))
    (hst : Stands s1 new st1) :
    ∃ s3, (∀ k : Prog Fs Nat, (do releaseVnode cur
                                  if new = 0 then return 0
                                  else
                                    addCount new 1
                                    k : Prog Fs Nat) s1 = k s3) ∧
      AtPlace D s3 new st1 rest ∧ s3.toVolume = s.toVolume := by
  have hT1 := h1.grown.table h.table
  have hnew := hT1.ne_zero hst
  have hnewlt := hT1.lt_next hst
  have hlt := h.table.lt_next h.stands
  have htwice := h.twice
  have hold := h1.counts cur hlt
  have hcurlt := h1.fits.2 cur (hlt.trans_le h1.grown.next)
  -- the old vnode keeps a reference
  have hrel := releaseVnode_kept (h.table.ne_zero h.stands) (by omega)
    (by omega : (s1.vnodes cur).count < 65536)
  have hgrown2 := TableGrown.withCount hT1 (p := cur) (.inl (by rw [Live]; omega))
    ((s1.vnodes cur).count - 1)
  have hT2 := hgrown2.table hT1
  have hfits2 : Fits (s1.withCount cur ((s1.vnodes cur).count - 1)) (2 * rest.length + 1) := h1.fits.drop
  have hlive2 : Live (s1.withCount cur ((s1.vnodes cur).count - 1)) new := by
    rw [Live]
    by_cases hsame : new = cur
    · rw [hsame, withCount_same]
      omega
    · rw [withCount_ne hsame]
      exact h1.live
  have hup := addCount_up hnew (by
    have := hfits2.2 new hnewlt
    omega : ((s1.withCount cur ((s1.vnodes cur).count - 1)).vnodes new).count + 1 < 65536)
  have h3 := StepTo.withCount (q := new) hT2 (.inl hlive2) hfits2
  have hgrown := h1.grown.trans h.table (hgrown2.trans hT1 h3.grown)
  refine ⟨_, fun k => ?_, ⟨hgrown.table h.table, fun c hc hdot hdotdot => ?_, ?_, ?_, h3.fits,
    fun p hp hp' => ?_⟩, hgrown.volume⟩
  · rw [bind_of_some hrel, if_neg hnew, bind_of_some hup]
  · exact hgrown.filesLack h.table (h.lacks c (hsub c hc) hdot hdotdot)
  · exact h3.grown.stands hT2 (hgrown2.stands hT1 hst)
  · rw [withCount_same]
    exact Nat.succ_le_succ (Nat.one_le_iff_ne_zero.mpr hlive2)
  · have hnext := h1.next
    have hle := hgrown.next
    have hp1 : p < s1.nextVnode + rest.length := hp'
    rw [hgrown.noMem]
    exact h.memory p (by omega) (by omega)

end walk

/-- The vnode returned stands for the place, or is `NULL` if there is none. -/
def Leads (t : Fs) (ret : Nat) (place : Option (List ReadEntry)) : Prop :=
  (ret = 0 ↔ place = none) ∧ ∀ st, place = some st → Stands t ret st

section runs

variable {writes : List Nat} {run : Option (Nat × Fs)} {place : Option (List ReadEntry)}

end runs

end steps

/-! ## The result -/

section calls

variable {D : List Dir} {s : Fs} {pid n : Nat} {path : List Nat} {st : List ReadEntry}

end calls

end AtomOs
