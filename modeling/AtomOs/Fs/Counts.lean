import AtomOs.Lib.RefCount
import AtomOs.Fs.Frames

/-!
# What taking, releasing and looking up vnodes does to their counts

`Refs s R` says that the `v_count` of every vnode is the number of references to it in the multiset
`R` plus the number of its live children. `R` is a parameter: while a call runs, the references are
those the processes hold and those the call itself holds at that point, and each function moves
them in a fixed way.

* `get_vnode` on a live vnode adds a reference (`getVnode_refs`), and **`release_vnode` takes
  exactly one away** (`releaseVnode_refs`), whether or not the vnode and a whole line of its
  parents die of it.
* A lookup that finds a live vnode adds a reference to it (`lookup_live`). One that brings a vnode
  to life does not count the new child in its parent; it uses up a reference of the parent instead
  (`lookup_fresh`).
-/

namespace AtomOs

open Lib Prog

variable {R : Multiset Nat} {p : Nat} {s t : Fs}

/-- The counts are those of the references `R`; vnodes in the hash lists are younger than their
    parents. -/
structure Refs (s : Fs) (R : Multiset Nat) : Prop where
  counted : Counted (fun q => (s.vnodes q).parent) (fun q => (s.vnodes q).count) s.nextVnode R
  hashed : ∀ i, ∀ p ∈ s.vnlist i, (s.vnodes p).parent < p ∧ p < s.nextVnode

/-- Vnodes are the same except for their entries and flags. -/
structure SameVnodes (s t : Fs) : Prop where
  next : t.nextVnode = s.nextVnode
  vnlist : t.vnlist = s.vnlist
  count : ∀ p, (t.vnodes p).count = (s.vnodes p).count
  parent : ∀ p, (t.vnodes p).parent = (s.vnodes p).parent

theorem SameVnodes.refl (s : Fs) : SameVnodes s s := ⟨rfl, rfl, fun _ => rfl, fun _ => rfl⟩

theorem SameVnodes.trans {u : Fs} (h : SameVnodes s t) (k : SameVnodes t u) : SameVnodes s u :=
  ⟨k.next.trans h.next, k.vnlist.trans h.vnlist, fun p => (k.count p).trans (h.count p),
    fun p => (k.parent p).trans (h.parent p)⟩

theorem Fs.setVnode_vnodes (s : Fs) (p q : Nat) (v : Vnode) :
    (s.setVnode p v).vnodes q = if q = p then v else s.vnodes q := rfl

theorem Fs.setVnode_field {α : Type} (f : Vnode → α) (s : Fs) {v : Vnode} (h : f v = f (s.vnodes p))
    (q : Nat) : f ((s.setVnode p v).vnodes q) = f (s.vnodes q) := by
  rw [Fs.setVnode_vnodes]
  split
  · rename_i hq
    rw [h, hq]
  · rfl

theorem SameVnodes.setVnode (s : Fs) {v : Vnode} (hcount : v.count = (s.vnodes p).count)
    (hparent : v.parent = (s.vnodes p).parent) : SameVnodes s (s.setVnode p v) :=
  ⟨rfl, rfl, s.setVnode_field Vnode.count hcount, s.setVnode_field Vnode.parent hparent⟩

instance : Quiet SameVnodes where
  refl := SameVnodes.refl
  trans _ _ _ := SameVnodes.trans
  fat _ _ := ⟨rfl, rfl, fun _ => rfl, fun _ => rfl⟩
  blocks _ _ _ := ⟨rfl, rfl, fun _ => rfl, fun _ => rfl⟩
  data s _ _ _ := SameVnodes.setVnode s rfl rfl

theorem Refs.congr (h : Refs s R) (hsame : SameVnodes s t) : Refs t R := by
  have hcount : (fun q => (t.vnodes q).count) = fun q => (s.vnodes q).count :=
    funext hsame.count
  have hparent : (fun q => (t.vnodes q).parent) = fun q => (s.vnodes q).parent :=
    funext hsame.parent
  refine ⟨?_, fun i p hp => ?_⟩
  · rw [hcount, hparent, hsame.next]
    exact h.counted
  · rw [hsame.vnlist] at hp
    rw [hsame.parent, hsame.next]
    exact h.hashed i p hp

/-! ## Changing one count -/

def Fs.withCount (s : Fs) (p k : Nat) : Fs := s.setVnode p { s.vnodes p with count := k }

theorem withCount_count (s : Fs) (p k : Nat) :
    (fun q => ((s.withCount p k).vnodes q).count) = setCount (fun q => (s.vnodes q).count) p k := by
  funext q
  rw [Fs.withCount, Fs.setVnode_vnodes, setCount]
  split <;> rfl

@[simp] theorem withCount_parent (s : Fs) (p k q : Nat) :
    ((s.withCount p k).vnodes q).parent = (s.vnodes q).parent :=
  s.setVnode_field Vnode.parent (by rfl) q

@[simp] theorem withCount_data (s : Fs) (p k q : Nat) :
    ((s.withCount p k).vnodes q).data = (s.vnodes q).data :=
  s.setVnode_field Vnode.data (by rfl) q

theorem withCount_hasKey (s : Fs) (p k q : Nat) :
    ((s.withCount p k).vnodes q).hasKey = (s.vnodes q).hasKey :=
  s.setVnode_field Vnode.hasKey (by rfl) q

theorem withCount_same (s : Fs) (p k : Nat) : ((s.withCount p k).vnodes p).count = k := by
  rw [Fs.withCount, Fs.setVnode_vnodes, if_pos rfl]

theorem withCount_ne {k q : Nat} (h : q ≠ p) : (s.withCount p k).vnodes q = s.vnodes q := by
  rw [Fs.withCount, Fs.setVnode_vnodes, if_neg h]

theorem withCount_withCount (s : Fs) (p j k : Nat) :
    (s.withCount p j).withCount p k = s.withCount p k := by
  unfold Fs.withCount Fs.setVnode
  simp only [if_true]
  congr 1
  funext q
  split <;> rfl

theorem addCount_some {k : Int} {a : Unit} (h : addCount p k s = some (a, t)) :
    p ≠ 0 ∧ t = s.withCount p ((((s.vnodes p).count + k) % 65536).toNat) := by
  obtain ⟨hp, hset⟩ := vnode_bind.mp h
  cases hset
  exact ⟨hp, rfl⟩

theorem Refs.withCount {R' : Multiset Nat} {k : Nat} (h : Refs s R)
    (hcounted : Counted (fun q => (s.vnodes q).parent)
      (setCount (fun q => (s.vnodes q).count) p k) s.nextVnode R') :
    Refs (s.withCount p k) R' := by
  refine ⟨?_, fun i q hq => ?_⟩
  · rw [withCount_count]
    have hparent : (fun q => ((s.withCount p k).vnodes q).parent) = fun q => (s.vnodes q).parent :=
      funext fun q => withCount_parent s p k q
    rw [hparent]
    exact hcounted
  · rw [withCount_parent]
    exact h.hashed i q hq

/-- More references than a system with 32 processes of 20 descriptors and a running call has. -/
def refsMax : Nat := 1000

section moves

variable {s t : Fs} {R : Multiset Nat} {p : Nat} {a : Unit}

theorem Refs.count_lt (h : Refs s R) (hR : R.card ≤ refsMax) : (s.vnodes p).count < 65535 := by
  have := h.counted.le_refs p
  unfold refsMax at hR
  omega

theorem Refs.live (h : Refs s R) (hp : p ≠ 0) (href : p ∈ R) : 0 < (s.vnodes p).count :=
  h.counted.live_of_ref (Nat.pos_of_ne_zero hp) href

theorem getVnode_refs (h : Refs s R) (hR : R.card ≤ refsMax) (hlive : 0 < (s.vnodes p).count)
    (hrun : addCount p 1 s = some (a, t)) :
    Refs t (p ::ₘ R) ∧ t = s.withCount p ((s.vnodes p).count + 1) := by
  obtain ⟨-, rfl⟩ := addCount_some hrun
  have hlt := h.count_lt (p := p) hR
  have hcount : ((((s.vnodes p).count : Int) + 1) % 65536).toNat = (s.vnodes p).count + 1 := by omega
  rw [hcount]
  exact ⟨h.withCount (h.counted.take hlive), rfl⟩

section

variable (h : Refs s (p ::ₘ R)) (hR : (p ::ₘ R).card ≤ refsMax) (hcount : 1 < (s.vnodes p).count)
include h hR hcount

theorem addCount_drop (hrun : addCount p (-1) s = some (a, t)) :
    Refs t R ∧ t = s.withCount p ((s.vnodes p).count - 1) := by
  obtain ⟨-, rfl⟩ := addCount_some hrun
  have hlt := h.count_lt (p := p) hR
  have heq : ((((s.vnodes p).count : Int) + -1) % 65536).toNat = (s.vnodes p).count - 1 := by omega
  rw [heq]
  exact ⟨h.withCount (h.counted.drop hcount), rfl⟩

theorem releaseVnode_drop (hrun : releaseVnode p s = some (a, t)) :
    Refs t R ∧ t = s.withCount p ((s.vnodes p).count - 1) := by
  unfold releaseVnode releaseVnodeFrom at hrun
  simp only [bind_some] at hrun
  obtain ⟨_, _, hget, _, s1, h1, v, s2, h2, hrun⟩ := hrun
  cases hget
  obtain ⟨-, rfl, rfl⟩ := vnode_some.mp h2
  obtain ⟨hrefs, rfl⟩ := addCount_drop h hR hcount h1
  rw [withCount_same, if_neg (by omega)] at hrun
  cases hrun
  exact ⟨hrefs, rfl⟩

end

/-- A reference more, and one less: the source does this before it releases a vnode. -/
theorem addCount_back {u : Fs} {b : Unit} (h : Refs s (p ::ₘ R)) (hR : R.card + 3 ≤ refsMax)
    (h1 : addCount p 1 s = some (a, u)) (h2 : addCount p (-1) u = some (b, t)) :
    Refs t (p ::ₘ R) := by
  have hlive := h.live (addCount_some h1).1 (Multiset.mem_cons_self p R)
  obtain ⟨hrefs, hu⟩ := getVnode_refs h (by rw [Multiset.card_cons]; omega) hlive h1
  exact (addCount_drop hrefs (by simp only [Multiset.card_cons]; omega)
    (by rw [hu, withCount_same]; omega) h2).1

theorem Refs.drop_null (h : Refs s (0 ::ₘ R)) : Refs s R := by
  refine ⟨⟨h.counted.older, fun q hq => ?_⟩, h.hashed⟩
  rw [h.counted.count_eq q hq, Multiset.count_cons, if_neg (by omega), Nat.add_zero]

end moves

/-- The recursion of `release_vnode`: when the vnode dies, its reference to its parent is the next
    to be released. -/
theorem releaseVnodeFrom_refs : ∀ {fuel p : Nat} {s t : Fs} {a : Unit},
    Refs s (p ::ₘ R) → (p ::ₘ R).card ≤ refsMax → releaseVnodeFrom fuel p s = some (a, t) →
      Refs t R
  | 0, _, _, _, _, _, _, hrun => absurd hrun stuck_some
  | fuel + 1, p, s, t, a, h, hR, hrun => by
    unfold releaseVnodeFrom at hrun
    simp only [bind_some] at hrun
    obtain ⟨_, s1, h1, v, s2, h2, hrun⟩ := hrun
    obtain ⟨hp, rfl, rfl⟩ := vnode_some.mp h2
    have hlive := h.live hp (Multiset.mem_cons_self p R)
    by_cases hcount : 1 < (s.vnodes p).count
    · obtain ⟨hrefs, rfl⟩ := addCount_drop h hR hcount h1
      rw [withCount_same, if_neg (by omega)] at hrun
      cases hrun
      exact hrefs
    have hone : (s.vnodes p).count = 1 := by omega
    obtain ⟨-, rfl⟩ := addCount_some h1
    have hzero : ((((s.vnodes p).count : Int) + -1) % 65536).toNat = 0 := by omega
    rw [hzero] at hrun
    have hdie : Refs (s.withCount p 0) ((s.vnodes p).parent ::ₘ R) :=
      h.withCount (h.counted.die hone)
    rw [withCount_same, if_pos rfl] at hrun
    simp only [bind_some, withCount_parent] at hrun
    obtain ⟨_, s3, h3, hrun⟩ := hrun
    have hs3 := hdie.congr (keeps_fat12VopDestroy SameVnodes _ _ _ _ h3)
    split at hrun
    · rename_i hpar
      simp only [bind_some] at hrun
      obtain ⟨_, s4, h4, _, s5, h5, hrun⟩ := hrun
      rw [Multiset.card_cons] at hR
      have hcard : ((s.vnodes p).parent ::ₘ R).card ≤ refsMax := by
        rw [Multiset.card_cons]
        exact hR
      -- `get_vnode(vnp); vnp->v_count--` changes nothing.
      obtain ⟨-, rfl⟩ := addCount_some h4
      obtain ⟨-, rfl⟩ := addCount_some h5
      have hlt := hs3.count_lt (p := (s.vnodes p).parent) hcard
      refine releaseVnodeFrom_refs (hs3.congr ?_) hcard hrun
      refine ⟨rfl, rfl, fun q => ?_, fun q => ?_⟩
      · by_cases hq : q = (s.vnodes p).parent
        · rw [hq, withCount_same, withCount_same]
          omega
        · rw [withCount_ne hq, withCount_ne hq]
      · rw [withCount_parent, withCount_parent]
    · rename_i hpar
      cases hrun
      rw [not_not.mp hpar] at hs3
      exact hs3.drop_null

/-- **`release_vnode` takes exactly one reference away.** -/
theorem releaseVnode_refs {a : Unit} (h : Refs s (p ::ₘ R)) (hR : (p ::ₘ R).card ≤ refsMax)
    (hrun : releaseVnode p s = some (a, t)) : Refs t R := by
  unfold releaseVnode at hrun
  exact releaseVnodeFrom_refs h hR hrun

/-! ## Looking up -/

/-- The entry a name has in the directory with entry `dent`. -/
def entryOf (s : Volume) (dent : Bytes) (name : List Nat) : Option ReadEntry :=
  (convertName name).bind fun fname => (findEntry s dent (Bytes.ofList fname) slotFuel 0).getD none

/-- The vnode `alloc_vnode` finds for an entry of directory `d`. -/
def vnodeFor (s : Fs) (d : Nat) (e : ReadEntry) : Option Nat :=
  (s.vnlist (vnodeHash e.ino)).find? fun p => (s.vnodes p).hasKey (s.vnodes d).dev e.ino d e.off

/-- Whether the entry of directory `d` has a live vnode. -/
def entryLive (s : Fs) (d : Nat) (e : ReadEntry) : Bool :=
  (vnodeFor s d e).any fun p => 0 < (s.vnodes p).count

/-- The vnode `p` was brought to life, and nothing else has changed. -/
structure Woken (s t : Fs) (p : Nat) : Prop where
  volume : t.toVolume = s.toVolume
  others : ∀ q, q ≠ p → t.vnodes q = s.vnodes q
  count : (t.vnodes p).count = 1

section lookup

variable {s t : Fs} {R : Multiset Nat} {d ret : Nat} {e : ReadEntry} {name : List Nat}

theorem Fs.newVnode_vnodes (s : Fs) (v : Vnode) (i q : Nat) :
    (s.newVnode v i).vnodes q = if q = s.nextVnode then v else s.vnodes q := rfl

theorem Refs.newVnode {v : Vnode} (h : Refs s R) (hcount : v.count = 0)
    (hparent : v.parent < s.nextVnode) (i : Nat) : Refs (s.newVnode v i) R := by
  have hcounts : (fun q => ((s.newVnode v i).vnodes q).count) = fun q => (s.vnodes q).count := by
    funext q
    rw [Fs.newVnode_vnodes]
    split
    · rename_i hq
      rw [hcount, hq]
      refine (Nat.eq_zero_of_not_pos fun hc => ?_).symm
      exact absurd (h.counted.older _ hc).2 (Nat.lt_irrefl _)
    · rfl
  refine ⟨?_, fun j q hq => ?_⟩
  · rw [hcounts]
    refine h.counted.congr (Nat.le_succ _) fun q hq => ?_
    rw [Fs.newVnode_vnodes, if_neg (Nat.ne_of_lt (h.counted.older q hq).2)]
  · have hmem : q = s.nextVnode ∨ q ∈ s.vnlist j := by
      change q ∈ (if j = i then s.nextVnode :: s.vnlist j else s.vnlist j) at hq
      split at hq
      · exact List.mem_cons.mp hq
      · exact .inr hq
    rw [Fs.newVnode_vnodes]
    split
    · rename_i hqn
      rw [hqn]
      exact ⟨hparent, Nat.lt_succ_self _⟩
    · rename_i hqn
      obtain ⟨hlt, hnext⟩ := h.hashed j q (hmem.resolve_left hqn)
      exact ⟨hlt, Nat.lt_succ_of_lt hnext⟩

theorem allocVnode_live (h : Refs s R) (hR : R.card ≤ refsMax) (hlive : entryLive s d e = true)
    (hrun : allocVnode (s.vnodes d).dev e.ino d e.off s = some (ret, t)) :
    ret ≠ 0 ∧ 0 < (s.vnodes ret).count ∧ Refs t (ret ::ₘ R) ∧
      t = s.withCount ret ((s.vnodes ret).count + 1) := by
  change ((s.vnlist _).find? _).any _ = true at hlive
  rcases allocVnode_some hrun with ⟨hfind, hadd⟩ | ⟨hnone, -⟩
  · rw [hfind] at hlive
    have hcount : 0 < (s.vnodes ret).count := of_decide_eq_true hlive
    exact ⟨(addCount_some hadd).1, hcount, getVnode_refs h hR hcount hadd⟩
  · rw [hnone] at hlive
    cases hlive

/-- `alloc_vnode` for an entry whose vnode is dead, or that has none: a reference to the directory
    becomes that of its new child. -/
theorem allocVnode_fresh (h : Refs s (d ::ₘ R)) (hd : 0 < (s.vnodes d).count)
    (hdead : entryLive s d e = false)
    (hrun : allocVnode (s.vnodes d).dev e.ino d e.off s = some (ret, t)) :
    (ret = 0 ∧ s.noMem s.nextVnode = true) ∨
      ret ≠ 0 ∧ (t.vnodes ret).parent = d ∧ Refs t (ret ::ₘ R) ∧ Woken s t ret := by
  change ((s.vnlist _).find? _).any _ = false at hdead
  rcases allocVnode_some hrun with ⟨hfind, hadd⟩ | ⟨-, ⟨rfl, hmem, -⟩ | ⟨rfl, hadd⟩⟩
  · rw [hfind] at hdead
    have hzero : (s.vnodes ret).count = 0 := Nat.eq_zero_of_not_pos (of_decide_eq_false hdead)
    obtain ⟨hp, rfl⟩ := addCount_some hadd
    have hkey := List.find?_some hfind
    have hparent : (s.vnodes ret).parent = d := by
      simp only [Vnode.hasKey, Bool.and_eq_true, beq_iff_eq] at hkey
      exact hkey.1.2
    obtain ⟨hyoung, hnext⟩ := h.hashed _ ret (List.mem_of_find?_eq_some hfind)
    rw [hzero]
    refine .inr ⟨hp, (withCount_parent _ _ _ _).trans hparent, ?_, rfl, fun q hq => withCount_ne hq,
      withCount_same s ret 1⟩
    rw [← hparent] at h
    exact h.withCount (h.counted.wake hzero hyoung hnext)
  · exact .inl ⟨rfl, hmem⟩
  · -- The new vnode is put into its list with the count 0, and then counted.
    obtain ⟨hp, rfl⟩ := addCount_some hadd
    have hold := (h.counted.older d hd).2
    let v : Vnode := { s.vnodes s.nextVnode with
      dev := (s.vnodes d).dev, no := e.ino, parent := d, offset := e.off, count := 0 }
    have hu := h.newVnode (v := v) rfl hold (vnodeHash e.ino)
    have hv : (s.newVnode v (vnodeHash e.ino)).vnodes s.nextVnode = v := if_pos rfl
    have hpar : ((s.newVnode v (vnodeHash e.ino)).vnodes s.nextVnode).parent = d := by rw [hv]
    rw [hv]
    refine .inr ⟨hp, (withCount_parent _ _ _ _).trans hpar, ?_, rfl,
      fun q hq => (withCount_ne hq).trans (if_neg hq), withCount_same _ _ 1⟩
    rw [← hpar] at hu hold
    exact hu.withCount (hu.counted.wake (by rw [hv]) hold (Nat.lt_succ_self _))

section

variable (hdot : name ≠ nameDot) (hdotdot : name ≠ nameDotDot)
include hdot hdotdot

/-- A lookup of a name: with no entry there is nothing, and else the vnode is allocated and gets its
    fields if it is new. -/
theorem lookup_spec (hrun : fat12VopLookup d name s = some (ret, t)) :
    match entryOf s.toVolume (s.vnodes d).data name with
    | none => ret = 0 ∧ t = s
    | some e => ∃ s1, allocVnode (s.vnodes d).dev e.ino d e.off s = some (ret, s1) ∧
      t = if ret ≠ 0 ∧ (s1.vnodes ret).count = 1 then
        s1.setVnode ret { s1.vnodes ret with changed := false, data := e.dent } else s1 := by
  unfold fat12VopLookup at hrun
  rw [if_neg hdot, if_neg hdotdot] at hrun
  unfold entryOf
  cases hconv : convertName name with
  | none =>
    rw [hconv] at hrun
    cases hrun
    exact ⟨rfl, rfl⟩
  | some fname =>
    rw [hconv] at hrun
    simp only [bind_some] at hrun
    obtain ⟨_, _, hget, dv, s1, h1, hrun⟩ := hrun
    cases hget
    obtain ⟨-, rfl, rfl⟩ := vnode_some.mp h1
    rw [Option.bind_some]
    cases hfind : findEntry s1.toVolume (s1.vnodes d).data (Bytes.ofList fname) slotFuel 0 with
    | none =>
      rw [hfind] at hrun
      cases hrun
    | some r =>
      rw [hfind] at hrun
      cases r with
      | none =>
        cases hrun
        exact ⟨rfl, rfl⟩
      | some e =>
        simp only [bind_some] at hrun
        obtain ⟨p, s2, h2, hrun⟩ := hrun
        split at hrun
        · rename_i hp
          cases hrun
          rw [hp] at h2
          exact ⟨t, h2, by rw [if_neg (by simp)]⟩
        rename_i hp
        obtain ⟨-, hrun⟩ := vnode_bind.mp hrun
        split at hrun
        · rename_i hone
          cases hrun
          exact ⟨s2, h2, by rw [if_pos ⟨hp, hone⟩]⟩
        · rename_i hone
          cases hrun
          exact ⟨t, h2, by rw [if_neg fun hc => hone hc.2]⟩

/-- **Looking up a live vnode** takes a reference to it. -/
theorem lookup_live (he : entryOf s.toVolume (s.vnodes d).data name = some e) (h : Refs s R)
    (hR : R.card ≤ refsMax) (hlive : entryLive s d e = true)
    (hrun : fat12VopLookup d name s = some (ret, t)) : ret ≠ 0 ∧ Refs t (ret ::ₘ R) := by
  have hspec := lookup_spec hdot hdotdot hrun
  rw [he] at hspec
  obtain ⟨s1, halloc, ht⟩ := hspec
  obtain ⟨hret, hcount, hrefs, rfl⟩ := allocVnode_live h hR hlive halloc
  rw [withCount_same, if_neg (by omega)] at ht
  rw [ht]
  exact ⟨hret, hrefs⟩

/-- **Bringing a vnode to life** turns a reference to the directory into one to the vnode. -/
theorem lookup_fresh (he : entryOf s.toVolume (s.vnodes d).data name = some e)
    (h : Refs s (d ::ₘ R)) (hd : 0 < (s.vnodes d).count) (hdead : entryLive s d e = false)
    (hmem : s.noMem s.nextVnode = false) (hrun : fat12VopLookup d name s = some (ret, t)) :
    ret ≠ 0 ∧ (t.vnodes ret).parent = d ∧ (t.vnodes ret).data = e.dent ∧ Refs t (ret ::ₘ R) ∧
      Woken s t ret := by
  have hspec := lookup_spec hdot hdotdot hrun
  rw [he] at hspec
  obtain ⟨s1, halloc, ht⟩ := hspec
  rcases allocVnode_fresh h hd hdead halloc with ⟨-, hno⟩ | ⟨hret, hpar, hrefs, hwoken⟩
  · exact absurd hno (by simp [hmem])
  rw [if_pos ⟨hret, hwoken.count⟩] at ht
  have hsame : SameVnodes s1 t := ht ▸ SameVnodes.setVnode s1 rfl rfl
  refine ⟨hret, (hsame.parent ret).trans hpar, ?_, hrefs.congr hsame, ?_, fun q hq => ?_,
    (hsame.count ret).trans hwoken.count⟩
  · rw [ht, Fs.setVnode_vnodes, if_pos rfl]
  · rw [ht]
    exact hwoken.volume
  · rw [ht, Fs.setVnode_vnodes, if_neg hq]
    exact hwoken.others q hq

end

theorem lookup_dotdot (h : Refs s R) (hR : R.card ≤ refsMax) (hd : 0 < (s.vnodes d).count)
    (hrun : fat12VopLookup d nameDotDot s = some (ret, t)) : ret ≠ 0 ∧ Refs t (ret ::ₘ R) := by
  unfold fat12VopLookup at hrun
  rw [if_neg (by decide), if_pos rfl] at hrun
  unfold getPdir at hrun
  simp only [bind_some] at hrun
  obtain ⟨v, s1, h1, _, s2, h2, hrun⟩ := hrun
  obtain ⟨-, rfl, rfl⟩ := vnode_some.mp h1
  cases hrun
  have hpar := (addCount_some h2).1
  exact ⟨hpar, (getVnode_refs h hR (h.counted.live_of_child hd (Nat.pos_of_ne_zero hpar)) h2).1⟩

end lookup

end AtomOs
