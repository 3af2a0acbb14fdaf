import AtomOs.Fs.Chains
import AtomOs.Fs.Frames

/-!
# What writing to a file changes

`fat12_vop_write` works block by block: it walks to a cluster of the file, takes the next one or a
new one if the position is at a block boundary, and changes one sector. `FileGrowth` says what such a
step and hence a whole write may change: the entry of the file's own vnode, the table at the file's
own clusters, and their sectors. New clusters were free before.

The steps are stated for a file whose chain is long enough for its size (`FileChain`) and a position
that is not behind its end. Then **the walk never leaves the chain** (`writeLoop_block`): a step writes
the block with the index `blockIndex`, which is the block of the position, except at position 0 of a file
that is not empty. There the source steps back from block 0 to block -1, takes that for the first one, and
goes on to the block behind it.
-/

namespace AtomOs

open Lib Prog List Dirent

variable {b c i k : Nat} {t : Fs}

/-! ## Files on a volume -/

/-- Exactly the sectors of the disk can be read, from the cache or without it. -/
def Healthy (v : Volume) : Prop :=
  ∀ b, v.unreadable b = decide (totalSect ≤ b)

theorem dropSector_of_faulty {s : Fs} (h : s.faulty = s.unreadable) (b : Nat) :
    s.dropSector b = { s with disk := (s.dropSector b).disk } := by
  have hsame : (fun c => if c = b then s.faulty b else s.unreadable c) = s.unreadable := by
    funext c
    split
    · rename_i hc
      rw [hc, h]
    · rfl
  rw [Fs.dropSector, hsame]

/-- The clusters of the file with this entry. An empty file has none, whatever its
    `start_cluster`. -/
def FileChain (fat : FatTable) (d : Bytes) (l : List Nat) : Prop :=
  (Dirent.fsize d = 0 ∧ l = []) ∨
    (Dirent.fsize d ≠ 0 ∧ ∃ c : Nat, Dirent.startCluster d = c ∧ Chain fat c l ∧
      Dirent.fsize d ≤ 512 * l.length)

theorem u32_cluster (hle : c ≤ lastCluster) : u32 ((c : Int) + 31) = c + 31 := by
  have hlast : lastCluster = 2848 := rfl
  exact u32_of_lt (x := c + 31) (by omega)

theorem bread_data {v : Volume} (hv : Healthy v) (hle : c ≤ lastCluster) :
    v.bread c = some (v.disk (c + 31)) := by
  have hlast : lastCluster = 2848 := rfl
  have htotal : totalSect = 2880 := rfl
  have hread : v.unreadable (c + 31) = false := by
    rw [hv _, decide_eq_false_iff_not]
    omega
  simp only [Volume.bread, u32_cluster hle, hread, Bool.false_eq_true, if_false]

theorem setSector_of_readable {s : Fs} (h : s.unreadable b = false) (data : Bytes) :
    s.setSector b data = { s with disk := (s.setSector b data).disk } := by
  have hsame : (fun c => if c = b then false else s.unreadable c) = s.unreadable := by
    funext c
    split
    · rename_i hc
      rw [hc, h]
    · rfl
  rw [Fs.setSector, hsame]

theorem writeCluster_data {s : Fs} (hle : c ≤ lastCluster) (data : Bytes) :
    s.writeCluster c data = s.setSector (c + 31) data := by
  rw [Fs.writeCluster, u32_cluster hle]

namespace FileChain

variable {fat fat' : FatTable} {d d' : Bytes} {l l' : List Nat} {x : Nat}

section

variable (h : FileChain fat d l)
include h

theorem inside (hx : x ∈ l) : 2 ≤ x ∧ x ≤ lastCluster := by
  rcases h with ⟨-, rfl⟩ | ⟨-, c, -, hchain, -⟩
  · simp at hx
  · exact hchain.inside x hx

theorem ne_zero (hx : x ∈ l) : getClval12 fat x ≠ 0 := by
  rcases h with ⟨-, rfl⟩ | ⟨-, c, -, hchain, -⟩
  · simp at hx
  · exact hchain.ne_zero hx

theorem congr (hag : ∀ x ∈ l, getClval12 fat' x = getClval12 fat x)
    (hstart : startCluster d' = startCluster d) (hsize : fsize d' = fsize d) :
    FileChain fat' d' l := by
  unfold FileChain
  rw [hstart, hsize]
  rcases h with h | ⟨hne, c, hc, hchain, hlen⟩
  · exact .inl h
  · exact .inr ⟨hne, c, hc, hchain.congr hag, hlen⟩

theorem size_le : fsize d ≤ 512 * l.length := by
  rcases h with ⟨h0, -⟩ | ⟨-, -, -, -, hlen⟩
  · omega
  · exact hlen

theorem length_le : l.length ≤ lastCluster := by
  rcases h with ⟨-, rfl⟩ | ⟨-, c, -, hchain, -⟩
  · simp
  · exact hchain.length_le

theorem nodup : l.Nodup := by
  rcases h with ⟨-, rfl⟩ | ⟨-, c, -, hchain, -⟩
  · exact nodup_nil
  · exact hchain.nodup

end

end FileChain

/-! ## What a write may change -/

/-- The hash lists after `p`, which had the number `old`, got the number `new`. -/
def rehashed (vnlist : Nat → List Nat) (p : Nat) (old new : Int) : Nat → List Nat := fun h =>
  let erased := if h = vnodeHash old then (vnlist h).erase p else vnlist h
  if h = vnodeHash new then p :: erased else erased

/-- The file of vnode `p` had the clusters `l` and now has `l'`. -/
structure FileGrowth (p : Nat) (s t : Fs) (l l' : List Nat) : Prop where
  rest : t = { s with fat := t.fat, disk := t.disk, vnodes := t.vnodes, vnlist := t.vnlist }
  others : ∀ q, q ≠ p → t.vnodes q = s.vnodes q
  self : t.vnodes p = { s.vnodes p with data := (t.vnodes p).data, no := (t.vnodes p).no }
  name : ∀ i, i < 26 → (t.vnodes p).data i = (s.vnodes p).data i
  grows : l <+: l'
  fresh : ∀ c ∈ l', c ∉ l → c ∈ freeClusters s.fat
  table : ∀ c : Nat, c ∉ l' → getClval12 t.fat c = getClval12 s.fat c
  sectors : ∀ b, (∀ c ∈ l', b ≠ c + 31) → t.disk b = s.disk b
  hash : (Dirent.startCluster (t.vnodes p).data = Dirent.startCluster (s.vnodes p).data ∧
        (t.vnodes p).no = (s.vnodes p).no ∧ t.vnlist = s.vnlist) ∨
      (l = [] ∧ l' ≠ [] ∧ Dirent.startCluster (t.vnodes p).data = (t.vnodes p).no ∧
        t.vnlist = rehashed s.vnlist p (s.vnodes p).no (t.vnodes p).no)

namespace FileGrowth

variable {p : Nat} {s t u : Fs} {l l' l'' : List Nat}

theorem refl (p : Nat) (s : Fs) (l : List Nat) : FileGrowth p s s l l where
  rest := rfl
  others _ _ := rfl
  self := rfl
  name _ _ := rfl
  grows := prefix_refl l
  fresh _ hc hn := absurd hc hn
  table _ _ := rfl
  sectors _ _ := rfl
  hash := .inl ⟨rfl, rfl, rfl⟩

theorem trans (h : FileGrowth p s t l l') (k : FileGrowth p t u l' l'') : FileGrowth p s u l l'' where
  rest := by
    rw [k.rest, h.rest]
  others q hq := (k.others q hq).trans (h.others q hq)
  self := by
    rw [k.self, h.self]
  name i hi := (k.name i hi).trans (h.name i hi)
  grows := h.grows.trans k.grows
  fresh c hc hn := by
    by_cases hmid : c ∈ l'
    · exact h.fresh c hmid hn
    · have hfree := mem_freeClusters.mp (k.fresh c hc hmid)
      exact mem_freeClusters.mpr ⟨hfree.1, (h.table c hmid).symm.trans hfree.2⟩
  table c hc := (k.table c hc).trans (h.table c fun hmem => hc (k.grows.subset hmem))
  sectors b hb := (k.sectors b hb).trans (h.sectors b fun c hc => hb c (k.grows.subset hc))
  hash := by
    rcases h.hash with ⟨hstart, hno, hlist⟩ | ⟨hl, hl', hstart, hlist⟩ <;>
      rcases k.hash with ⟨kstart, kno, klist⟩ | ⟨kl, kl', kstart, klist⟩
    · exact .inl ⟨kstart.trans hstart, kno.trans hno, klist.trans hlist⟩
    · exact .inr ⟨prefix_nil.mp (kl ▸ h.grows), kl', kstart, by rw [klist, hlist, hno]⟩
    · refine .inr ⟨hl, fun h0 => hl' (prefix_nil.mp (h0 ▸ k.grows)), ?_, ?_⟩
      · rw [kstart, kno, hstart]
      · rw [klist, kno, hlist]
    · exact absurd kl hl'

theorem healthy (h : FileGrowth p s t l l') (hs : Healthy s.toVolume) : Healthy t.toVolume := by
  have hsame : t.unreadable = s.unreadable := by rw [h.rest]
  intro b
  rw [hsame]
  exact hs b

end FileGrowth

/-! ## The parts of a step -/

section parts

variable {p : Nat} {s : Fs} {l : List Nat} {c o : Nat}

theorem vnode_eq (hp : p ≠ 0) (s : Fs) : vnode p s = some (s.vnodes p, s) :=
  vnode_some.mpr ⟨hp, rfl, rfl⟩

/-- The state in which the file of `p` has at least `o` bytes. -/
def Fs.grown (s : Fs) (p o : Nat) : Fs :=
  if Dirent.fsize (s.vnodes p).data < o then
    s.setVnode p { s.vnodes p with data := Dirent.setFsize (s.vnodes p).data o }
  else s

theorem growFile_eq (hp : p ≠ 0) (ho : o < 4294967296) :
    growFile p o s = some ((), s.grown p o) := by
  rw [growFile, bind_of_some (vnode_eq hp s), u32_of_lt ho, Fs.grown]
  split <;> rfl

theorem setVnode_same (s : Fs) (p : Nat) (v : Vnode) : (s.setVnode p v).vnodes p = v := if_pos rfl

theorem setVnode_ne {q : Nat} (hq : q ≠ p) (s : Fs) (v : Vnode) :
    (s.setVnode p v).vnodes q = s.vnodes q := if_neg hq

theorem grown_fsize (ho : o < 4294967296) :
    fsize ((s.grown p o).vnodes p).data = max (fsize (s.vnodes p).data) o := by
  unfold Fs.grown
  split
  · rw [setVnode_same, fsize_setFsize ho]
    omega
  · omega

theorem grown_start :
    startCluster ((s.grown p o).vnodes p).data = startCluster (s.vnodes p).data := by
  unfold Fs.grown
  split
  · rw [setVnode_same, startCluster_setFsize]
  · rfl

theorem grown_fat : (s.grown p o).fat = s.fat := by
  unfold Fs.grown
  split <;> rfl

theorem grown_disk : (s.grown p o).disk = s.disk := by
  unfold Fs.grown
  split <;> rfl

theorem FileGrowth.grown : FileGrowth p s (s.grown p o) l l := by
  have hstart := grown_start (s := s) (p := p) (o := o)
  unfold Fs.grown at hstart ⊢
  split
  · rename_i hlt
    rw [if_pos hlt] at hstart
    refine { FileGrowth.refl p s l with
      rest := rfl
      others := fun q hq => setVnode_ne hq _ _
      self := by rw [setVnode_same]
      name := fun i hi => by
        rw [setVnode_same]
        exact setFsize_out (by omega)
      table := fun _ _ => rfl
      sectors := fun _ _ => rfl
      hash := .inl ⟨hstart, by rw [setVnode_same], rfl⟩ }
  · exact FileGrowth.refl p s l

theorem FileGrowth.sector (hs : Healthy s.toVolume) (hle : c ≤ lastCluster) (hc : c ∈ l) (data : Bytes) :
    FileGrowth p s (s.setSector (c + 31) data) l l := by
  have hread : s.unreadable (c + 31) = false := by
    have hlast : lastCluster = 2848 := rfl
    have htotal : totalSect = 2880 := rfl
    rw [hs, decide_eq_false_iff_not]
    omega
  exact { FileGrowth.refl p s l with
    rest := setSector_of_readable hread data
    sectors := fun _ hb => if_neg (hb c hc) }

/-- The state in which the empty file of `p` got its first cluster. -/
def Fs.takeFirst (s : Fs) (p c : Nat) : Fs :=
  { s.setVnode p { s.vnodes p with data := Dirent.setStart (s.vnodes p).data c, no := c } with
    fat := setClval12 s.fat c 0xfff
    vnlist := rehashed s.vnlist p (s.vnodes p).no c }

theorem takeFirst_same (s : Fs) (p c : Nat) : (s.takeFirst p c).vnodes p =
    { s.vnodes p with data := setStart (s.vnodes p).data c, no := c } := if_pos rfl

theorem firstCluster_eq (hp : p ≠ 0) (hc : c ≠ 0)
    (halloc : allocBlock12 s.fat = (c, setClval12 s.fat c 0xfff)) :
    firstCluster p s = some (c, s.takeFirst p c) := by
  rw [firstCluster, get_bind,
    bind_of_some (vnode_eq hp s)]
  simp only [halloc]
  rw [if_neg hc]
  rfl

theorem FileGrowth.takeFirst (hc : c ∈ freeClusters s.fat) : FileGrowth p s (s.takeFirst p c) [] [c] where
  rest := rfl
  others q hq := setVnode_ne hq _ _
  self := by rw [takeFirst_same]
  name i hi := by
    rw [takeFirst_same]
    exact setStart_out (.inl hi)
  grows := nil_prefix
  fresh x hx _ := by
    obtain rfl := mem_singleton.mp hx
    exact hc
  table x hx := by
    change getClval12 (setClval12 s.fat c 0xfff) x = _
    rw [getClval12_set, if_neg (fun hxc => hx (by rw [hxc]; exact mem_singleton_self c))]
  sectors _ _ := rfl
  hash := by
    have hlast : lastCluster = 2848 := rfl
    obtain ⟨hrange, -⟩ := mem_freeClusters.mp hc
    refine .inr ⟨rfl, by simp, ?_, ?_⟩
    · rw [takeFirst_same]
      exact startCluster_setStart (by omega) (by omega)
    · rw [takeFirst_same]
      rfl

/-- The state in which cluster `c` was put behind `x`. -/
def Fs.takeNext (s : Fs) (x c : Nat) : Fs :=
  { s with fat := setClval12 (setClval12 s.fat c 0xfff) x c }

theorem FileGrowth.takeNext {x : Nat} (hc : c ∈ freeClusters s.fat) (hx : x ∈ l) :
    FileGrowth p s (s.takeNext x c) l (l ++ [c]) :=
  { FileGrowth.refl p s l with
    rest := rfl
    grows := prefix_append l [c]
    fresh := fun y hy hn => by
      rcases mem_append.mp hy with hy | hy
      · exact absurd hy hn
      · obtain rfl := mem_singleton.mp hy
        exact hc
    table := fun y hy => by
      have hyl : y ≠ x := fun h => hy (mem_append_left _ (h ▸ hx))
      have hyc : y ≠ c := fun h => hy (mem_append_right _ (by rw [h]; exact mem_singleton_self c))
      change getClval12 (setClval12 (setClval12 s.fat c 0xfff) x c) y = _
      rw [getClval12_set, if_neg hyl, getClval12_set, if_neg hyc]
    sectors := fun _ _ => rfl
    hash := .inl ⟨rfl, rfl, rfl⟩ }

theorem Chain.takeNext {fat : FatTable} {x : Nat} (h : Chain fat b (l ++ [x]))
    (hc : c ∈ freeClusters fat) :
    Chain (setClval12 (setClval12 fat c 0xfff) x c) b (l ++ [x, c]) := by
  have hlast : lastCluster = 2848 := rfl
  obtain ⟨hrange, hzero⟩ := mem_freeClusters.mp hc
  have hfresh : ∀ y ∈ l ++ [x], y ≠ c := fun y hy hyc => h.ne_zero hy (hyc ▸ hzero)
  have hxc : x ≠ c := hfresh x (by simp)
  have hnodup := h.nodup
  refine h.snoc hrange.1 hrange.2 ?_ ?_ fun y hy => ?_
  · rw [getClval12_set, if_pos rfl]
    omega
  · rw [getClval12_set, if_neg hxc.symm, getClval12_set, if_pos rfl]
  · have hyx : y ≠ x := fun hyx => by
      rw [nodup_append] at hnodup
      exact hnodup.2.2 y hy x (by simp) hyx
    rw [getClval12_set, if_neg hyx, getClval12_set, if_neg (hfresh y (by simp [hy]))]

end parts

/-! ## One block -/

/-- The block of a file that `fat12_vop_write` works on at position `o`. At position 0 of a file that
    is not empty it takes the block behind the first. -/
def blockIndex (o size : Nat) : Nat := if o = 0 ∧ size ≠ 0 then 1 else o / 512

/-- The end of the blocks that a write of `n` bytes at position `o` works on. -/
def writeEnd (o n size : Nat) : Nat := if o = 0 ∧ size ≠ 0 then max n 513 else o + n

/-- There are clusters on the disk for a file with the clusters `l` to reach `n` bytes, or the search
    for one does not look behind the disk. -/
def DiskRoom (fat : FatTable) (l : List Nat) (n : Nat) : Prop :=
  TailUsed fat ∨ n ≤ 512 * (l.length + (freeClusters fat).card)

section block

variable {p : Nat} {s : Fs} {l : List Nat} {c o n cur : Nat}

theorem followCluster_next (h : nextCluster12 s.fat cur < 0xff8) :
    followCluster cur s = some (nextCluster12 s.fat cur, s) := by
  rw [followCluster, get_bind]
  rw [if_neg (by omega)]
  rfl

theorem followCluster_new (h : 0xff8 ≤ nextCluster12 s.fat cur) (hc : c ≠ 0)
    (halloc : allocBlock12 s.fat = (c, setClval12 s.fat c 0xfff)) :
    followCluster cur s = some (c, s.takeNext cur c) := by
  rw [followCluster, get_bind]
  simp only [halloc]
  rw [if_pos h, if_neg hc]
  rfl

theorem clusterFor_empty {cl : Nat} (hp : p ≠ 0)
    (hsize : fsize (s.vnodes p).data = 0) (hrun : firstCluster p s = some (cl, t)) :
    clusterFor p cur s = some (if cl = 0 then none else some cl, t) := by
  rw [clusterFor, get_bind,
    bind_of_some (vnode_eq hp s), if_pos hsize, bind_of_some hrun]
  rfl

theorem clusterFor_more {cl : Nat} (hp : p ≠ 0)
    (hsize : fsize (s.vnodes p).data ≠ 0) (hrun : followCluster cur s = some (cl, t)) :
    clusterFor p cur s =
      some (if 0xff8 ≤ nextCluster12 s.fat cur ∧ cl = 0 then none else some cl, t) := by
  rw [clusterFor, get_bind,
    bind_of_some (vnode_eq hp s), if_neg hsize, bind_of_some hrun]
  rfl

/-- What `clusterFor` does for the file with the clusters `l`: nothing, on a full disk, or it gives
    the cluster `c` of the block with the index `i`. -/
inductive ClusterTaken (p : Nat) (s : Fs) (l : List Nat) (i : Nat) : Option Nat → Fs → Prop where
  | full : freeClusters s.fat = ∅ → l.length ≤ i → ClusterTaken p s l i none s
  | taken {c b : Nat} {t : Fs} {l' : List Nat} : FileGrowth p s t l l' → l'[i]? = some c →
      l'.length = max l.length (i + 1) → t.disk = s.disk →
      Dirent.fsize (t.vnodes p).data = Dirent.fsize (s.vnodes p).data →
      Dirent.startCluster (t.vnodes p).data = b → Chain t.fat b l' →
      ClusterTaken p s l i (some c) t

theorem clusterFor_first (hp : p ≠ 0) (hsize : fsize (s.vnodes p).data = 0)
    (hroom : TailUsed s.fat ∨ (freeClusters s.fat).Nonempty) :
    ∃ r t, clusterFor p cur s = some (r, t) ∧ ClusterTaken p s [] 0 r t := by
  rcases allocBlock12_disk hroom with ⟨h0, hfull⟩ | ⟨c, hc, halloc⟩
  · have hrun : firstCluster p s = some (0, s) := by
      rw [firstCluster, get_bind,
        bind_of_some (vnode_eq hp s)]
      simp only
      rw [if_pos h0]
      rfl
    exact ⟨_, _, clusterFor_empty hp hsize hrun, .full hfull (Nat.le_refl 0)⟩
  · have hlast : lastCluster = 2848 := rfl
    obtain ⟨hrange, -⟩ := mem_freeClusters.mp hc
    have hc0 : c ≠ 0 := by omega
    refine ⟨_, _, clusterFor_empty hp hsize (firstCluster_eq hp hc0 halloc), ?_⟩
    rw [if_neg hc0]
    refine .taken (b := c) (FileGrowth.takeFirst hc) rfl rfl rfl ?_ ?_
      (Chain.single hrange.1 hrange.2 ?_)
    · rw [takeFirst_same]
      exact fsize_setStart
    · rw [takeFirst_same]
      exact startCluster_setStart (by omega) (by omega)
    · exact (getClval12_set _ _ _ _).trans (if_pos rfl)

theorem clusterFor_next (hp : p ≠ 0) (hsize : fsize (s.vnodes p).data ≠ 0)
    (hstart : startCluster (s.vnodes p).data = b) (hchain : Chain s.fat b l)
    (hi : i < l.length) (hroom : TailUsed s.fat ∨ i + 1 < l.length + (freeClusters s.fat).card) :
    ∃ r t, clusterFor p l[i] s = some (r, t) ∧ ClusterTaken p s l (i + 1) r t := by
  have hlast : lastCluster = 2848 := rfl
  have hin := hchain.inside _ (getElem_mem hi)
  by_cases hmore : i + 1 < l.length
  · have hnext : nextCluster12 s.fat (l[i] : Nat) = l[i + 1] := by
      rw [nextCluster12_data hin.1 hin.2, hchain.next_eq hmore]
    have hin' := hchain.inside _ (getElem_mem hmore)
    refine ⟨_, _, clusterFor_more hp hsize (followCluster_next (by omega)), ?_⟩
    rw [if_neg (by omega), hnext]
    exact .taken (FileGrowth.refl p s l) (getElem?_eq_getElem hmore) (by omega) rfl rfl hstart hchain
  · -- the last cluster of the chain
    obtain ⟨l0, x, rfl⟩ : ∃ l0 x, l = l0 ++ [x] :=
      ⟨l.dropLast, l.getLast (ne_nil_of_length_pos (by omega)), (dropLast_append_getLast _).symm⟩
    have hlen : (l0 ++ [x]).length = l0.length + 1 := by simp
    obtain rfl : i = l0.length := by omega
    have hx : (l0 ++ [x])[l0.length] = x := by simp
    rw [hx] at hin ⊢
    have hend : 0xff8 ≤ nextCluster12 s.fat x := by
      rw [nextCluster12_data hin.1 hin.2]
      exact hchain.last
    have hfree : TailUsed s.fat ∨ (freeClusters s.fat).Nonempty :=
      hroom.imp id fun h => Finset.card_pos.mp (by omega)
    rcases allocBlock12_disk hfree with ⟨h0, hfull⟩ | ⟨c, hc, halloc⟩
    · have hrun : followCluster x s = some (0, s) := by
        rw [followCluster, get_bind]
        simp only
        rw [if_pos hend, if_pos h0]
        rfl
      refine ⟨_, _, clusterFor_more hp hsize hrun, ?_⟩
      rw [if_pos ⟨hend, rfl⟩]
      exact .full hfull (by omega)
    · obtain ⟨hrange, -⟩ := mem_freeClusters.mp hc
      have hc0 : c ≠ 0 := by omega
      refine ⟨_, _, clusterFor_more hp hsize (followCluster_new hend hc0 halloc), ?_⟩
      rw [if_neg (by omega)]
      refine .taken (FileGrowth.takeNext hc (by simp)) (by simp) (by simp) rfl rfl hstart ?_
      rw [append_assoc]
      exact hchain.takeNext hc

/-- One block of the file was written: `k` bytes of `buf`, at position `o`, in the block with the index
    `i`. -/
structure BlockWritten (p : Nat) (s t : Fs) (l l' : List Nat) (i o k : Nat) (buf : Bytes) : Prop where
  growth : FileGrowth p s t l l'
  file : FileChain t.fat (t.vnodes p).data l'
  size : Dirent.fsize (t.vnodes p).data = max (Dirent.fsize (s.vnodes p).data) (o + k)
  length : l'.length = max l.length (i + 1)
  block : ∃ c, l'[i]? = some c ∧ (∀ b, b ≠ c + 31 → t.disk b = s.disk b) ∧
    ∀ j, j < 512 → t.disk (c + 31) j =
      if o % 512 ≤ j ∧ j < o % 512 + k then buf (j - o % 512) else s.disk (c + 31) j

theorem BlockWritten.of_taken {u : Fs} {l' : List Nat} {buf data : Bytes} (hs : Healthy s.toVolume)
    (hgrow : FileGrowth p s u l l') (hc : l'[i]? = some c) (hlength : l'.length = max l.length (i + 1))
    (hdisk : u.disk = s.disk)
    (hsize : fsize (u.vnodes p).data = fsize (s.vnodes p).data)
    (hstart : startCluster (u.vnodes p).data = b) (hchain : Chain u.fat b l')
    (hold : fsize (s.vnodes p).data ≤ 512 * l'.length) (hi : o / 512 ≤ i)
    (hk : 0 < k) (hkle : o % 512 + k ≤ 512)
    (hdata : ∀ j, j < 512 → data j =
      if o % 512 ≤ j ∧ j < o % 512 + k then buf (j - o % 512) else s.disk (c + 31) j) :
    BlockWritten p s ((u.setSector (c + 31) data).grown p (o + k)) l l' i o k buf := by
  have hlast : lastCluster = 2848 := rfl
  have hlen := hchain.length_le
  have hmem : c ∈ l' := mem_of_getElem? hc
  have hvn : (u.setSector (c + 31) data).vnodes p = u.vnodes p := rfl
  have hsize' : fsize (((u.setSector (c + 31) data).grown p (o + k)).vnodes p).data =
      max (fsize (s.vnodes p).data) (o + k) := by
    rw [grown_fsize (by omega), hvn, hsize]
  refine ⟨(hgrow.trans (.sector (hgrow.healthy hs) (hchain.inside c hmem).2 hmem data)).trans .grown,
    .inr ⟨?_, b, ?_, ?_, ?_⟩,
    hsize', hlength, c, hc, fun d hd => ?_, fun j hj => ?_⟩
  · omega
  · rw [grown_start, hvn, hstart]
  · rw [grown_fat]
    exact hchain
  · omega
  · rw [grown_disk]
    exact (if_neg hd).trans (congrFun hdisk d)
  · rw [grown_disk]
    exact (congrFun (if_pos rfl) j).trans (hdata j hj)

theorem modify_eq (f : Fs → Fs) (s : Fs) : (modify f : Prog Fs PUnit) s = some ((), f s) := rfl

theorem writeLoop_inside (fuel : Nat) (buf : Bytes) {buff : Bytes} (hp : p ≠ 0) (hn : 0 < n)
    (ho : o % 512 ≠ 0) (hlt : o + k < 4294967296) (hk : k = min (512 - o % 512) n)
    (hcur : clusterAt16 s.fat (o / 512) (startCluster (s.vnodes p).data % 65536).toNat = cur)
    (hread : s.bread cur = some buff) :
    writeLoop p (fuel + 1) n o buf s =
      writeLoop p fuel (n - k : Nat) (o + k : Nat) (buf.skip k)
        ((s.writeCluster cur (buff.copy (o % 512) k buf)).grown p (o + k)) := by
  have hmod : (o : Int).tmod 512 = (o % 512 : Nat) := (Int.ofNat_tmod o 512).symm
  have hdiv : (o : Int).tdiv 512 = (o / 512 : Nat) := (Int.ofNat_tdiv o 512).symm
  have hne : ¬ ((o % 512 : Nat) : Int) = 0 := by omega
  have hmin : min (512 - ((o % 512 : Nat) : Int)) n = k := by omega
  have hleft : (n : Int) - k = (n - k : Nat) := by omega
  rw [writeLoop, if_neg (by omega), get_bind,
    bind_of_some (vnode_eq hp s)]
  simp only [hmod, hdiv, Int.toNat_natCast, hmin, ne_eq, hne, not_false_eq_true, if_true, if_false, hcur,
    hread, hleft, ← Int.natCast_add]
  rw [bind_of_some (modify_eq _ s), bind_of_some (growFile_eq hp hlt)]

theorem writeLoop_boundary (fuel : Nat) (buf : Bytes) {r : Option Nat} (hp : p ≠ 0)
    (hn : 0 < n) (ho : o % 512 = 0) (hlt : o + k < 4294967296) (hk : k = min 512 n)
    (hcur : clusterAt16 s.fat (o / 512 - 1) (startCluster (s.vnodes p).data % 65536).toNat = cur)
    (hrun : clusterFor p cur s = some (r, t)) :
    (r = none → writeLoop p (fuel + 1) n o buf s = some (enoDiskSpace, t)) ∧
      (∀ c, r = some c → n < 512 → t.bread c = none →
        writeLoop p (fuel + 1) n o buf s = some (ediskRead, t)) ∧
      ∀ c buff, r = some c → (n < 512 → t.bread c = some buff) →
        ∃ data : Bytes, (∀ j, j < 512 → data j = if j < k then buf j else buff j) ∧
          writeLoop p (fuel + 1) n o buf s =
            writeLoop p fuel (n - k : Nat) (o + k : Nat) (buf.skip k)
              ((t.writeCluster c data).grown p (o + k)) := by
  have hmod : (o : Int).tmod 512 = 0 := (Int.ofNat_tmod o 512).symm.trans (by omega)
  have hdiv : (o : Int).tdiv 512 = (o / 512 : Nat) := (Int.ofNat_tdiv o 512).symm
  have hpos : ((o / 512 : Nat) - 1 : Int).toNat = o / 512 - 1 := by omega
  rw [writeLoop, if_neg (by omega), get_bind,
    bind_of_some (vnode_eq hp s)]
  simp only [hmod, hdiv, hpos, Int.toNat_natCast, ne_eq, not_true_eq_false, if_true, if_false, hcur]
  rw [bind_of_some hrun]
  refine ⟨?_, ?_, ?_⟩
  · rintro rfl
    rfl
  · rintro c rfl hlt hread
    simp only
    rw [get_bind, if_neg (by omega), hread]
    rfl
  · rintro c buff rfl hread
    simp only
    rw [get_bind]
    by_cases hfull : 512 ≤ n
    · obtain rfl : k = 512 := by omega
      have hleft : (n : Int) - 512 = (n - 512 : Nat) := by omega
      have hnew : (o : Int) + 512 = (o + 512 : Nat) := rfl
      refine ⟨buf, fun j hj => (if_pos hj).symm, ?_⟩
      rw [if_pos (by omega), bind_of_some (modify_eq _ t), hleft, hnew,
        bind_of_some (growFile_eq hp hlt)]
    · obtain rfl : k = n := by omega
      have hnew : (o : Int) + k = (o + k : Nat) := rfl
      refine ⟨buff.copy 0 k buf, fun j _ => ?_, ?_⟩
      · simp [Bytes.copy]
      · rw [if_neg (by omega), hread (by omega)]
        simp only
        rw [bind_of_some (modify_eq _ t), hnew, bind_of_some (growFile_eq hp hlt), Nat.sub_self]
        cases fuel with
        | zero => rfl
        | succ fuel => rfl

theorem FileChain.walk {d : Bytes} (h : FileChain s.fat d l) (hi : i < l.length) :
    clusterAt16 s.fat i (startCluster d % 65536).toNat = l[i] := by
  rcases h with ⟨-, rfl⟩ | ⟨-, c, hc, hchain, -⟩
  · simp at hi
  have hlast : lastCluster = 2848 := rfl
  have hne : l ≠ [] := ne_nil_of_length_pos (by omega)
  have hin := hchain.inside _ (head_mem hne)
  rw [hchain.head_eq hne] at hin
  rw [show (startCluster d % 65536).toNat = c by omega]
  exact hchain.clusterAt16_eq hi

/-- **One step of `fat12_vop_write`**: the disk is full, or one block of the file is written. -/
theorem writeLoop_block (fuel : Nat) (buf : Bytes) (hp : p ≠ 0) (hs : Healthy s.toVolume)
    (hfile : FileChain s.fat (s.vnodes p).data l) (ho : o ≤ fsize (s.vnodes p).data)
    (hn : 0 < n) (hroom : DiskRoom s.fat l (writeEnd o n (fsize (s.vnodes p).data))) :
    (writeLoop p (fuel + 1) n o buf s = some (enoDiskSpace, s) ∧ freeClusters s.fat = ∅ ∧
        l.length ≤ blockIndex o (fsize (s.vnodes p).data)) ∨
      ∃ t l' k, k = min (512 - o % 512) n ∧
        BlockWritten p s t l l' (blockIndex o (fsize (s.vnodes p).data)) o k buf ∧
        writeLoop p (fuel + 1) n o buf s =
          writeLoop p fuel (n - k : Nat) (o + k : Nat) (buf.skip k) t := by
  have hlast : lastCluster = 2848 := rfl
  have hlen := hfile.length_le
  have hsize := hfile.size_le
  by_cases hinside : o % 512 ≠ 0
  · -- the position is inside a block that the file has
    have hi : o / 512 < l.length := by omega
    have hmem : l[o / 512] ∈ l := getElem_mem hi
    have hin := hfile.inside hmem
    obtain ⟨b, hb, hchain⟩ : ∃ b : Nat, startCluster (s.vnodes p).data = b ∧ Chain s.fat b l := by
      rcases hfile with ⟨h0, -⟩ | ⟨-, b, hb, hchain, -⟩
      · omega
      · exact ⟨b, hb, hchain⟩
    have hindex : blockIndex o (fsize (s.vnodes p).data) = o / 512 := by
      rw [blockIndex, if_neg (by omega)]
    have hloop := writeLoop_inside fuel buf hp hn hinside (by omega) rfl
      (hfile.walk hi) (bread_data hs hin.2)
    rw [writeCluster_data hin.2] at hloop
    refine .inr ⟨_, l, _, rfl, ?_, hloop⟩
    rw [hindex]
    refine .of_taken hs (.refl p s l) (getElem?_eq_getElem hi) (by omega) rfl rfl hb hchain hsize
      (Nat.le_refl _) (by omega) (by omega) fun j _ => ?_
    rfl
  · rw [not_not] at hinside
    have htaken : ∃ r t cur, clusterAt16 s.fat (o / 512 - 1)
          (startCluster (s.vnodes p).data % 65536).toNat = cur ∧
        clusterFor p cur s = some (r, t) ∧
        ClusterTaken p s l (blockIndex o (fsize (s.vnodes p).data)) r t := by
      rcases hfile with ⟨h0, rfl⟩ | ⟨hne, b, hb, hchain, hle⟩
      · have hindex : blockIndex o (fsize (s.vnodes p).data) = 0 := by
          rw [blockIndex, if_neg (by omega)]
          omega
        rw [writeEnd, if_neg (by omega)] at hroom
        have hfree : TailUsed s.fat ∨ (freeClusters s.fat).Nonempty :=
          hroom.imp id fun h => Finset.card_pos.mp (by simp at h; omega)
        obtain ⟨r, t, hrun, htaken⟩ := clusterFor_first hp h0 hfree
        rw [hindex]
        exact ⟨r, t, _, rfl, hrun, htaken⟩
      · have hi : o / 512 - 1 < l.length := by omega
        have hindex : blockIndex o (fsize (s.vnodes p).data) = o / 512 - 1 + 1 := by
          unfold blockIndex
          split <;> omega
        have hfree : TailUsed s.fat ∨ o / 512 - 1 + 1 < l.length + (freeClusters s.fat).card := by
          refine hroom.imp id fun h => ?_
          unfold writeEnd at h
          split at h <;> omega
        obtain ⟨r, t, hrun, htaken⟩ := clusterFor_next hp hne hb hchain hi hfree
        rw [hindex]
        exact ⟨r, t, _, FileChain.walk (.inr ⟨hne, b, hb, hchain, hle⟩) hi, hrun, htaken⟩
    obtain ⟨r, t, cur, hcur, hrun, htaken⟩ := htaken
    obtain ⟨hnone, -, hsome⟩ := writeLoop_boundary fuel buf hp hn hinside
      (show o + min 512 n < 4294967296 by omega) rfl hcur hrun
    cases htaken with
    | full hfull hle => exact .inl ⟨hnone rfl, hfull, hle⟩
    | @taken c b _ l' hgrow hc hlength hdisk hfsize hstart hchain =>
      have hcin := hchain.inside c (mem_of_getElem? hc)
      obtain ⟨data, hdata, hloop⟩ := hsome c _ rfl fun _ => bread_data (hgrow.healthy hs) hcin.2
      rw [writeCluster_data hcin.2] at hloop
      refine .inr ⟨_, l', min 512 n, by rw [hinside], ?_, hloop⟩
      refine .of_taken hs hgrow hc hlength hdisk hfsize hstart hchain (by omega) ?_ (by omega) (by omega)
        fun j hj => ?_
      · unfold blockIndex
        split <;> omega
      · rw [hdata j hj, hinside, hdisk]
        simp

end block

/-! ## The whole write -/

section whole

variable {p : Nat} {s t : Fs} {l l' : List Nat} {d d' : Bytes}

theorem FileGrowth.card (h : FileGrowth p s t l l') (hs : FileChain s.fat d l) (ht : FileChain t.fat d' l') :
    l'.length + (freeClusters t.fat).card = l.length + (freeClusters s.fat).card := by
  obtain ⟨r, rfl⟩ := h.grows
  have hnodup := nodup_append.mp ht.nodup
  have hdisj : Disjoint (freeClusters t.fat) r.toFinset := by
    rw [Finset.disjoint_left]
    intro c hc hr
    exact ht.ne_zero (mem_append_right l (mem_toFinset.mp hr)) (mem_freeClusters.mp hc).2
  have hfree : freeClusters s.fat = freeClusters t.fat ∪ r.toFinset := by
    ext c
    rw [Finset.mem_union, mem_toFinset]
    constructor
    · intro hc
      obtain ⟨hrange, h0⟩ := mem_freeClusters.mp hc
      by_cases hmem : c ∈ l ++ r
      · rcases mem_append.mp hmem with hl | hr
        · exact absurd h0 (hs.ne_zero hl)
        · exact .inr hr
      · exact .inl (mem_freeClusters.mpr ⟨hrange, (h.table c hmem).trans h0⟩)
    · rintro (hc | hr)
      · obtain ⟨hrange, h0⟩ := mem_freeClusters.mp hc
        have hmem : c ∉ l ++ r := fun hmem => ht.ne_zero hmem h0
        exact mem_freeClusters.mpr ⟨hrange, (h.table c hmem).symm.trans h0⟩
      · exact h.fresh c (mem_append_right l hr) fun hl => hnodup.2.2 c hl c hr rfl
  rw [hfree, Finset.card_union_of_disjoint hdisj, toFinset_card_of_nodup hnodup.2.1,
    length_append]
  omega

end whole

end AtomOs
