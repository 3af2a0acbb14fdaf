import AtomOs.Fs.DirMap

/-!
# Making a directory

`make_dir` takes a cluster for the new directory, adds its entry to the parent, which may take a second
cluster, and then writes the block with `.` and `..`. If the entry cannot be added the first cluster is
given back, and the table has its old bytes.

What a successful call has made is the structure `DirMade`. The call meets it just if the one or two
clusters it takes (`clustersNeeded`) are on the disk; it is refused, and leaves no trace, if there are not
so many zero values in the table, or if the parent is the root directory and has no slot left
(**`mkdir_all_or_nothing`**, both directions).

In between is the case that goes wrong: `alloc_block12` goes on to values behind the disk when the disk is
full, so `make_dir` succeeds there with a directory whose block exists in the cache only
(**`mkdir_on_full_disk`**).
-/

namespace AtomOs

open Lib Prog Dirent Bytes

/-! ## The new directory's block -/

/-- The block `make_dir` writes, from the new entry and that of the parent. -/
def dirBlock (dent parent : Bytes) : Bytes :=
  (Bytes.zero.copy 0 32 (dent.copy 0 11 (Bytes.ofList (blankTo 11 nameDot)))).copy 32 32
    (parent.copy 0 11 (Bytes.ofList (blankTo 11 nameDotDot)))

section block

variable {dent parent : Bytes} {s : Fs} {name : List Nat} {cl i j : Nat}

theorem dirBlock_dot (h : i < 32) :
    dirBlock dent parent i = (dent.copy 0 11 (ofList (blankTo 11 nameDot))) i := by
  rw [dirBlock, copy_out (by omega), ← Nat.zero_add i, copy_in h, Nat.zero_add]

theorem dirBlock_dotDot (h : i < 32) :
    dirBlock dent parent (32 + i) = (parent.copy 0 11 (ofList (blankTo 11 nameDotDot))) i := by
  rw [dirBlock, copy_in h]

theorem dirBlock_rest (h : 64 ≤ i) : dirBlock dent parent i = 0 := by
  rw [dirBlock, copy_out (by omega), copy_out (by omega)]
  rfl

theorem dirDirent_name (h : i < 11) : dirDirent s name cl i = ofList name i := by
  rw [dirDirent, setFsize_out (by omega), setStart_out (by omega),
    mark_out (by omega), put_ne (by omega), ← Nat.zero_add i, copy_in h, Nat.zero_add]

theorem dirDirent_attrib : dirDirent s name cl 11 = ftypeDir := by
  rw [dirDirent, setFsize_out (by omega), setStart_out (by omega),
    mark_out (by omega), put_same]

theorem dirDirent_start (h : cl < 32768) : startCluster (dirDirent s name cl) = cl := by
  rw [dirDirent, startCluster_setFsize, startCluster_setStart (by omega) (by omega)]

theorem dirDirent_fsize : fsize (dirDirent s name cl) = 0 := by
  rw [dirDirent, fsize_setFsize (by omega)]

end block

/-! ## The table after a failure -/

variable {fat : FatTable} {u : Fs}

theorem setClval12_undo {c : Nat} (h : getClval12 fat c = 0) (i : Int) :
    setClval12 (setClval12 fat c 0xfff) c 0 i % 256 = fat i % 256 := by
  obtain ⟨k, rfl | rfl⟩ := even_or_odd c
  · rw [getClval12_even] at h
    rw [setClval12_even, setClval12_even]
    by_cases h0 : i = 3 * k
    · rw [if_pos h0, h0]
      omega
    · by_cases h1 : i = 3 * k + 1
      · rw [if_neg h0, if_pos h1, if_neg h0, if_pos h1, h1]
        omega
      · rw [if_neg h0, if_neg h1, if_neg h0, if_neg h1]
  · rw [getClval12_odd] at h
    rw [setClval12_odd, setClval12_odd]
    by_cases h1 : i = 3 * k + 1
    · rw [if_pos h1, if_pos h1, h1]
      omega
    · by_cases h2 : i = 3 * k + 2
      · rw [if_neg h1, if_pos h2, h2]
        omega
      · rw [if_neg h1, if_neg h2, if_neg h1, if_neg h2]

/-! ## The result -/

instance instDecidableHasSlot (v : Volume) (cs : List Int) : Decidable (HasSlot v cs) :=
  inferInstanceAs (Decidable (∃ k, k < _ ∧ _))

/-- The clusters that a new directory takes: its own, and one for the parent if no slot is left there. -/
def clustersNeeded (v : Volume) (cs : List Int) : Nat :=
  if HasSlot v cs then 1 else 2

/-- `make_dir` is refused: `alloc_block12`, which also looks behind the disk, does not find the clusters,
    or the parent is the root directory, which cannot grow. -/
def MkdirRefused (s : Fs) (cs : List Int) : Prop :=
  (zeroValues s.fat).card < clustersNeeded s.toVolume cs ∨ (¬ HasSlot s.toVolume cs ∧ ∀ c ∈ cs, c < 2)

/-- Or the clusters are on the disk, and the name is one that an entry in use can have. -/
def MkdirOk (s : Fs) (cs : List Int) (name : List Nat) : Prop :=
  MkdirRefused s cs ∨ (clustersNeeded s.toVolume cs ≤ (freeClusters s.fat).card ∧
    Bytes.ofList name 0 ≠ 0 ∧ Bytes.ofList name 0 ≠ 0xE5)

/-- In `t` the directory at `p` has one more entry, in slot `k`; it is that of a new directory with
    the one cluster `cl`, and nothing else has changed. -/
structure DirMade (s t : Fs) (p : Nat) (name : List Nat) (cs cs' : List Int) (k cl : Nat) : Prop where
  free : cl ∈ freeClusters s.fat
  chain : Chain t.fat cl [cl]
  parent : DirChain t.fat (Dirent.startCluster (s.vnodes p).data) cs'
  fresh : k < 16 * cs.length → Dirent.unused (slot s.toVolume cs k) = true
  entry : SlotSet s.toVolume t.toVolume cs cs' k (dirDirent s name cl)
  used : skipped (slot t.toVolume cs' k) = false
  named : ∀ i, i < 11 → slot t.toVolume cs' k i = Bytes.ofList name i
  dir : Dirent.isDir (slot t.toVolume cs' k) = true
  start : Dirent.startCluster (slot t.toVolume cs' k) = cl
  size : Dirent.fsize (slot t.toVolume cs' k) = 0
  dot : entryName (slot t.toVolume [(cl : Int)] 0) = blankTo 11 nameDot ∧
    Dirent.startCluster (slot t.toVolume [(cl : Int)] 0) = cl
  dotDot : entryName (slot t.toVolume [(cl : Int)] 1) = blankTo 11 nameDotDot ∧
    Dirent.startCluster (slot t.toVolume [(cl : Int)] 1) = Dirent.startCluster (s.vnodes p).data
  empty : ∀ j, 2 ≤ j → j < 16 → ∀ i, i < 32 → slot t.toVolume [(cl : Int)] j i = 0
  fat : (cs' = cs ∧ ∀ z : Nat, z ≠ cl → getClval12 t.fat z = getClval12 s.fat z) ∨
    ∃ c ∈ freeClusters s.fat, c ≠ cl ∧ ∃ last ∈ cs, cs' = cs ++ [(c : Int)] ∧
      ∀ z : Nat, z ≠ cl → z ≠ c → (z : Int) ≠ last → getClval12 t.fat z = getClval12 s.fat z
  disk : ∀ b, b ≠ sectorOf cl → b ≠ sectorOf (cs'.getD (k / 16) 0) → t.disk b = s.disk b
  rest : t = { s with fat := t.fat, disk := t.disk, vnodes := (s.touch p).vnodes }

section make

variable {s t : Fs} {p k cl : Nat} {name : List Nat} {cs cs' : List Int}

theorem DirArea.notMem (h : DirArea s p cs) (h2 : 2 ≤ cl) (h0 : getClval12 s.fat cl = 0) :
    (cl : Int) ∉ cs := fun hmem => h.chain.notMem (h.data hmem (by omega)) h0 hmem

theorem DirArea.take (h : DirArea s p cs) (h2 : 2 ≤ cl) (h0 : getClval12 s.fat cl = 0) :
    DirArea { s with fat := setClval12 s.fat cl 0xfff } p cs := by
  refine ⟨h.nonnull, h.healthy, h.chain.congr fun c hc => ?_, h.nonempty, h.kind⟩
  have hne : c ≠ cl := fun hsame => h.notMem h2 h0 (hsame ▸ hc)
  rw [getClval12_set, if_neg hne]

theorem clustersNeeded_pos (v : Volume) (cs : List Int) : 1 ≤ clustersNeeded v cs := by
  unfold clustersNeeded
  split <;> omega

theorem addRefused_take (hzero : cl ∈ zeroValues s.fat) :
    AddRefused { s with fat := setClval12 s.fat cl 0xfff } cs ↔ MkdirRefused s cs := by
  have hpos := Finset.card_pos.mpr ⟨cl, hzero⟩
  have hempty : zeroValues (setClval12 s.fat cl 0xfff) = ∅ ↔ (zeroValues s.fat).card < 2 := by
    rw [← Finset.card_eq_zero, zeroValues_set, Finset.card_erase_of_mem hzero]
    omega
  rw [AddRefused, MkdirRefused]
  by_cases hslot : HasSlot s.toVolume cs
  · rw [clustersNeeded, if_pos hslot]
    exact iff_of_false (fun h => h.1 hslot) fun h => by
      rcases h with h | h
      · omega
      · exact h.1 hslot
  · rw [clustersNeeded, if_neg hslot, ← hempty]
    exact ⟨fun h => h.2.symm.imp id fun hroot => ⟨hslot, hroot⟩, fun h => ⟨hslot, h.symm.imp And.right id⟩⟩

/-- After it was taken from the disk, the disk has the cluster that the parent may need. -/
theorem diskFor_take (h : clustersNeeded s.toVolume cs ≤ (freeClusters s.fat).card)
    (hfree : cl ∈ freeClusters s.fat) (hslot : ¬ HasSlot s.toVolume cs) :
    (freeClusters (setClval12 s.fat cl 0xfff)).Nonempty := by
  rw [clustersNeeded, if_neg hslot] at h
  refine Finset.card_pos.mp ?_
  rw [freeClusters_set, Finset.card_erase_of_mem hfree]
  omega

theorem makeDir_full (h : (allocBlock12 s.fat).1 = 0) : makeDir p name s = some (enoDiskSpace, s) := by
  rw [makeDir, get_bind]
  simp only
  rw [if_pos h]
  rfl

theorem makeDir_undone {e : Int} (halloc : allocBlock12 s.fat = (cl, fat))
    (hcl : cl ≠ 0) (hadd : addDirEntry p (dirDirent s name cl) { s with fat := fat } = some (e, u))
    (he : e ≠ 1) : makeDir p name s = some (e, { u with fat := setClval12 u.fat cl 0 }) := by
  rw [makeDir, get_bind, halloc]
  simp only
  rw [if_neg hcl, setFat, bind_of_some (modify_eq _ _), bind_of_some hadd, if_neg he]
  rfl

theorem makeDir_done (hp : p ≠ 0) (halloc : allocBlock12 s.fat = (cl, fat))
    (hcl : cl ≠ 0) (hadd : addDirEntry p (dirDirent s name cl) { s with fat := fat } = some (1, u)) :
    makeDir p name s =
      some (1, u.setSector (sectorOf cl) (dirBlock (dirDirent s name cl) (u.vnodes p).data)) := by
  rw [makeDir, get_bind, halloc]
  simp only
  rw [if_neg hcl, setFat, bind_of_some (modify_eq _ _), bind_of_some hadd, if_pos rfl,
    bind_of_some (vnode_eq hp u)]
  rfl

/-- A cluster that the parent got is on the disk, and another one than that of the new directory. -/
theorem parent_clusters (h : DirArea s p cs) (hfree : cl ∈ freeClusters s.fat)
    (hdisk : ¬ HasSlot s.toVolume cs → (freeClusters (setClval12 s.fat cl 0xfff)).Nonempty)
    (hadd : EntryAdded { s with fat := setClval12 s.fat cl 0xfff } u p cs cs' k (dirDirent s name cl)) :
    (∀ c ∈ cs', -12 ≤ c ∧ c ≤ lastCluster) ∧ (cl : Int) ∉ cs' := by
  obtain ⟨⟨h2, -⟩, h0⟩ := mem_freeClusters.mp hfree
  have hlast : lastCluster = 2848 := rfl
  have hvalues := hadd.values hdisk
  constructor
  · rcases hvalues with ⟨rfl, -⟩ | ⟨c, hc, -, -, rfl, -⟩
    · exact h.chain.inside
    · have hrange := (mem_freeClusters.mp hc).1
      exact List.forall_mem_append.mpr ⟨h.chain.inside, List.forall_mem_singleton.mpr (by omega)⟩
  · rcases hvalues with ⟨rfl, -⟩ | ⟨c, hc, -, -, rfl, -⟩
    · exact h.notMem h2 h0
    · rw [freeClusters_set, Finset.mem_erase] at hc
      exact fun hmem => (List.mem_append.mp hmem).elim (h.notMem h2 h0) fun hmem => hc.1
        (by have := List.mem_singleton.mp hmem; omega)

theorem dirMade (h : DirArea s p cs) (hfree : cl ∈ freeClusters s.fat)
    (hname : ofList name 0 ≠ 0 ∧ ofList name 0 ≠ 0xE5)
    (hdisk : ¬ HasSlot s.toVolume cs → (freeClusters (setClval12 s.fat cl 0xfff)).Nonempty)
    (hadd : EntryAdded { s with fat := setClval12 s.fat cl 0xfff } u p cs cs' k (dirDirent s name cl))
    (ht : t = u.setSector (sectorOf cl) (dirBlock (dirDirent s name cl) (u.vnodes p).data)) :
    DirMade s t p name cs cs' k cl := by
  obtain ⟨⟨h2, hle⟩, h0⟩ := mem_freeClusters.mp hfree
  have hlast : lastCluster = 2848 := rfl
  have hvalues := hadd.values hdisk
  obtain ⟨hinside, hnot⟩ := parent_clusters h hfree hdisk hadd
  have hlt := hadd.set.lt
  have hfat : t.fat = u.fat := by rw [ht]; rfl
  -- the block of the new directory is no block of the parent
  have hslot : ∀ m, m < 16 * cs'.length → slot t.toVolume cs' m = slot u.toVolume cs' m := fun m hm => by
    have hmem := mem_clusterOf hm
    rw [ht, slot_setSector, if_neg]
    intro hsector
    have := sectorOf_inj (hadd.row.inside _ hmem) (below_total (by omega)) hsector
    exact hnot (this ▸ hmem)
  have hblock : ∀ j i, j < 16 → slot t.toVolume [(cl : Int)] j i =
      dirBlock (dirDirent s name cl) (u.vnodes p).data (32 * j + i) := fun j i hj => by
    rw [ht, slot_setSector, Nat.div_eq_of_lt hj, Nat.mod_eq_of_lt hj, List.getD_cons_zero, if_pos rfl]
    rfl
  have hnew : SameEntry (dirDirent s name cl) (slot t.toVolume cs' k) := hslot k hlt ▸ hadd.set.new
  have hdot : SameEntry ((dirDirent s name cl).copy 0 11 (ofList (blankTo 11 nameDot)))
      (slot t.toVolume [(cl : Int)] 0) := fun i hi => by
    rw [hblock 0 i (by omega), Nat.mul_zero, Nat.zero_add, dirBlock_dot hi]
  have hdotDot : SameEntry ((u.vnodes p).data.copy 0 11 (ofList (blankTo 11 nameDotDot)))
      (slot t.toVolume [(cl : Int)] 1) := fun i hi => by
    rw [hblock 1 i (by omega), Nat.mul_one, dirBlock_dotDot hi]
  have hvalue : ∀ z : Nat, getClval12 (setClval12 s.fat cl 0xfff) z =
      if z = cl then 0xfff else getClval12 s.fat z := fun z => getClval12_set _ _ _ _
  refine
    { free := hfree
      chain := Chain.single h2 hle ?_
      parent := ⟨hfat ▸ hadd.row.linked, hinside⟩
      fresh := hadd.free
      entry := ⟨hlt, hadd.set.le, hnew, fun m hm hmk => ?_, fun m hm hm' hmk => ?_⟩
      used := ?_
      named := fun i hi => (hnew i (by omega)).trans (dirDirent_name hi)
      dir := ?_
      start := ?_
      size := ?_
      dot := ⟨?_, ?_⟩
      dotDot := ⟨?_, ?_⟩
      empty := fun j hj hj' i hi => ?_
      fat := ?_
      disk := fun b hb hb' => ?_
      rest := ?_ }
  · rw [hfat]
    rcases hvalues with ⟨-, hsame⟩ | ⟨c, hc, last, hmem, rfl, hsame⟩
    · rw [hsame, hvalue, if_pos rfl]
    rw [hsame cl, hvalue, if_pos rfl]
    · rintro rfl
      exact hnot (List.mem_append_right _ (List.mem_singleton_self _))
    · rintro rfl
      exact hnot (List.mem_append_left _ hmem)
  · have hle := hadd.set.le
    rw [hslot m (by omega)]
    exact hadd.set.old m hm hmk
  · rw [hslot m hm']
    exact hadd.set.rest m hm hm' hmk
  · rw [hnew.skipped, skipped, unused, dirDirent_name (by omega), dirDirent_attrib]
    simp [hname.1, hname.2, ftypeDir]
  · rw [isDir_congr fun i hi => hnew i (by omega), isDir, attrib, dirDirent_attrib]
    rfl
  · rw [startCluster_congr fun i _ hi => hnew i hi, dirDirent_start (by omega)]
  · rw [fsize_congr fun i _ hi => hnew i hi, dirDirent_fsize]
  · rw [hdot.entryName, entryName_rename]
    decide
  · rw [startCluster_congr fun i _ hi => hdot i hi, startCluster_rename, dirDirent_start (by omega)]
  · rw [hdotDot.entryName, entryName_rename]
    decide
  · rw [startCluster_congr fun i _ hi => hdotDot i hi, startCluster_rename, hadd.start]
  · rw [hblock j i hj', dirBlock_rest (by omega)]
  · rw [hfat]
    rcases hvalues with ⟨hcs, hsame⟩ | ⟨c, hc, last, hmem, hcs, hsame⟩
    · exact .inl ⟨hcs, fun z hz => by rw [hsame, hvalue, if_neg hz]⟩
    · rw [freeClusters_set, Finset.mem_erase] at hc
      exact .inr ⟨c, hc.2, hc.1, last, hmem, hcs, fun z hz hzc hzlast => by
        rw [hsame z hzc hzlast, hvalue, if_neg hz]⟩
  · rw [ht]
    exact (if_neg hb).trans (hadd.disk b hb')
  · -- all blocks that were written could be read before
    have hsame : u.unreadable = s.unreadable := by
      rw [hadd.cached]
      funext b
      split
      · rename_i hb
        rw [hb, readable_dir h.healthy (hinside _ (mem_clusterOf hlt))]
      · rfl
    have hread : u.unreadable (sectorOf cl) = false := by
      rw [hsame]
      exact readable_dir h.healthy (by omega)
    rw [ht, setSector_of_readable hread, hadd.rest, hsame]
    rfl

theorem makeDir_refused (h : DirArea s p cs) (hno : MkdirRefused s cs) (name : List Nat) :
    ∃ err t, makeDir p name s = some (err, t) ∧ err ≠ 1 ∧ t = { s with fat := t.fat } ∧
      ∀ i, t.fat i % 256 = s.fat i % 256 := by
  rcases allocBlock12_zeroValues s.fat with ⟨hfull, -⟩ | ⟨cl, hzero, hcl, halloc⟩
  · exact ⟨_, s, makeDir_full hfull, by decide, rfl, fun _ => rfl⟩
  obtain ⟨⟨h2, -⟩, h0⟩ := mem_zeroValues.mp hzero
  rcases (h.take h2 h0).add_cases (dirDirent s name cl) with ⟨-, e, he, hadd⟩ | ⟨hyes, -⟩
  · exact ⟨e, _, makeDir_undone halloc hcl hadd (by omega), by omega, rfl, setClval12_undo h0⟩
  · exact absurd ((addRefused_take hzero).mpr hno) hyes

/-- A `make_dir` that is not refused succeeds: it adds an entry that names the cluster it took. -/
theorem makeDir_succeeds (h : DirArea s p cs) (hyes : ¬ MkdirRefused s cs) (name : List Nat) :
    ∃ (cl : Nat) (u : Fs) (cs' : List Int) (k : Nat), allocBlock12 s.fat = (cl, setClval12 s.fat cl 0xfff) ∧
      EntryAdded { s with fat := setClval12 s.fat cl 0xfff } u p cs cs' k (dirDirent s name cl) ∧
      makeDir p name s =
        some (1, u.setSector (sectorOf cl) (dirBlock (dirDirent s name cl) (u.vnodes p).data)) := by
  rcases allocBlock12_zeroValues s.fat with ⟨-, hempty⟩ | ⟨cl, hzero, hcl, halloc⟩
  · have hneeded := clustersNeeded_pos s.toVolume cs
    refine absurd (.inl ?_) hyes
    rw [hempty, Finset.card_empty]
    omega
  obtain ⟨⟨h2, -⟩, h0⟩ := mem_zeroValues.mp hzero
  rcases (h.take h2 h0).add_cases (dirDirent s name cl) with ⟨hno, -⟩ | ⟨-, u, cs', k, hadd, hset⟩
  · exact absurd ((addRefused_take hzero).mp hno) hyes
  · exact ⟨cl, u, cs', k, halloc, hset, makeDir_done h.nonnull halloc hcl hadd⟩

/-- A directory that was made took its clusters from the disk, and its name is not that of a free slot. -/
theorem DirMade.ok (h : DirMade s t p name cs cs' k cl) : MkdirOk s cs name := by
  have hused := h.used
  rw [skipped, unused, h.named 0 (by omega)] at hused
  refine .inr ⟨?_, fun h0 => ?_, fun hE5 => ?_⟩
  · by_cases hslot : HasSlot s.toVolume cs
    · rw [clustersNeeded, if_pos hslot]
      exact Finset.card_pos.mpr ⟨cl, h.free⟩
    · rw [clustersNeeded, if_neg hslot]
      rcases h.fat with ⟨rfl, -⟩ | ⟨c, hc, hne, -⟩
      · exact absurd ⟨k, h.entry.lt, h.fresh h.entry.lt⟩ hslot
      · exact Finset.one_lt_card.mpr ⟨c, hc, cl, h.free, hne⟩
  · simp [h0] at hused
  · simp [hE5] at hused

end make

/-- **When mkdir is all or nothing**: if `make_dir` fails, the table has the bytes it had and nothing else
    has changed; if it succeeds, the parent has one more entry, for a directory of one cluster with
    `.`, `..` and 14 empty slots, and everything else is as it was. That is so just if the call is refused,
    or the clusters it needs are free on the disk and the name does not mark a free slot. -/
theorem mkdir_all_or_nothing (s : Fs) (p : Nat) (cs : List Int) (name : List Nat) (h : DirArea s p cs) :
    (∃ err t, makeDir p name s = some (err, t) ∧
      (err ≠ 1 → t = { s with fat := t.fat } ∧ ∀ i, t.fat i % 256 = s.fat i % 256) ∧
      (err = 1 → ∃ cs' k cl, DirMade s t p name cs cs' k cl)) ↔ MkdirOk s cs name := by
  by_cases hno : MkdirRefused s cs
  · obtain ⟨err, t, hrun, herr, hsame⟩ := makeDir_refused h hno name
    exact iff_of_true ⟨err, t, hrun, fun _ => hsame, fun h => absurd h herr⟩ (.inl hno)
  obtain ⟨cl, u, cs', k, halloc, hset, hrun⟩ := makeDir_succeeds h hno name
  constructor
  · rintro ⟨_, _, hrun', -, hmade⟩
    cases hrun.symm.trans hrun'
    obtain ⟨cs', k, cl, hmade⟩ := hmade rfl
    exact hmade.ok
  · intro hok
    obtain ⟨hcard, h0, hE5⟩ := hok.resolve_left hno
    refine ⟨1, _, hrun, fun h => absurd rfl h, fun _ => ?_⟩
    have hneeded := clustersNeeded_pos s.toVolume cs
    have hdisk : (freeClusters s.fat).Nonempty := Finset.card_pos.mp (by omega)
    rcases allocBlock12_disk (.inr hdisk) with ⟨-, hempty⟩ | ⟨c, hfree, halloc'⟩
    · exact absurd hempty hdisk.ne_empty
    obtain rfl : c = cl := congrArg Prod.fst (halloc'.symm.trans halloc)
    exact ⟨cs', k, c, dirMade h hfree ⟨h0, hE5⟩ (diskFor_take hcard hfree) hset rfl⟩

theorem mkdir_all_or_nothing_twoClusters : ∃ t cs' k cl,
    makeDir 2 (blankTo 11 [66]) twoClusters = some (1, t) ∧
      DirMade twoClusters t 2 (blankTo 11 [66]) [2, 3] cs' k cl := by
  have hfree : 4 ∈ freeClusters twoClusters.fat := mem_freeClusters.mpr (by decide +kernel)
  have hslot : HasSlot twoClusters.toVolume [2, 3] := ⟨2, by decide, by decide +kernel⟩
  have hneeded : clustersNeeded twoClusters.toVolume [2, 3] = 1 := if_pos hslot
  obtain ⟨err, t, hrun, -, hdone⟩ := (mkdir_all_or_nothing twoClusters 2 [2, 3] (blankTo 11 [66])
    twoClusters_dirAt.area).mpr
    (.inr ⟨hneeded ▸ Finset.card_pos.mpr ⟨4, hfree⟩, by decide, by decide⟩)
  have hobs : (makeDir 2 (blankTo 11 [66]) twoClusters).map (·.1) = some 1 := by decide +kernel
  rw [hrun, Option.map_some, Option.some.injEq] at hobs
  obtain ⟨cs', k, cl, hmade⟩ := hdone hobs
  have herr : err = 1 := hobs
  exact ⟨t, cs', k, cl, herr ▸ hrun, hmade⟩

/-- On a full disk `make_dir` succeeds. The directory it has made is one of no free cluster; its block
    stays in the cache and cannot be written to the disk. -/
theorem mkdir_on_full_disk : ∃ s t p cs name, DirArea s p cs ∧ freeClusters s.fat = ∅ ∧
    makeDir p name s = some (1, t) ∧ Dirent.startCluster (slot t.toVolume cs 0) = 2849 ∧
    t.faulty (sectorOf 2849) = true ∧ ∀ cs' k cl, ¬ DirMade s t p name cs cs' k cl := by
  obtain ⟨⟨_, t⟩, hrun, rfl, hstart, hfaulty⟩ :
      ∃ r ∈ makeDir 1 (blankTo 11 [68]) (mountroot fullTable fun _ => zero), r.1 = 1 ∧
        startCluster (slot r.2.toVolume rootClusters 0) = 2849 ∧ r.2.faulty (sectorOf 2849) = true := by
    decide +kernel
  have hempty : freeClusters (mountroot fullTable fun _ => zero).fat = ∅ := by
    -- alloc_block12 takes the first free cluster, and that one is behind the disk
    have halloc : (allocBlock12 fullTable).1 = 2849 := by decide +kernel
    refine Finset.eq_empty_of_forall_notMem fun c hc => ?_
    obtain ⟨⟨h2, hle⟩, hzero⟩ := mem_freeClusters.mp hc
    have hlast : lastCluster = 2848 := rfl
    have hfull : fullTable = (mountroot fullTable fun _ => zero).fat := rfl
    rcases allocBlock12_cases fullTable with ⟨h0, -⟩ | ⟨b, -, -, -, hfirst, heq⟩
    · omega
    · rw [heq] at halloc
      exact hfirst c h2 (by omega) (hfull ▸ hzero)
  refine ⟨_, t, 1, rootClusters, _, ⟨by decide, fun _ => rfl, ?_, by decide, .inl (by decide)⟩,
    hempty, hrun, hstart, hfaulty, fun cs' k cl hmade => ?_⟩
  · have hroot : startCluster ((mountroot fullTable fun _ => zero).vnodes 1).data = -12 := by
      decide
    exact dirChain_root _
  · have hfree := hmade.free
    rw [hempty] at hfree
    exact Finset.notMem_empty cl hfree

end AtomOs
