import AtomOs.Fs.Directory

/-!
# Adding and deleting directory entries

What `add_dir_entry` and `delete_dir_entry` do to a directory, as one equation each.

`add_dir_entry` overwrites the first slot that is not in use; if there is none, a subdirectory gets
a new cluster, whose other slots are empty (**`addDirEntry_eq`**). `delete_dir_entry` marks the first
slot with the name; a cluster of a subdirectory that holds no more entries leaves the chain
(**`deleteDirEntry_eq`**). `delete_cluster_from_chain` looks for the predecessor of that cluster with
a loop that has no other end, so what matters is that there is one (**`deleteClusterFromChain_eq`**).
-/

namespace AtomOs

open Lib Prog List Dirent Bytes

/-! ## States -/

/-- The state after the directory's own entry was marked as changed. -/
def Fs.touch (s : Fs) (p : Nat) : Fs :=
  s.setVnode p { s.vnodes p with
    data := Dirent.mark (s.vnodes p).data s.time s.date, changed := true }

/-- The state after a new cluster, with one entry, was put behind the last one. -/
def Fs.extendDir (s : Fs) (last : Int) (dent : Bytes) : Fs :=
  { s with fat := setClval12 (allocBlock12 s.fat).2 last (allocBlock12 s.fat).1 }.setSector
    (sectorOf (allocBlock12 s.fat).1) (Bytes.zero.copy 0 32 dent)

/-- The state after slot `k` of a directory was marked as deleted. -/
def Fs.eraseSlot (s : Fs) (cs : List Int) (k : Nat) : Fs :=
  s.setSector (sectorOf (cs.getD (k / 16) 0))
    ((s.disk (sectorOf (cs.getD (k / 16) 0))).put (32 * (k % 16)) 0xE5)

/-- The state after cluster `c` left a directory, and the buffer of its block was thrown away. -/
def Fs.dropCluster (s : Fs) (fat : FatTable) (c : Int) : Fs :=
  { s with fat := fat }.dropSector (sectorOf c)

/-- The deletion of slot `k` leaves its cluster without entries, and it is a cluster that can go. -/
def Emptied (v : Volume) (cs : List Int) (k : Nat) : Prop :=
  2 ≤ cs.getD (k / 16) 0 ∧
    ∀ j, j < 16 → j ≠ k % 16 → Dirent.unused (slot v cs (16 * (k / 16) + j)) = true

instance (v : Volume) (cs : List Int) (k : Nat) : Decidable (Emptied v cs k) :=
  inferInstanceAs (Decidable (_ ∧ _))

section touch

variable {s : Fs} {p q : Nat}

theorem markChanged_eq (hp : p ≠ 0) (s : Fs) : markChanged p s = some ((), s.touch p) := by
  rw [markChanged, get_bind,
    bind_of_some (vnode_eq hp s)]
  rfl

theorem touch_same : (s.touch p).vnodes p =
    { s.vnodes p with data := mark (s.vnodes p).data s.time s.date, changed := true } := if_pos rfl

theorem touch_ne (h : q ≠ p) : (s.touch p).vnodes q = s.vnodes q := if_neg h

@[simp] theorem startCluster_touch :
    startCluster ((s.touch p).vnodes q).data = startCluster (s.vnodes q).data := by
  by_cases h : q = p
  · subst h
    rw [touch_same, startCluster_mark]
  · rw [touch_ne h]

end touch

/-! ## Adding -/

variable {fuel i : Nat} {cur : Int}

section add

variable {s : Fs} {p : Nat} {dent : Bytes}

/-- What `add_dir_entry` does when all slots are in use. -/
def appendEntry (s : Fs) (p : Nat) (last : Int) (dent : Bytes) : Int × Fs :=
  if 2 ≤ last then
    if (allocBlock12 s.fat).1 = 0 then (enoDiskSpace, s) else (1, (s.extendDir last dent).touch p)
  else (edirFull, s)

theorem addDirEntryFrom_eq (hp : p ≠ 0) (hv : Healthy s.toVolume) (dent : Bytes) {cs : List Int}
    (hchain : DirChain s.fat cur cs) (hne : cs ≠ [])
    (hfuel : cs.length ≤ fuel) : addDirEntryFrom p dent fuel cur s =
      match firstFrom (fun k => unused (slot s.toVolume cs k)) 0 (16 * cs.length) with
      | some k => some (1, (s.setSlot cs k dent).touch p)
      | none => some (appendEntry s p (cs.getLast hne) dent) := by
  refine scanChain_eq (P := unused) (addDirEntryFrom p dent · · s)
    (fun cs k => some (1, (s.setSlot cs k dent).touch p)) (fun c => some (appendEntry s p c dent))
    (fun fuel cur cs hin => ?_) (fun c cs k => ?_) hchain hne hfuel
  · rw [addDirEntryFrom, get_bind, bread_dir hv hin]
    simp only
    rw [findSlot_eq]
    cases hblock : firstFrom (fun k => unused ((s.disk (sectorOf cur)).skip (32 * k))) 0 16 with
    | some k =>
      simp only [Option.map_some]
      rw [setSlot_head (firstFrom_eq_some.mp hblock).2.1, bind_of_some (modify_eq _ _),
        bind_of_some (markChanged_eq hp _)]
      rfl
    | none =>
      simp only [Option.map_none]
      rw [ite_apply]
      refine if_congr Iff.rfl ?_ rfl
      rw [appendEntry]
      by_cases hdata : 2 ≤ cur
      · rw [if_pos hdata, if_pos hdata]
        by_cases hfull : (allocBlock12 s.fat).1 = 0
        · rw [if_pos hfull, if_pos hfull]
          rfl
        · rw [if_neg hfull, if_neg hfull]
          rw [setFat, bind_of_some (modify_eq _ _), bind_of_some (modify_eq _ _),
            bind_of_some (markChanged_eq hp _)]
          rfl
      · rw [if_neg hdata, if_neg hdata]
        rfl
  · rw [setSlot_tail]

/-- **`add_dir_entry`** overwrites the first slot that is not in use, or adds a cluster. -/
theorem addDirEntry_eq {cs : List Int} (hp : p ≠ 0) (hv : Healthy s.toVolume)
    (hchain : DirChain s.fat (startCluster (s.vnodes p).data) cs) (hne : cs ≠ []) :
    addDirEntry p dent s =
      match firstFrom (fun k => unused (slot s.toVolume cs k)) 0 (16 * cs.length) with
      | some k => some (1, (s.setSlot cs k dent).touch p)
      | none => some (appendEntry s p (cs.getLast hne) dent) := by
  have hlen := hchain.length_le
  rw [addDirEntry, bind_of_some (vnode_eq hp s)]
  exact addDirEntryFrom_eq hp hv dent hchain hne (by rw [chainFuel]; omega)

end add

/-! ## Deleting -/

section delete

variable {s : Fs} {v : Volume} {p : Nat} {name b : Bytes} {cs : List Int} {c : Int} {j k : Nat}

theorem skip_put_same : ((b.put (32 * j) 0xE5).skip (32 * j)) 0 = 0xE5 := by
  rw [skip, Nat.add_zero, put_same]

theorem skip_put_ne {m : Nat} (h : i ≠ j) (hm : m < 32) :
    ((b.put (32 * j) 0xE5).skip (32 * i)) m = (b.skip (32 * i)) m := by
  rw [skip, skip, put_ne (by omega)]

/-- The second scan of `delete_dir_entry`: are all slots of the block unused now? -/
theorem findSlot_put_eq_none (hj : j < 16) :
    findSlot (fun d => !unused d) (b.put (32 * j) 0xE5) = none ↔
      ∀ i, i < 16 → i ≠ j → unused (b.skip (32 * i)) = true := by
  rw [findSlot_eq, Option.map_eq_none_iff, firstFrom_eq_none]
  have hiff : ∀ i, i ≠ j → unused ((b.put (32 * j) 0xE5).skip (32 * i)) =
      unused (b.skip (32 * i)) := fun i hne => by
    rw [unused, unused, skip_put_ne hne (by omega)]
  constructor
  · intro h i hi hne
    rw [← hiff i hne]
    simpa using h i (Nat.zero_le i) hi
  · intro h i _ hi
    by_cases hne : i = j
    · subst hne
      rw [unused, skip_put_same]
      rfl
    · rw [hiff i hne, h i hi hne]
      rfl

theorem emptied_head (hk : k < 16) : Emptied v (c :: cs) k ↔
    2 ≤ c ∧ findSlot (fun d => !unused d) ((v.disk (sectorOf c)).put (32 * k) 0xE5) = none := by
  rw [Emptied, findSlot_put_eq_none hk, Nat.div_eq_of_lt hk, Nat.mod_eq_of_lt hk]
  refine and_congr Iff.rfl (forall_congr' fun j => forall_congr' fun hj => ?_)
  rw [Nat.mul_zero, Nat.zero_add, slot_head hj]

theorem emptied_tail : Emptied v (c :: cs) (k + 16) ↔ Emptied v cs k := by
  rw [Emptied, Emptied, Nat.add_div_right _ (by decide), Nat.add_mod_right]
  refine and_congr Iff.rfl (forall_congr' fun j => forall_congr' fun hj => ?_)
  rw [show 16 * (k / 16 + 1) + j = 16 * (k / 16) + j + 16 by omega, slot_tail]

theorem eraseSlot_head (h : k < 16) : s.eraseSlot (c :: cs) k =
    s.setSector (sectorOf c) ((s.disk (sectorOf c)).put (32 * k) 0xE5) := by
  rw [Fs.eraseSlot, Nat.div_eq_of_lt h, Nat.mod_eq_of_lt h]
  rfl

theorem eraseSlot_tail : s.eraseSlot (c :: cs) (k + 16) = s.eraseSlot cs k := by
  rw [Fs.eraseSlot, Fs.eraseSlot, Nat.add_div_right _ (by decide), Nat.add_mod_right]
  rfl

/-- What `delete_dir_entry` does to the slot it finds. -/
def eraseEntry (s : Fs) (p : Nat) (cs : List Int) (k : Nat) : Option (Int × Fs) :=
  if Emptied s.toVolume cs k then
    (deleteClusterFromChain s.fat (Dirent.startCluster (s.vnodes p).data) (cs.getD (k / 16) 0)).map
      fun fat => (1, (s.dropCluster fat (cs.getD (k / 16) 0)).touch p)
  else some (1, (s.eraseSlot cs k).touch p)

theorem eraseEntry_tail : eraseEntry s p (c :: cs) (k + 16) = eraseEntry s p cs k := by
  rw [eraseEntry, eraseEntry, eraseSlot_tail, Nat.add_div_right _ (by decide), getD_cons_succ]
  exact if_congr emptied_tail rfl rfl

theorem deleteDirEntryFrom_eq (hp : p ≠ 0) (hv : Healthy s.toVolume) (name : Bytes) {cs : List Int}
    (hchain : DirChain s.fat cur cs) (hne : cs ≠ [])
    (hfuel : cs.length ≤ fuel) : deleteDirEntryFrom p name fuel cur s =
      match firstFrom (fun k => sameName (slot s.toVolume cs k) name) 0 (16 * cs.length) with
      | some k => eraseEntry s p cs k
      | none => some (edirEntryNotFound, s) := by
  refine scanChain_eq (P := fun d => sameName d name) (deleteDirEntryFrom p name · · s)
    (eraseEntry s p) (fun _ => some (edirEntryNotFound, s)) (fun fuel cur cs hin => ?_)
    (fun c cs k => eraseEntry_tail) hchain hne hfuel
  rw [deleteDirEntryFrom, get_bind, bread_dir hv hin]
  simp only
  rw [findSlot_eq]
  cases hblock : firstFrom (fun k => sameName ((s.disk (sectorOf cur)).skip (32 * k)) name) 0 16 with
  | none => exact ite_apply _ _ _ s
  | some k =>
    have hk := (firstFrom_eq_some.mp hblock).2.1
    simp only [Option.map_some]
    rw [eraseEntry, eraseSlot_head hk, Nat.div_eq_of_lt hk, getD_cons_zero]
    by_cases hempty : Emptied s.toVolume (cur :: cs) k
    · rw [if_pos hempty, if_pos ((emptied_head hk).mp hempty), bind_of_some (vnode_eq hp s)]
      cases hfat : deleteClusterFromChain s.fat (startCluster (s.vnodes p).data) cur with
      | none => rfl
      | some fat =>
        simp only [Option.map_some]
        rw [setFat, bind_of_some (modify_eq _ _), bind_of_some (modify_eq _ _),
          bind_of_some (markChanged_eq hp _)]
        rfl
    · rw [if_neg hempty, if_neg fun h => hempty ((emptied_head hk).mpr h),
        bind_of_some (modify_eq _ _), bind_of_some (markChanged_eq hp _)]
      rfl

/-- **`delete_dir_entry`** marks the first slot with the name, or takes its cluster away. -/
theorem deleteDirEntry_eq (hp : p ≠ 0) (hv : Healthy s.toVolume)
    (hchain : DirChain s.fat (startCluster (s.vnodes p).data) cs) (hne : cs ≠ []) :
    deleteDirEntry p name s =
      match firstFrom (fun k => sameName (slot s.toVolume cs k) name) 0 (16 * cs.length) with
      | some k => eraseEntry s p cs k
      | none => some (edirEntryNotFound, s) := by
  have hlen := hchain.length_le
  rw [deleteDirEntry, bind_of_some (vnode_eq hp s)]
  exact deleteDirEntryFrom_eq hp hv name hchain hne (by rw [chainFuel]; omega)

end delete

/-! ## The chain of clusters -/

section chain

variable {fat : FatTable} {start c prev : Int} {a b cs : List Int} {cl : Nat}

theorem DirChain.notMem (h : DirChain fat start cs) (hdata : ∀ x ∈ cs, 2 ≤ x)
    (hfree : getClval12 fat cl = 0) : (cl : Int) ∉ cs := fun hmem => by
  have h2 := hdata _ hmem
  have hlt := below_total (h.inside _ hmem)
  have hstep := h.step_ne_zero hdata hmem
  rw [stepCluster_data (by omega) (by omega), hfree] at hstep
  exact hstep rfl

theorem DirChain.extend (h : DirChain fat start (a ++ [prev])) (hdata : ∀ x ∈ a ++ [prev], 2 ≤ x)
    (h2 : 2 ≤ cl) (hlt : cl < totalSect) (hfree : getClval12 fat cl = 0) :
    Linked (stepCluster (setClval12 (setClval12 fat cl 0xfff) prev cl)) (fun c => 0xff8 ≤ c) start
      (a ++ [prev] ++ [(cl : Int)]) := by
  have htotal : totalSect = 2880 := rfl
  have hmem : prev ∈ a ++ [prev] := by simp
  have hprev := hdata prev hmem
  have hin := fun z hz => (below_total (h.inside z hz)).2
  have hnew : ∀ x ∈ a ++ [prev], x ≠ cl := fun x hx hxc => h.notMem hdata hfree (hxc ▸ hx)
  have hstep : stepCluster (setClval12 (setClval12 fat cl 0xfff) prev cl) prev = cl := by
    rw [stepCluster_set _ hprev hprev (hin prev hmem), if_pos rfl, Nat.mod_eq_of_lt (by omega)]
  have hend : stepCluster (setClval12 (setClval12 fat cl 0xfff) prev cl) cl = 0xfff := by
    rw [stepCluster_set _ hprev (by omega) (by omega), if_neg fun h => hnew prev hmem h.symm,
      stepCluster_set _ (by omega) (by omega) (by omega), if_pos rfl]
    rfl
  rw [append_assoc, singleton_append]
  refine h.linked.splice (fun z hz => ?_) ⟨hstep, by omega, ?_⟩
  · have hz' : z ∈ a ++ [prev] := mem_append_left _ hz
    have hzprev : z ≠ prev := (nodup_append.mp h.nodup).2.2 z hz prev (mem_singleton_self _)
    rw [stepCluster_set _ hprev (hdata z hz') (hin z hz'), if_neg hzprev,
      stepCluster_set _ (by omega) (hdata z hz') (hin z hz'), if_neg (hnew z hz')]
  · change 0xff8 ≤ stepCluster _ _
    rw [hend]
    decide

/-- The walk of `delete_cluster_from_chain` comes to the predecessor. -/
theorem findBefore_eq : ∀ {a : List Int} {fuel x : Nat}, DirChain fat x (a ++ prev :: c :: b) →
    (∀ y ∈ a ++ prev :: c :: b, 2 ≤ y) → a.length < fuel → findBefore fat c fuel x = some prev.toNat
  | _, 0, _, _, _, hfuel => absurd hfuel (Nat.not_lt_zero _)
  | [], fuel + 1, x, h, hdata, _ => by
    obtain rfl : (x : Int) = prev := h.linked.1
    have hx := hdata x (by simp)
    have hin := h.inside x (by simp)
    have hlt := below_total hin
    have hnext : (nextCluster12 fat x : Int) = c := by
      rw [nextCluster12_data (by omega) (by omega), ← stepCluster_data (by omega) (by omega)]
      exact h.tail.linked.1
    rw [findBefore, if_pos hnext, Int.toNat_natCast]
  | y :: a, fuel + 1, x, h, hdata, hfuel => by
    obtain rfl : (x : Int) = y := h.linked.1
    have hx := hdata x (by simp)
    have hin := h.inside x (by simp)
    have hlt := below_total hin
    have hnext : (nextCluster12 fat x : Int) = stepCluster fat x := by
      rw [nextCluster12_data (by omega) (by omega), ← stepCluster_data (by omega) (by omega)]
    have htail : DirChain fat (nextCluster12 fat x) (a ++ prev :: c :: b) := by
      rw [hnext]
      exact h.tail
    -- the successor is not yet the cluster sought, which comes later in the chain
    have hne : ¬ (nextCluster12 fat x : Int) = c := fun hc => by
      have hrest : Linked (stepCluster fat) (fun z => 0xff8 ≤ z) c (c :: b) := by
        have hlinked := htail.linked
        rw [append_cons] at hlinked
        exact hlinked.drop
      rw [hc] at htail
      have hlen := congrArg List.length (htail.linked.unique hrest)
      simp at hlen
      omega
    rw [findBefore, if_neg hne]
    exact findBefore_eq htail (forall_mem_cons.mp hdata).2
      (Nat.lt_of_succ_lt_succ hfuel)

section

variable (h : DirChain fat start (a ++ prev :: c :: b)) (hdata : ∀ x ∈ a ++ prev :: c :: b, 2 ≤ x)
include h hdata

/-- **`delete_cluster_from_chain`** ends if the cluster has a predecessor, and closes the gap. -/
theorem deleteClusterFromChain_eq : deleteClusterFromChain fat start c =
      some (setClval12 (setClval12 fat prev (nextCluster12 fat c)) c 0) := by
  have hlast : lastCluster = 2848 := rfl
  have hlen := h.length_le
  have hc := hdata c (by simp)
  have hprev := hdata prev (by simp)
  -- the chain begins with a data cluster
  have hstart : 2 ≤ start ∧ start ≤ lastCluster := by
    rcases h.linked.stop_or_mem with hstop | hmem
    · have : a ++ prev :: c :: b = [] := h.linked.unique hstop
      simp at this
    · exact ⟨hdata start hmem, (h.inside start hmem).2⟩
  obtain ⟨x, rfl⟩ : ∃ x : Nat, start = x := ⟨start.toNat, by omega⟩
  have hcast : ((x : Int) % 65536).toNat = x := by omega
  simp only [length_append, length_cons] at hlen
  rw [deleteClusterFromChain, if_neg (by omega), hcast,
    findBefore_eq h hdata (by rw [chainFuel]; omega)]
  simp only [Option.map_some, Option.bind_eq_bind, Option.bind_some, Option.pure_def,
    Int.toNat_of_nonneg (show 0 ≤ prev by omega)]

theorem DirChain.unlink :
    DirChain (setClval12 (setClval12 fat prev (nextCluster12 fat c)) c 0) start (a ++ prev :: b) := by
  have hmem : ∀ x ∈ a ++ prev :: b, x ∈ a ++ prev :: c :: b := fun x hx => by
    simp only [mem_append, mem_cons] at hx ⊢
    tauto
  have hc := hdata c (by simp)
  have hcin := h.inside c (by simp)
  have hnodup := h.nodup
  have hstep : ∀ x ∈ a ++ prev :: b, stepCluster (setClval12 (setClval12 fat prev (nextCluster12 fat c)) c 0) x =
      if x = prev then stepCluster fat c else stepCluster fat x := fun x hx => by
    have hxc : x ≠ c := by
      rintro rfl
      rw [nodup_append] at hnodup
      simp only [mem_append, mem_cons] at hx
      have h1 := hnodup.2.1
      have h2 := hnodup.2.2 x
      simp at h1 h2
      tauto
    have hx' := hdata x (hmem x hx)
    have hxlt := (below_total (h.inside x (hmem x hx))).2
    have hclt := below_total hcin
    rw [stepCluster_set _ hc hx' hxlt, if_neg hxc, stepCluster_set _ (hdata prev (by simp)) hx' hxlt]
    obtain ⟨n, rfl⟩ : ∃ n : Nat, c = n := ⟨c.toNat, by omega⟩
    have hlt := getClval12_lt fat n
    rw [nextCluster12_data (by omega) (by omega), stepCluster_data (by omega) (by omega),
      Nat.mod_eq_of_lt hlt]
  refine ⟨h.linked.splice (fun z hz => ?_) ?_, fun x hx => h.inside x (hmem x hx)⟩
  · rw [hstep z (by simp [hz]), if_neg]
    rintro rfl
    exact (nodup_append.mp hnodup).2.2 z hz z (by simp) rfl
  · rw [hstep prev (by simp), if_pos rfl]
    have hb : Linked (stepCluster fat) (fun z => 0xff8 ≤ z) (stepCluster fat c) b := by
      have hlinked := h.linked
      rw [append_cons] at hlinked
      exact hlinked.drop.2.2
    refine hb.congr fun z hz => ?_
    rw [hstep z (by simp [hz]), if_neg]
    rintro rfl
    have := (nodup_append.mp hnodup).2.1
    simp [hz] at this

end

/-- The cluster with index `i` leaves a directory, if it is not the first one. -/
theorem DirChain.unlink_at (h : DirChain fat start cs) (hdata : ∀ x ∈ cs, 2 ≤ x) (hi : 0 < i)
    (hlt : i < cs.length) : ∃ fat', deleteClusterFromChain fat start (cs.getD i 0) = some fat' ∧
      DirChain fat' start (cs.eraseIdx i) ∧ getClval12 fat' (cs.getD i 0) = 0 ∧
      ∀ z : Nat, (z : Int) ∉ cs → getClval12 fat' z = getClval12 fat z := by
  obtain ⟨i, rfl⟩ : ∃ n, i = n + 1 := ⟨i - 1, by omega⟩
  have hsplit : cs = cs.take i ++ cs[i] :: cs[i + 1] :: cs.drop (i + 2) := by
    rw [getElem_cons_drop, getElem_cons_drop, take_append_drop]
  have hget : cs.getD (i + 1) 0 = cs[i + 1] := by
    rw [getD_eq_getElem?_getD, getElem?_eq_getElem hlt, Option.getD_some]
  have herase : cs.eraseIdx (i + 1) = cs.take i ++ cs[i] :: cs.drop (i + 2) := by
    rw [eraseIdx_eq_take_drop_succ, take_succ_eq_append_getElem (by omega),
      append_assoc, singleton_append]
  have hprev := hdata cs[i] (getElem_mem _)
  have hc := hdata cs[i + 1] (getElem_mem _)
  rw [hsplit] at h hdata
  rw [hget, herase]
  obtain ⟨x, hx⟩ : ∃ n : Nat, cs[i] = n := ⟨cs[i].toNat, by omega⟩
  obtain ⟨y, hy⟩ : ∃ n : Nat, cs[i + 1] = n := ⟨cs[i + 1].toNat, by omega⟩
  refine ⟨_, deleteClusterFromChain_eq h hdata, h.unlink hdata, ?_, fun z hz => ?_⟩
  · rw [hy, getClval12_set, if_pos rfl]
  · have hzy : z ≠ y := by
      rintro rfl
      exact hz (hy ▸ getElem_mem _)
    have hzx : z ≠ x := by
      rintro rfl
      exact hz (hx ▸ getElem_mem _)
    rw [hy, hx, getClval12_set, if_neg hzy, getClval12_set, if_neg hzx]

end chain

end AtomOs
