import AtomOs.Lib.Scan
import AtomOs.Fs.FileWrite

/-!
# Directories as rows of slots

The 16 slots of each cluster of a directory, in the order of its chain, are one row of slots
(`slot`); the byte offset of slot `i` is `32 * i`. The root directory is such a chain too: the walk
from cluster -12 meets -12, …, 1.

Each search of `base/fat12.c` finds the first slot of that row with a property: `fat12_vop_readdir`
(**`readdir_eq`**), the loop of `fat12_vop_lookup` (**`findEntry_eq`**) and `update_dir_entry`
(**`updateDirEntry_eq`**). The blocks must be readable; a walk that has come to the end of a full last
cluster reads a block behind the disk, and stops there because that fails.

A chain of clusters of the disk is a `DirChain`. What the reading searches need is less: a row of blocks
that can be read (`DirRow`), where one of them may be in the cache only. `add_dir_entry` leaves such a row
when it takes a cluster behind the disk.
-/

namespace AtomOs

open Lib Prog List Bytes

variable {a b d : Bytes} {c : Int} {fat : FatTable} {i k m n : Nat} {s : Fs}

/-! ## Names -/

/-- The characters of a name, up to the first 0. -/
def nameFrom (d : Bytes) : Nat → Nat → List Nat
  | 0, _ => []
  | n + 1, i => if d i = 0 then [] else d i :: nameFrom d n (i + 1)

def entryName (d : Bytes) : List Nat := nameFrom d 11 0

theorem nameFrom_zero (h : d i = 0) : nameFrom d n i = [] := by
  cases n with
  | zero => rfl
  | succ n => exact if_pos h

theorem nameFrom_cons (h : d i ≠ 0) : nameFrom d (n + 1) i = d i :: nameFrom d n (i + 1) := if_neg h

theorem nameFrom_ne (h : a i ≠ b i) : nameFrom a (n + 1) i ≠ nameFrom b (n + 1) i := by
  by_cases ha : a i = 0
  · have hb : b i ≠ 0 := by omega
    rw [nameFrom_zero ha, nameFrom_cons hb]
    simp
  rw [nameFrom_cons ha]
  by_cases hb : b i = 0
  · rw [nameFrom_zero hb]
    simp
  · rw [nameFrom_cons hb]
    simp [h]

theorem strncmpEq_iff : ∀ {n i : Nat}, strncmpEq a b n i = true ↔
    nameFrom a (n + 1) i = nameFrom b (n + 1) i := by
  intro n i
  by_cases hab : a i = b i
  · by_cases ha : a i = 0
    · rw [nameFrom_zero ha, nameFrom_zero (hab ▸ ha)]
      cases n with
      | zero => simp [strncmpEq, hab]
      | succ n =>
        rw [strncmpEq, if_neg fun h => h.2 ha]
        simp [hab]
    · have hb : b i ≠ 0 := hab ▸ ha
      rw [nameFrom_cons ha, nameFrom_cons hb, hab, List.cons.injEq]
      cases n with
      | zero => simp [strncmpEq, hab, nameFrom]
      | succ n =>
        rw [strncmpEq, if_pos ⟨hab, ha⟩, strncmpEq_iff]
        simp
  · have hne := nameFrom_ne (n := n) hab
    cases n with
    | zero => simp [strncmpEq, hab, hne]
    | succ n =>
      rw [strncmpEq, if_neg fun h => hab h.1]
      simp [hab, hne]
termination_by n => n

/-- `strncmp` over 11 characters says whether two names are the same. -/
theorem sameName_iff : sameName a b = true ↔ entryName a = entryName b := strncmpEq_iff

variable {d' : Bytes} {P : Bytes → Bool}

theorem nameFrom_congr : ∀ {n i : Nat}, (∀ j, i ≤ j → j < i + n → d' j = d j) →
    nameFrom d' n i = nameFrom d n i
  | 0, _, _ => rfl
  | n + 1, i, h => by
    rw [nameFrom, nameFrom, h i (by omega) (by omega),
      nameFrom_congr fun j hij hj => h j (by omega) (by omega)]

theorem entryName_congr (h : ∀ j, j < 11 → d' j = d j) : entryName d' = entryName d :=
  nameFrom_congr fun j _ hj => h j (by omega)

/-! ## Slots -/

def SameEntry (d d' : Bytes) : Prop := ∀ i, i < 32 → d' i = d i

def sectorOf (c : Int) : Nat := u32 (c + 31)

/-- Slot `i` of the directory with the clusters `cs`. -/
def slot (v : Volume) (cs : List Int) (i : Nat) : Bytes :=
  (v.disk (sectorOf (cs.getD (i / 16) 0))).skip (32 * (i % 16))

/-- What `fat12_vop_readdir` copies: the first character 0x05 stands for 0xE5. -/
def copied (d : Bytes) : Bytes := if d 0 = 0x05 then d.put 0 0xE5 else d

/-- The clusters of a directory. -/
structure DirChain (fat : FatTable) (start : Int) (cs : List Int) : Prop where
  linked : Linked (stepCluster fat) (fun c => 0xff8 ≤ c) start cs
  inside : ∀ c ∈ cs, -12 ≤ c ∧ c ≤ lastCluster

/-- The clusters of a directory, whose blocks can be read, from the disk or from the cache. -/
structure DirRow (v : Volume) (start : Int) (cs : List Int) : Prop where
  linked : Linked (stepCluster v.fat) (fun c => 0xff8 ≤ c) start cs
  inside : ∀ c ∈ cs, -12 ≤ c ∧ c < totalSect
  read : ∀ c ∈ cs, v.unreadable (sectorOf c) = false
  behind : ∀ c : Int, 0xff8 ≤ c → c < 4096 → v.unreadable (sectorOf c) = true

section slots

variable {v : Volume} {fat fat' : FatTable} {c cur start : Int} {cs : List Int} {i j n : Nat}

theorem slot_head (h : j < 16) : slot v (c :: cs) j = (v.disk (sectorOf c)).skip (32 * j) := by
  rw [slot, Nat.div_eq_of_lt h, Nat.mod_eq_of_lt h]
  rfl

theorem slot_tail : slot v (c :: cs) (i + 16) = slot v cs i := by
  rw [slot, slot, Nat.add_div_right _ (by decide), Nat.add_mod_right]
  rfl

theorem sectorOf_eq (h : -12 ≤ c ∧ c < totalSect) : (sectorOf c : Int) = c + 31 := by
  have htotal : totalSect = 2880 := rfl
  exact u32_of_range (by omega) (by omega)

theorem below_total (h : -12 ≤ c ∧ c ≤ lastCluster) : -12 ≤ c ∧ c < totalSect := by
  have hlast : lastCluster = 2848 := rfl
  have htotal : totalSect = 2880 := rfl
  omega

theorem readable_dir (hv : Healthy v) (h : -12 ≤ c ∧ c ≤ lastCluster) :
    v.unreadable (sectorOf c) = false := by
  have hlast : lastCluster = 2848 := rfl
  have htotal : totalSect = 2880 := rfl
  have hsector := sectorOf_eq (below_total h)
  rw [hv _, decide_eq_false_iff_not]
  omega

theorem bread_eq : v.bread c = if v.unreadable (sectorOf c) then none else some (v.disk (sectorOf c)) := rfl

theorem bread_dir (hv : Healthy v) (h : -12 ≤ c ∧ c ≤ lastCluster) :
    v.bread c = some (v.disk (sectorOf c)) := by
  rw [bread_eq, readable_dir hv h]
  rfl

theorem unreadable_end (hv : Healthy v) (hle : 0xff8 ≤ c) (hlt : c < 4096) :
    v.unreadable (sectorOf c) = true := by
  have htotal : totalSect = 2880 := rfl
  have hsector : (sectorOf c : Int) = c + 31 := u32_of_range (by omega) (by omega)
  rw [hv _, decide_eq_true_iff]
  omega

theorem stepCluster_lt (h : -12 ≤ c) : stepCluster fat c < 4096 := by
  rw [stepCluster]
  split
  · omega
  split
  · omega
  rw [nextCluster12]
  obtain ⟨k, rfl⟩ : ∃ k : Nat, c = k := ⟨c.toNat, by omega⟩
  have := getClval12_lt fat k
  split
  · omega
  · split
    · omega
    · decide

theorem stepCluster_data {c : Nat} (h2 : 2 ≤ c) (hlt : c < totalSect) :
    stepCluster fat c = getClval12 fat c := by
  have htotal : totalSect = 2880 := rfl
  rw [stepCluster, if_neg (by omega), if_neg (by omega), nextCluster12, if_neg (by omega), if_neg (by omega),
    if_pos (by omega)]

/-- Setting the value of one data cluster leaves the successors of the others as they are. -/
theorem stepCluster_set {z : Int} (val : Nat) (hc : 2 ≤ c) (hz : 2 ≤ z) (hlt : z < totalSect) :
    stepCluster (setClval12 fat c val) z = if z = c then ((val % 4096 : Nat) : Int) else stepCluster fat z := by
  obtain ⟨c, rfl⟩ : ∃ n : Nat, c = n := ⟨c.toNat, by omega⟩
  obtain ⟨z, rfl⟩ : ∃ n : Nat, z = n := ⟨z.toNat, by omega⟩
  rw [stepCluster_data (by omega) (by omega), stepCluster_data (by omega) (by omega), getClval12_set]
  by_cases hzc : z = c
  · rw [if_pos hzc, if_pos (by omega)]
  · rw [if_neg hzc, if_neg (by omega)]

theorem length_le_of_inside (hnodup : cs.Nodup) (h : ∀ c ∈ cs, -12 ≤ c ∧ c < (n : Int) - 12) :
    cs.length ≤ n := by
  have hsub : cs ⊆ (List.range n).map fun k : Nat => (k : Int) - 12 := fun c hc => by
    have := h c hc
    rw [mem_map]
    exact ⟨(c + 12).toNat, mem_range.mpr (by omega), by omega⟩
  have := (subperm_of_subset hnodup hsub).length_le
  simpa using this

theorem linked_tail_nil (h : Linked (stepCluster fat) (fun c => 0xff8 ≤ c) start (c :: cs)) :
    0xff8 ≤ stepCluster fat c ↔ cs = [] := by
  constructor
  · intro hend
    exact (show Linked _ _ _ [] from hend).unique h.2.2 ▸ rfl
  · rintro rfl
    exact h.2.2

namespace DirRow

theorem tail (h : DirRow v start (c :: cs)) : DirRow v (stepCluster v.fat c) cs :=
  ⟨h.linked.2.2, (forall_mem_cons.mp h.inside).2, (forall_mem_cons.mp h.read).2, h.behind⟩

theorem length_le (h : DirRow v start cs) : cs.length ≤ 2892 := by
  have htotal : totalSect = 2880 := rfl
  exact length_le_of_inside h.linked.nodup fun c hc => by have := h.inside c hc; omega

theorem bread (h : DirRow v start cs) (hc : c ∈ cs) : v.bread c = some (v.disk (sectorOf c)) := by
  rw [bread_eq, h.read c hc]
  rfl

end DirRow

namespace DirChain

theorem row (h : DirChain v.fat start cs) (hv : Healthy v) : DirRow v start cs :=
  ⟨h.linked, fun c hc => below_total (h.inside c hc), fun c hc => readable_dir hv (h.inside c hc),
    fun _ => unreadable_end hv⟩

theorem nodup (h : DirChain fat start cs) : cs.Nodup := h.linked.nodup

theorem length_le (h : DirChain fat start cs) : cs.length ≤ 2861 := by
  have hlast : lastCluster = 2848 := rfl
  exact length_le_of_inside h.nodup fun c hc => by have := h.inside c hc; omega

theorem tail (h : DirChain fat start (c :: cs)) : DirChain fat (stepCluster fat c) cs :=
  ⟨h.linked.2.2, (forall_mem_cons.mp h.inside).2⟩

theorem tail_nil (h : DirChain fat start (c :: cs)) : 0xff8 ≤ stepCluster fat c ↔ cs = [] :=
  linked_tail_nil h.linked

/-- A cluster of a directory is not free: its successor is another cluster or an end mark. -/
theorem step_ne_zero (h : DirChain fat start cs) (hdata : ∀ x ∈ cs, 2 ≤ x) (hc : c ∈ cs) :
    stepCluster fat c ≠ 0 := by
  obtain ⟨a, b, rfl⟩ := append_of_mem hc
  rcases (Linked.drop h.linked).2.2.stop_or_mem with hstop | hmem
  · omega
  · have := hdata _ (mem_append_right a (mem_cons_of_mem c hmem))
    omega

theorem congr (h : DirChain fat start cs)
    (hag : ∀ c : Nat, (c : Int) ∈ cs → getClval12 fat' c = getClval12 fat c) :
    DirChain fat' start cs := by
  refine ⟨h.linked.congr fun c hc => ?_, h.inside⟩
  have hin := h.inside c hc
  unfold stepCluster
  split
  · rfl
  · split
    · rfl
    · obtain ⟨k, rfl⟩ : ∃ k : Nat, c = k := ⟨c.toNat, by omega⟩
      rw [nextCluster12_data (by omega) (by omega), nextCluster12_data (by omega) (by omega), hag k hc]

end DirChain

def rootClusters : List Int := [-12, -11, -10, -9, -8, -7, -6, -5, -4, -3, -2, -1, 0, 1]

theorem dirChain_root (fat : FatTable) : DirChain fat (-12) rootClusters := by
  refine ⟨?_, ?_⟩
  · simp [rootClusters, stepCluster]
  · have hlast : (lastCluster : Int) = 2848 := rfl
    decide

theorem scanSlots_eq {stop : Bytes → Bool} {buff : Bytes} : ∀ {fuel j : Nat}, j ≤ 16 → 16 ≤ j + fuel →
    scanSlots stop buff fuel (32 * j) =
      32 * (firstFrom (fun k => stop (buff.skip (32 * k))) j 16).getD 16
  | 0, j, hj, hfuel => by
    obtain rfl : j = 16 := by omega
    rfl
  | fuel + 1, j, hj, hfuel => by
    rw [scanSlots]
    by_cases hlt : j < 16
    · rw [if_pos (by omega)]
      cases hstop : stop (buff.skip (32 * j)) with
      | true => rw [if_pos rfl, firstFrom_here hlt hstop, Option.getD_some]
      | false =>
        have hskip : firstFrom (fun k => stop (buff.skip (32 * k))) j 16 =
            firstFrom (fun k => stop (buff.skip (32 * k))) (j + 1) 16 :=
          firstFrom_skip (Nat.le_succ j) fun k hjk hk => by
            obtain rfl : k = j := by omega
            exact hstop
        rw [if_neg (by simp), hskip]
        exact scanSlots_eq hlt (by omega)
    · obtain rfl : j = 16 := by omega
      rfl

theorem findSlot_eq (stop : Bytes → Bool) (buff : Bytes) :
    findSlot stop buff = (firstFrom (fun k => stop (buff.skip (32 * k))) 0 16).map (32 * ·) := by
  rw [findSlot, show scanSlots stop buff 16 0 = _ from scanSlots_eq (j := 0) (by omega) (by omega)]
  cases h : firstFrom (fun k => stop (buff.skip (32 * k))) 0 16 with
  | none => rfl
  | some k =>
    have := (firstFrom_eq_some.mp h).2.1
    rw [Option.getD_some, if_pos (by omega)]
    rfl

/-- A search over a directory goes on in the next cluster if it finds nothing in the first. -/
theorem firstFrom_block (hj : j ≤ 16) :
    firstFrom (fun k => P (slot v (c :: cs) k)) j (16 * (cs.length + 1)) =
      match firstFrom (fun k => P ((v.disk (sectorOf c)).skip (32 * k))) j 16 with
      | some k => some k
      | none => (firstFrom (fun k => P (slot v cs k)) 0 (16 * cs.length)).map (· + 16) := by
  have hblock : firstFrom (fun k => P (slot v (c :: cs) k)) j 16 =
      firstFrom (fun k => P ((v.disk (sectorOf c)).skip (32 * k))) j 16 :=
    firstFrom_congr fun k _ hk => by rw [slot_head hk]
  cases h : firstFrom (fun k => P ((v.disk (sectorOf c)).skip (32 * k))) j 16 with
  | some k => exact firstFrom_mono (by omega) (hblock.trans h)
  | none =>
    rw [firstFrom_skip hj (firstFrom_eq_none.mp (hblock.trans h)),
      show 16 * (cs.length + 1) = 16 * cs.length + 16 by omega]
    have hshift := firstFrom_shift (P := fun k => P (slot v (c :: cs) k)) (i := 0)
      (n := 16 * cs.length) 16
    rw [hshift]
    simp only [slot_tail]

end slots

/-! ## The searches -/

section searches

variable {v : Volume} {dent : Bytes} {cur start : Int} {cs : List Int} {i j n off : Nat}

/-- What `fat12_vop_readdir` hands out for slot `k`. -/
def entryAt (v : Volume) (cs : List Int) (k : Nat) : ReadEntry :=
  ⟨Dirent.startCluster (slot v cs k), 32 * k, copied (slot v cs k)⟩

theorem readdirFrom_eq : ∀ {cs : List Int} {fuel j off : Nat} {cur : Int},
    DirRow v cur cs → cs ≠ [] → cs.length ≤ fuel → j ≤ 16 →
    readdirFrom v fuel cur (32 * j) off =
      match firstFrom (fun k => !skipped (slot v cs k)) j (16 * cs.length) with
      | some k => some (.ok ⟨Dirent.startCluster (slot v cs k), off + 32 * (k - j), copied (slot v cs k)⟩)
      | none => some (.error edirEntryNotFound)
  | [], _, _, _, _, _, hne, _, _ => absurd rfl hne
  | c :: cs, 0, _, _, _, _, _, hfuel, _ => absurd hfuel (by simp)
  | c :: cs, fuel + 1, j, off, cur, hrow, _, hfuel, hj => by
    obtain rfl : cur = c := hrow.linked.1
    rw [readdirFrom, hrow.bread mem_cons_self]
    simp only
    rw [scanSlots_eq hj (by omega), length_cons,
      firstFrom_block (P := fun d => !skipped d) hj]
    cases hblock : firstFrom (fun k => !skipped ((v.disk (sectorOf cur)).skip (32 * k))) j 16 with
    | some k =>
      have hk := firstFrom_eq_some.mp hblock
      simp only [Option.getD_some]
      rw [if_pos (by omega), slot_head hk.2.1, ← Nat.mul_sub]
      rfl
    | none =>
      simp only [Option.getD_none]
      rw [if_neg (by omega)]
      by_cases hend : 0xff8 ≤ stepCluster v.fat cur
      · obtain rfl := (linked_tail_nil hrow.linked).mp hend
        rw [if_pos hend, firstFrom_empty (by simp)]
        rfl
      have hne := mt (linked_tail_nil hrow.linked).mpr hend
      rw [if_neg hend, show (0 : Nat) = 32 * 0 from rfl,
        readdirFrom_eq hrow.tail hne (by simpa using hfuel) (Nat.zero_le 16)]
      cases firstFrom (fun k => !skipped (slot v cs k)) 0 (16 * cs.length) with
      | none => rfl
      | some k =>
        simp only [Option.map_some]
        rw [slot_tail, show off + (32 * 16 - 32 * j) + 32 * (k - 0) = off + 32 * (k + 16 - j) by omega]

/-- The walk to a cluster of a directory. One step behind the last cluster it still counts as
    arrived. -/
theorem seekCluster_eq : ∀ {cs : List Int} {i : Nat} {cur : Int},
    DirRow v cur cs → cs ≠ [] → i ≤ cs.length →
    ∃ c, seekCluster v.fat i cur = (0, c) ∧ DirRow v c (cs.drop i) ∧ (i = cs.length → v.bread c = none)
  | cs, 0, cur, hrow, hne, _ =>
    ⟨cur, rfl, hrow, fun h => absurd (length_eq_zero_iff.mp h.symm) hne⟩
  | c :: cs, i + 1, cur, hrow, _, hi => by
    obtain rfl : cur = c := hrow.linked.1
    have hin := hrow.inside cur mem_cons_self
    rw [seekCluster]
    by_cases hend : 0xff8 ≤ stepCluster v.fat cur
    · obtain rfl := (linked_tail_nil hrow.linked).mp hend
      obtain rfl : i = 0 := by simpa using hi
      simp only [if_pos hend]
      refine ⟨_, rfl, hrow.tail, fun _ => ?_⟩
      rw [bread_eq, hrow.behind _ hend (stepCluster_lt hin.1)]
      rfl
    · have hne := mt (linked_tail_nil hrow.linked).mpr hend
      simp only [if_neg hend]
      obtain ⟨c', hseek, hdrop, hlast⟩ := seekCluster_eq hrow.tail hne (by simpa using hi)
      exact ⟨c', hseek, hdrop, fun h => hlast (by simpa using h)⟩

theorem seekCluster_behind : ∀ {cs : List Int} {i : Nat} {cur : Int},
    DirRow v cur cs → cs ≠ [] → cs.length < i → 0 < (seekCluster v.fat i cur).1
  | c :: cs, i + 1, cur, hrow, _, hi => by
    obtain rfl : cur = c := hrow.linked.1
    rw [length_cons] at hi
    rw [seekCluster]
    by_cases hend : 0xff8 ≤ stepCluster v.fat cur
    · simp only [if_pos hend]
      omega
    · have hne := mt (linked_tail_nil hrow.linked).mpr hend
      simp only [if_neg hend]
      exact seekCluster_behind hrow.tail hne (by omega)

theorem slot_drop (a : Nat) : slot v (cs.drop a) i = slot v cs (16 * a + i) := by
  have hdiv : (16 * a + i) / 16 = a + i / 16 := by omega
  have hmod : (16 * a + i) % 16 = i % 16 := by omega
  rw [slot, slot, hdiv, hmod, getD_eq_getElem?_getD, getD_eq_getElem?_getD, List.getElem?_drop]

/-- **`fat12_vop_readdir`** hands out the first slot in use from an offset on. -/
theorem readdir_eq (hrow : DirRow v (Dirent.startCluster dent) cs) (hne : cs ≠ []) :
    (∃ k, firstFrom (fun k => !skipped (slot v cs k)) i (16 * cs.length) = some k ∧
        fat12VopReaddir v dent (32 * i) = some (.ok (entryAt v cs k))) ∨
      firstFrom (fun k => !skipped (slot v cs k)) i (16 * cs.length) = none ∧
        ∃ e, fat12VopReaddir v dent (32 * i) = some (.error e) := by
  have hblock : 32 * i / 512 = i / 16 := by omega
  by_cases hin : cs.length < i / 16
  · refine .inr ⟨firstFrom_empty (by omega), einvalidOffset, ?_⟩
    rw [fat12VopReaddir, hblock]
    exact if_pos (seekCluster_behind hrow hne hin)
  obtain ⟨c, hseek, hdrop, hlast⟩ := seekCluster_eq (i := i / 16) hrow hne (by omega)
  have hpos : 32 * i % 512 = 32 * (i % 16) := by omega
  have hlen := hrow.length_le
  rw [fat12VopReaddir, hblock, hseek, hpos]
  simp only
  rw [if_neg (Nat.lt_irrefl 0)]
  by_cases hbehind : i / 16 = cs.length
  · -- the offset is the end of a full last cluster
    refine .inr ⟨firstFrom_empty (by omega), ediskRead, ?_⟩
    rw [chainFuel, readdirFrom, hlast hbehind]
  have hdne : cs.drop (i / 16) ≠ [] := by
    intro h
    have := congrArg List.length h
    simp at this
    omega
  have hdlen : (cs.drop (i / 16)).length = cs.length - i / 16 := length_drop
  rw [readdirFrom_eq hdrop hdne (by rw [hdlen, chainFuel]; omega) (by omega), hdlen]
  have hshift := firstFrom_shift (P := fun k => !skipped (slot v cs k)) (i := i % 16)
    (n := 16 * (cs.length - i / 16)) (16 * (i / 16))
  have hP : (fun k => !skipped (slot v (cs.drop (i / 16)) k)) =
      fun k => !skipped (slot v cs (k + 16 * (i / 16))) := by
    funext k
    rw [slot_drop, Nat.add_comm]
  rw [show i % 16 + 16 * (i / 16) = i by omega,
    show 16 * (cs.length - i / 16) + 16 * (i / 16) = 16 * cs.length by omega, ← hP] at hshift
  rw [hshift]
  cases hfind : firstFrom (fun k => !skipped (slot v (cs.drop (i / 16)) k)) (i % 16)
      (16 * (cs.length - i / 16)) with
  | none => exact .inr ⟨rfl, _, rfl⟩
  | some k =>
    have hk := (firstFrom_eq_some.mp hfind).1
    refine .inl ⟨_, rfl, ?_⟩
    simp only
    rw [entryAt, slot_drop, Nat.add_comm (16 * (i / 16)) k,
      show 32 * i + 32 * (k - i % 16) = 32 * (k + 16 * (i / 16)) by omega]

/-- A slot that a lookup of `fname` stops at. -/
def isEntry (fname : Bytes) (d : Bytes) : Bool := !skipped d && sameName (copied d) fname

/-- **The loop of `fat12_vop_lookup`** finds the first slot in use with the name. -/
theorem findEntry_eq (hrow : DirRow v (Dirent.startCluster dent) cs) (hne : cs ≠ []) (fname : Bytes) :
    ∀ {fuel i : Nat}, i ≤ 16 * cs.length → 16 * cs.length < i + fuel →
    findEntry v dent fname fuel (32 * i) =
      some ((firstFrom (fun k => isEntry fname (slot v cs k)) i (16 * cs.length)).map (entryAt v cs))
  | 0, i, hi, hfuel => by omega
  | fuel + 1, i, hi, hfuel => by
    rw [findEntry]
    rcases readdir_eq (i := i) hrow hne with ⟨k, hfind, hrun⟩ | ⟨hnone, e, hrun⟩
    · obtain ⟨hik, hkn, hk, hbefore⟩ := firstFrom_eq_some.mp hfind
      -- the slots passed over are not in use
      have hpassed : ∀ m, i ≤ m → m < k → isEntry fname (slot v cs m) = false := fun m him hmk => by
        rw [isEntry, hbefore m him hmk, Bool.false_and]
      rw [hrun, firstFrom_skip hik hpassed]
      simp only
      by_cases hsame : sameName (entryAt v cs k).dent fname = true
      · have hentry : isEntry fname (slot v cs k) = true := Bool.and_eq_true_iff.mpr ⟨hk, hsame⟩
        rw [if_pos hsame, firstFrom_here hkn hentry]
        rfl
      have hentry : isEntry fname (slot v cs k) = false :=
        Bool.eq_false_iff.mpr fun h => hsame (Bool.and_eq_true_iff.mp h).2
      rw [if_neg hsame, firstFrom_skip (Nat.le_succ k) fun m hkm hm => by
        obtain rfl : m = k := by omega
        exact hentry]
      exact findEntry_eq hrow hne fname (i := k + 1) hkn (by omega)
    · have hempty : firstFrom (fun k => isEntry fname (slot v cs k)) i (16 * cs.length) = none :=
        firstFrom_eq_none.mpr fun m him hmn => by
          rw [isEntry, firstFrom_eq_none.mp hnone m him hmn, Bool.false_and]
      rw [hrun, hempty]
      rfl

/-- The state after slot `k` of a directory was overwritten. -/
def Fs.setSlot (s : Fs) (cs : List Int) (k : Nat) (dent : Bytes) : Fs :=
  s.setSector (sectorOf (cs.getD (k / 16) 0))
    ((s.disk (sectorOf (cs.getD (k / 16) 0))).copy (32 * (k % 16)) 32 dent)

theorem setSlot_head (h : k < 16) : s.setSlot (c :: cs) k dent =
    s.setSector (sectorOf c) ((s.disk (sectorOf c)).copy (32 * k) 32 dent) := by
  rw [Fs.setSlot, Nat.div_eq_of_lt h, Nat.mod_eq_of_lt h]
  rfl

theorem setSlot_tail : s.setSlot (c :: cs) (k + 16) dent = s.setSlot cs k dent := by
  rw [Fs.setSlot, Fs.setSlot, Nat.add_div_right _ (by decide), Nat.add_mod_right]
  rfl

/-- **A loop over the clusters of a directory** that stops at the first slot with `P`. -/
theorem scanChain_eq {β : Type} (loop : Nat → Int → β) (found : List Int → Nat → β)
    (missing : Int → β)
    (hloop : ∀ fuel (cur : Int) cs, -12 ≤ cur ∧ cur ≤ lastCluster → loop (fuel + 1) cur =
      match firstFrom (fun k => P ((v.disk (sectorOf cur)).skip (32 * k))) 0 16 with
      | some k => found (cur :: cs) k
      | none => if 0xff8 ≤ stepCluster v.fat cur then missing cur
        else loop fuel (stepCluster v.fat cur))
    (htail : ∀ c cs k, found (c :: cs) (k + 16) = found cs k) :
    ∀ {cs : List Int} {fuel : Nat} {cur : Int}, DirChain v.fat cur cs → (hne : cs ≠ []) →
    cs.length ≤ fuel → loop fuel cur =
      match firstFrom (fun k => P (slot v cs k)) 0 (16 * cs.length) with
      | some k => found cs k
      | none => missing (cs.getLast hne)
  | [], _, _, _, hne, _ => absurd rfl hne
  | c :: cs, 0, _, _, _, hfuel => absurd hfuel (by simp)
  | c :: cs, fuel + 1, cur, hchain, _, hfuel => by
    obtain rfl : cur = c := hchain.linked.1
    rw [hloop fuel cur cs (hchain.inside cur mem_cons_self), length_cons,
      firstFrom_block (Nat.zero_le 16)]
    cases firstFrom (fun k => P ((v.disk (sectorOf cur)).skip (32 * k))) 0 16 with
    | some k => rfl
    | none =>
      by_cases hend : 0xff8 ≤ stepCluster v.fat cur
      · obtain rfl := hchain.tail_nil.mp hend
        rw [if_pos hend, firstFrom_empty (by simp)]
        rfl
      have hne := mt hchain.tail_nil.mpr hend
      rw [if_neg hend, scanChain_eq loop found missing hloop htail hchain.tail hne (by simpa using hfuel)]
      cases firstFrom (fun k => P (slot v cs k)) 0 (16 * cs.length) with
      | none => rw [getLast_cons hne]; rfl
      | some k => exact (htail cur cs k).symm

theorem updateDirEntryFrom_eq (hv : Healthy s.toVolume) (dent : Bytes) {cs : List Int}
    {fuel : Nat} {cur : Int} (hchain : DirChain s.fat cur cs) (hne : cs ≠ []) (hfuel : cs.length ≤ fuel) :
    updateDirEntryFrom dent fuel cur s =
      match firstFrom (fun k => sameName (slot s.toVolume cs k) dent) 0 (16 * cs.length) with
      | some k => some (1, s.setSlot cs k dent)
      | none => some (edirEntryNotFound, s) := by
  refine scanChain_eq (P := fun d => sameName d dent) (updateDirEntryFrom dent · · s)
    (fun cs k => some (1, s.setSlot cs k dent)) (fun _ => some (edirEntryNotFound, s))
    (fun fuel cur cs hin => ?_) (fun c cs k => ?_) hchain hne hfuel
  · rw [updateDirEntryFrom, get_bind, bread_dir hv hin]
    simp only
    rw [findSlot_eq]
    cases hblock : firstFrom (fun k => sameName ((s.disk (sectorOf cur)).skip (32 * k)) dent) 0 16 with
    | none => exact ite_apply _ _ _ s
    | some k =>
      simp only [Option.map_some]
      rw [setSlot_head (firstFrom_eq_some.mp hblock).2.1]
      rfl
  · rw [setSlot_tail]

/-- **`update_dir_entry`** overwrites the first slot with the name. -/
theorem updateDirEntry_eq {p : Nat} (hp : p ≠ 0) (hv : Healthy s.toVolume)
    (hchain : DirChain s.fat (Dirent.startCluster (s.vnodes p).data) cs) (hne : cs ≠ []) :
    updateDirEntry p dent s =
      match firstFrom (fun k => sameName (slot s.toVolume cs k) dent) 0 (16 * cs.length) with
      | some k => some (1, s.setSlot cs k dent)
      | none => some (edirEntryNotFound, s) := by
  have hlen := hchain.length_le
  rw [updateDirEntry, bind_of_some (vnode_eq hp s)]
  exact updateDirEntryFrom_eq hv dent hchain hne (by rw [chainFuel]; omega)

theorem sectorOf_inj {c' : Int} (h : -12 ≤ c ∧ c < totalSect) (h' : -12 ≤ c' ∧ c' < totalSect)
    (hsame : sectorOf c = sectorOf c') : c = c' := by
  have := sectorOf_eq h
  have := sectorOf_eq h'
  omega

theorem mem_clusterOf (hi : i < 16 * cs.length) : cs.getD (i / 16) 0 ∈ cs := by
  have hlt : i / 16 < cs.length := by omega
  rw [getD_eq_getElem?_getD, List.getElem?_eq_getElem hlt, Option.getD_some]
  exact List.getElem_mem hlt

theorem DirChain.block_eq (h : DirChain fat start cs)
    (hk : k < 16 * cs.length) (hm : m < 16 * cs.length)
    (hsector : sectorOf (cs.getD (m / 16) 0) = sectorOf (cs.getD (k / 16) 0)) : m / 16 = k / 16 := by
  have hcluster := sectorOf_inj (below_total (h.inside _ (mem_clusterOf hm)))
    (below_total (h.inside _ (mem_clusterOf hk))) hsector
  have hlt : k / 16 < cs.length := by omega
  have hlt' : m / 16 < cs.length := by omega
  rw [getD_eq_getElem?_getD, getD_eq_getElem?_getD, List.getElem?_eq_getElem hlt,
    List.getElem?_eq_getElem hlt', Option.getD_some, Option.getD_some] at hcluster
  exact (List.Nodup.getElem_inj_iff h.nodup).mp hcluster

theorem slot_setSector {b : Nat} {data : Bytes} : slot (s.setSector b data).toVolume cs m =
    if sectorOf (cs.getD (m / 16) 0) = b then data.skip (32 * (m % 16)) else slot s.toVolume cs m := by
  rw [slot, slot]
  simp only [Fs.setSector]
  split <;> rfl

theorem slot_dropSector {b : Nat} (h : ¬ sectorOf (cs.getD (m / 16) 0) = b) :
    slot (s.dropSector b).toVolume cs m = slot s.toVolume cs m := by
  rw [slot, slot]
  simp only [Fs.dropSector, if_neg h]

theorem slot_setSlot_same : SameEntry dent (slot (s.setSlot cs k dent).toVolume cs k) := by
  intro i hi
  rw [slot, Fs.setSlot, skip]
  simp only [Fs.setSector, if_true]
  exact copy_in hi

theorem slot_setSlot_ne {cs' : List Int}
    (hapart : sectorOf (cs'.getD (m / 16) 0) = sectorOf (cs.getD (k / 16) 0) → m % 16 ≠ k % 16) :
    SameEntry (slot s.toVolume cs' m) (slot (s.setSlot cs k dent).toVolume cs' m) := by
  intro i hi
  rw [slot, slot, Fs.setSlot, skip, skip]
  simp only [Fs.setSector]
  by_cases hsector : sectorOf (cs'.getD (m / 16) 0) = sectorOf (cs.getD (k / 16) 0)
  · rw [if_pos hsector, hsector, copy_out (by omega)]
  · rw [if_neg hsector]

end searches

end AtomOs
