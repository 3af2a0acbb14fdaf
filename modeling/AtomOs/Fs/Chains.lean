import Mathlib.Data.Finset.Card
import Mathlib.Order.Interval.Finset.Nat
import AtomOs.Lib.Linked
import AtomOs.Fs.Vnode

/-!
# The allocation table as a map, and the chains in it

`set_clval12` and `get_clval12` pack two values into three bytes. Seen from outside, the table is a
map from clusters to 12-bit values (**`getClval12_set`**), and everything above it is proved from
that: what `alloc_block12` and `free_cluster_chain` change, and what the walks along a chain meet.

A chain is a linked list in the table (`Chain`). Its clusters are data clusters of the disk, and
none of them is free.
-/

namespace AtomOs

open Lib List

variable {c : Nat} {fat : FatTable}

/-! ## Two values in three bytes -/

section codec

variable (fat : FatTable) (k v : Nat)

theorem fatIndex_even : fatIndex (2 * k : Nat) = 3 * k := by
  rw [fatIndex, Int.tdiv_eq_ediv_of_nonneg (by omega)]
  omega

theorem fatIndex_odd : fatIndex (2 * k + 1 : Nat) = 3 * k + 1 := by
  rw [fatIndex, Int.tdiv_eq_ediv_of_nonneg (by omega)]
  omega

theorem tmod_two_even : ((2 * k : Nat) : Int).tmod 2 = 0 := by
  rw [Int.tmod_eq_emod_of_nonneg (by omega)]
  omega

theorem tmod_two_odd : ¬ ((2 * k + 1 : Nat) : Int).tmod 2 = 0 := by
  rw [Int.tmod_eq_emod_of_nonneg (by omega)]
  omega

theorem getClval12_even :
    getClval12 fat (2 * k : Nat) = fat (3 * k) % 256 + 256 * (fat (3 * k + 1) % 16) := by
  simp only [getClval12, fatIndex_even, tmod_two_even, if_true]
  omega

theorem getClval12_odd :
    getClval12 fat (2 * k + 1 : Nat) = fat (3 * k + 1) % 256 / 16 + 16 * (fat (3 * k + 2) % 256) := by
  have hnext : (3 * k + 1 + 1 : Int) = 3 * k + 2 := by omega
  simp only [getClval12, fatIndex_odd, tmod_two_odd, if_false, hnext]
  omega

theorem setClval12_even (i : Int) : setClval12 fat (2 * k : Nat) v i =
      if i = 3 * k then v % 256
      else if i = 3 * k + 1 then fat i % 256 / 16 * 16 + v / 256 % 16
      else fat i := by
  simp only [setClval12, fatIndex_even, tmod_two_even, if_true, FatTable.put]
  by_cases h1 : i = 3 * k + 1
  · have h0 : ¬ (3 * k + 1 : Int) = 3 * k := by omega
    rw [h1, if_pos rfl, if_neg h0, if_pos rfl]
  · rw [if_neg h1, if_neg h1]

theorem setClval12_odd (i : Int) : setClval12 fat (2 * k + 1 : Nat) v i =
      if i = 3 * k + 1 then fat i % 16 + v % 16 * 16
      else if i = 3 * k + 2 then v / 16 % 256
      else fat i := by
  have hnext : (3 * k + 1 + 1 : Int) = 3 * k + 2 := by omega
  simp only [setClval12, fatIndex_odd, tmod_two_odd, if_false, FatTable.put, hnext]
  by_cases h1 : i = 3 * k + 1
  · have h2 : ¬ (3 * k + 1 : Int) = 3 * k + 2 := by omega
    rw [h1, if_neg h2, if_pos rfl, if_pos rfl]
  · by_cases h2 : i = 3 * k + 2
    · rw [if_pos h2, if_neg h1, if_pos h2]
    · rw [if_neg h2, if_neg h1, if_neg h1, if_neg h2]

end codec

theorem even_or_odd (c : Nat) : ∃ k, c = 2 * k ∨ c = 2 * k + 1 := ⟨c / 2, by omega⟩

theorem getClval12_lt (fat : FatTable) (c : Nat) : getClval12 fat c < 4096 := by
  obtain ⟨k, rfl | rfl⟩ := even_or_odd c
  · rw [getClval12_even]
    omega
  · rw [getClval12_odd]
    omega

theorem getClval12_congr {fat' : FatTable}
    (h : ∀ i : Int, i / 3 = (c / 2 : Nat) → fat' i = fat i) : getClval12 fat' c = getClval12 fat c := by
  obtain ⟨k, rfl | rfl⟩ := even_or_odd c
  · rw [getClval12_even, getClval12_even, h _ (by omega), h _ (by omega)]
  · rw [getClval12_odd, getClval12_odd, h _ (by omega), h _ (by omega)]

theorem setClval12_apart {v : Nat} {i : Int} (h : i / 3 ≠ (c / 2 : Nat)) :
    setClval12 fat c v i = fat i := by
  obtain ⟨k, rfl | rfl⟩ := even_or_odd c
  · rw [setClval12_even, if_neg (by omega), if_neg (by omega)]
  · rw [setClval12_odd, if_neg (by omega), if_neg (by omega)]

/-- **The table is a map.** Setting the value of a cluster changes no other value, not even the one
    it shares a byte with. -/
theorem getClval12_set (fat : FatTable) (a v b : Nat) :
    getClval12 (setClval12 fat a v) b = if b = a then v % 4096 else getClval12 fat b := by
  obtain ⟨k, ha⟩ := even_or_odd a
  obtain ⟨j, hb⟩ := even_or_odd b
  -- only values of the same three bytes can meet
  by_cases hjk : j = k
  · subst hjk
    have h01 : ¬ (3 * j + 1 : Int) = 3 * j := by omega
    have h12 : ¬ (3 * j + 2 : Int) = 3 * j + 1 := by omega
    have h02 : ¬ (3 * j + 2 : Int) = 3 * j := by omega
    have h10 : ¬ (3 * j : Int) = 3 * j + 1 := by omega
    have h20 : ¬ (3 * j : Int) = 3 * j + 2 := by omega
    rcases ha with rfl | rfl <;> rcases hb with rfl | rfl <;>
      simp only [getClval12_even, getClval12_odd, setClval12_even, setClval12_odd, h01, h12, h02,
        h10, h20, if_true, if_false]
    · omega
    · rw [if_neg (by omega)]
      omega
    · rw [if_neg (by omega)]
      omega
    · omega
  · rw [if_neg (by omega)]
    exact getClval12_congr fun i hi => setClval12_apart (by omega)

theorem setClval12_comm {d : Nat} (h : d ≠ c) (v w : Nat) :
    setClval12 (setClval12 fat c v) d w = setClval12 (setClval12 fat d w) c v := by
  funext i
  obtain ⟨k, rfl | rfl⟩ := even_or_odd c <;> obtain ⟨j, rfl | rfl⟩ := even_or_odd d <;>
    simp only [setClval12_even, setClval12_odd] <;> split_ifs <;> omega

theorem setClval12_get (hbyte : ∀ i, fat i < 256) (c : Nat) :
    setClval12 fat c (getClval12 fat c) = fat := by
  funext i
  have hi := hbyte i
  obtain ⟨k, rfl | rfl⟩ := even_or_odd c
  · rw [setClval12_even, getClval12_even]
    split_ifs with h0 h1
    · rw [← h0]
      omega
    · rw [← h1]
      omega
    · rfl
  · rw [setClval12_odd, getClval12_odd]
    split_ifs with h1 h2
    · rw [← h1]
      omega
    · rw [← h2]
      omega
    · rfl

/-- **The table is a codec.** A value set is read back and no other one changes; values are set in
    either order; setting what is read changes no byte. Only the two bytes of the value are read or
    written, and they are in the nine sectors of the table. -/
theorem clval12_codec (fat : FatTable) (hbyte : ∀ i, fat i < 256) (c d v w : Nat)
    (hc : 2 ≤ c ∧ c ≤ 2848) (hv : v < 4096) :
    getClval12 (setClval12 fat c v) c = v ∧
      (d ≠ c → getClval12 (setClval12 fat c v) d = getClval12 fat d ∧
        setClval12 (setClval12 fat c v) d w = setClval12 (setClval12 fat d w) c v) ∧
      setClval12 fat c (getClval12 fat c) = fat ∧
      (0 ≤ fatIndex c ∧ fatIndex c + 1 < 9 * 512) ∧
      (∀ i, i ≠ fatIndex c → i ≠ fatIndex c + 1 → setClval12 fat c v i = fat i) ∧
      ∀ fat' : FatTable, fat' (fatIndex c) = fat (fatIndex c) →
        fat' (fatIndex c + 1) = fat (fatIndex c + 1) → getClval12 fat' c = getClval12 fat c := by
  refine ⟨?_, fun hne => ⟨?_, setClval12_comm hne v w⟩, setClval12_get hbyte c, ?_, ?_, ?_⟩
  · rw [getClval12_set, if_pos rfl, Nat.mod_eq_of_lt hv]
  · rw [getClval12_set, if_neg hne]
  · rw [fatIndex, Int.tdiv_eq_ediv_of_nonneg (by omega)]
    omega
  · intro i h0 h1
    rw [setClval12]
    split <;> rw [FatTable.put, if_neg h1, FatTable.put, if_neg h0]
  · intro fat' h0 h1
    simp only [getClval12, h0, h1]

theorem clval12_codec_neighbours :
    let fat : FatTable := fun _ => 0xab
    getClval12 (setClval12 fat 340 0x123) 340 = 0x123 ∧
      getClval12 (setClval12 fat 341 0x123) 340 = getClval12 fat 340 ∧
      fatIndex 341 + 1 = 512 := by
  refine ⟨(clval12_codec _ (fun _ => by decide) 340 341 0x123 0 ?_ ?_).1,
    ((clval12_codec _ (fun _ => by decide) 341 340 0x123 0 ?_ ?_).2.1 ?_).1, rfl⟩ <;> decide

/-! ## Chains -/

/-- The last cluster of the disk; the sector of cluster `c` is `c + 31`. -/
def lastCluster : Nat := totalSect - 32

theorem nextCluster12_data (h2 : 2 ≤ c) (hle : c ≤ lastCluster) :
    nextCluster12 fat c = getClval12 fat c := by
  have hlast : lastCluster = 2848 := rfl
  rw [nextCluster12, if_neg (by omega), if_neg (by omega), if_pos (by omega)]

/-- The clusters met from `c` on are `l`; they are all on the disk. -/
structure Chain (fat : FatTable) (c : Nat) (l : List Nat) : Prop where
  linked : Linked (fun x : Nat => nextCluster12 fat x) (fun x => 0xff8 ≤ x) c l
  inside : ∀ x ∈ l, 2 ≤ x ∧ x ≤ lastCluster

namespace Chain

variable {fat fat' : FatTable} {c x cl : Nat} {l l' : List Nat}

theorem nodup (h : Chain fat c l) : l.Nodup := h.linked.nodup

theorem tail (h : Chain fat c (x :: l)) : Chain fat (getClval12 fat x) l := by
  have hx := h.inside x mem_cons_self
  refine ⟨?_, (forall_mem_cons.mp h.inside).2⟩
  rw [← nextCluster12_data hx.1 hx.2]
  exact h.linked.2.2

/-- A cluster of a chain is not free: its value is another cluster of the chain or an end mark. -/
theorem ne_zero (h : Chain fat c l) (hx : x ∈ l) : getClval12 fat x ≠ 0 := by
  obtain ⟨a, b, rfl⟩ := append_of_mem hx
  have htail : Chain fat (getClval12 fat x) b :=
    tail (c := x) ⟨h.linked.drop, (forall_mem_append.mp h.inside).2⟩
  rcases htail.linked.stop_or_mem with hstop | hmem
  · omega
  · have := htail.inside _ hmem
    omega

theorem congr (h : Chain fat c l) (hag : ∀ x ∈ l, getClval12 fat' x = getClval12 fat x) :
    Chain fat' c l := by
  refine ⟨h.linked.congr fun x hx => ?_, h.inside⟩
  obtain ⟨h2, hle⟩ := h.inside x hx
  rw [nextCluster12_data h2 hle, nextCluster12_data h2 hle, hag x hx]

theorem length_le (h : Chain fat c l) : l.length ≤ lastCluster := by
  have hsub : l ⊆ List.range' 2 (lastCluster - 1) := fun x hx => by
    have := h.inside x hx
    rw [mem_range'_1]
    omega
  have := (subperm_of_subset h.nodup hsub).length_le
  rw [length_range'] at this
  omega

theorem head_eq (h : Chain fat c l) (hne : l ≠ []) : l.head hne = c := by
  cases l with
  | nil => exact absurd rfl hne
  | cons y l => exact h.linked.1.symm

theorem single (h2 : 2 ≤ cl) (hle : cl ≤ lastCluster) (hend : getClval12 fat cl = 0xfff) :
    Chain fat cl [cl] := by
  have hlast : lastCluster = 2848 := rfl
  refine ⟨⟨rfl, by omega, ?_⟩, fun x hx => ?_⟩
  · change 0xff8 ≤ nextCluster12 fat cl
    rw [nextCluster12_data h2 hle, hend]
    omega
  · obtain rfl := mem_singleton.mp hx
    exact ⟨h2, hle⟩

theorem snoc (h : Chain fat c (l ++ [x])) (h2 : 2 ≤ cl) (hle : cl ≤ lastCluster)
    (hx : getClval12 fat' x = cl) (hend : getClval12 fat' cl = 0xfff)
    (hag : ∀ y ∈ l, getClval12 fat' y = getClval12 fat y) : Chain fat' c (l ++ [x, cl]) := by
  have hin := h.inside x (mem_append_right _ (mem_singleton_self x))
  obtain ⟨hl, -⟩ := forall_mem_append.mp h.inside
  refine ⟨h.linked.splice (fun y hy => ?_) ?_, forall_mem_append.mpr ⟨hl, ?_⟩⟩
  · have hy' := h.inside y (mem_append_left _ hy)
    rw [nextCluster12_data hy'.1 hy'.2, nextCluster12_data hy'.1 hy'.2, hag y hy]
  · rw [nextCluster12_data hin.1 hin.2, hx]
    exact (single h2 hle hend).linked
  · exact forall_mem_cons.mpr ⟨hin, forall_mem_singleton.mpr ⟨h2, hle⟩⟩

theorem last (h : Chain fat c (l ++ [x])) : 0xff8 ≤ getClval12 fat x := by
  have hx := h.inside x (mem_append_right _ (mem_singleton_self x))
  have hstop : 0xff8 ≤ nextCluster12 fat x := (Linked.drop h.linked).2.2
  rwa [nextCluster12_data hx.1 hx.2] at hstop

theorem next_eq : ∀ {l : List Nat} {c i : Nat}, Chain fat c l → (hi : i + 1 < l.length) →
    getClval12 fat l[i] = l[i + 1]
  | [], _, _, _, hi => absurd hi (Nat.not_lt_zero _)
  | [y], _, i, _, hi => absurd hi (by simp)
  | y :: z :: l, _, 0, h, _ => h.tail.linked.1
  | y :: z :: l, _, i + 1, h, hi => next_eq h.tail (Nat.lt_of_succ_lt_succ hi)

theorem clusterAt16_eq : ∀ {l : List Nat} {c i : Nat}, Chain fat c l → (hi : i < l.length) →
    clusterAt16 fat i c = l[i]
  | [], _, _, _, hi => absurd hi (Nat.not_lt_zero _)
  | y :: l, c, 0, h, _ => h.linked.1
  | y :: l, c, i + 1, h, hi => by
    obtain rfl : c = y := h.linked.1
    have hc := h.inside c mem_cons_self
    have hstep : stepCluster16 fat c = getClval12 fat c := by
      rw [stepCluster16, if_neg (by omega), if_neg (by omega), nextCluster12_data hc.1 hc.2]
    rw [clusterAt16, hstep]
    exact clusterAt16_eq h.tail (Nat.lt_of_succ_lt_succ hi)

theorem clusterAt_eq : ∀ {l : List Nat} {c i : Nat}, Chain fat c l → (hi : i < l.length) →
    clusterAt fat i c = l[i]
  | [], _, _, _, hi => absurd hi (Nat.not_lt_zero _)
  | y :: l, c, 0, h, _ => congrArg Nat.cast h.linked.1
  | y :: l, c, i + 1, h, hi => by
    obtain rfl : c = y := h.linked.1
    have hc := h.inside c mem_cons_self
    have hstep : stepCluster fat c = getClval12 fat c := by
      rw [stepCluster, if_neg (by omega), if_neg (by omega), nextCluster12_data hc.1 hc.2]
    rw [clusterAt, hstep]
    exact clusterAt_eq h.tail (Nat.lt_of_succ_lt_succ hi)

end Chain

/-! ## Freeing and allocating -/

def freeClusters (fat : FatTable) : Finset Nat :=
  (Finset.Icc 2 lastCluster).filter fun c => getClval12 fat c = 0

theorem mem_freeClusters :
    c ∈ freeClusters fat ↔ (2 ≤ c ∧ c ≤ lastCluster) ∧ getClval12 fat c = 0 := by
  rw [freeClusters, Finset.mem_filter, Finset.mem_Icc]

/-- **`alloc_block12`**: the first cluster with the value 0 becomes the end of a chain. It is on the
    disk if the disk has a free cluster. -/
theorem allocBlock12_cases (fat : FatTable) :
    ((allocBlock12 fat).1 = 0 ∧ (allocBlock12 fat).2 = fat ∧
        ∀ c, 2 ≤ c → c < totalSect → getClval12 fat c ≠ 0) ∨
      ∃ c : Nat, 2 ≤ c ∧ c < totalSect ∧ getClval12 fat c = 0 ∧
        (∀ b : Nat, 2 ≤ b → b < c → getClval12 fat b ≠ 0) ∧
        allocBlock12 fat = (c, setClval12 fat c 0xfff) := by
  unfold allocBlock12
  cases hfind : (List.range' 2 (totalSect - 2)).find? fun (i : Nat) => getClval12 fat i == 0 with
  | none =>
    refine .inl ⟨rfl, rfl, fun c h2 hlt hzero => ?_⟩
    have := find?_eq_none.mp hfind c (mem_range'_1.mpr ⟨h2, by omega⟩)
    simp [hzero] at this
  | some c =>
    obtain ⟨hzero, hmem, hbefore⟩ := find?_range'_eq_some.mp hfind
    have hrange := mem_range'_1.mp hmem
    refine .inr ⟨c, hrange.1, by omega, by simpa using hzero, fun b h2 hb => ?_, rfl⟩
    simpa using hbefore b h2 hb

/-- The table has no free value behind the last cluster. -/
def TailUsed (fat : FatTable) : Prop :=
  ∀ c ∈ Finset.Ioo lastCluster totalSect, getClval12 fat (c : Nat) ≠ 0

instance (fat : FatTable) : Decidable (TailUsed fat) :=
  inferInstanceAs (Decidable (∀ c ∈ Finset.Ioo lastCluster totalSect, getClval12 fat (c : Nat) ≠ 0))

theorem allocBlock12_disk (h : TailUsed fat ∨ (freeClusters fat).Nonempty) :
    ((allocBlock12 fat).1 = 0 ∧ freeClusters fat = ∅) ∨
      ∃ c ∈ freeClusters fat, allocBlock12 fat = (c, setClval12 fat c 0xfff) := by
  have hlast : lastCluster = 2848 := rfl
  have htotal : totalSect = 2880 := rfl
  rcases allocBlock12_cases fat with ⟨h0, -, hnone⟩ | ⟨c, h2, hlt, hzero, hfirst, heq⟩
  · refine .inl ⟨h0, Finset.eq_empty_of_forall_notMem fun c hc => ?_⟩
    obtain ⟨hrange, hc0⟩ := mem_freeClusters.mp hc
    exact hnone c hrange.1 (by omega) hc0
  refine .inr ⟨c, mem_freeClusters.mpr ⟨⟨h2, ?_⟩, hzero⟩, heq⟩
  by_contra hgt
  rcases h with htail | ⟨b, hb⟩
  · exact htail c (Finset.mem_Ioo.mpr ⟨by omega, hlt⟩) hzero
  · obtain ⟨hrange, hb0⟩ := mem_freeClusters.mp hb
    exact hfirst b hrange.1 (by omega) hb0

theorem freeClusters_set : freeClusters (setClval12 fat c 0xfff) = (freeClusters fat).erase c := by
  ext b
  rw [Finset.mem_erase, mem_freeClusters, mem_freeClusters, getClval12_set]
  by_cases hb : b = c
  · simp [hb]
  · simp [hb]

end AtomOs
