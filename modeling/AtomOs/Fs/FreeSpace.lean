import AtomOs.Fs.Chains

/-!
# How much room the disk has

Two functions of `base/fat12.c` look for free clusters. `alloc_block12` takes the first value 0 below
`total_sect / spc`, and `fat12_vfs_statvfs` counts the values 0 below `total_sect - 33 + 2`, which is
where the clusters of the disk end. The 31 values between the two bounds belong to no sector. The two
functions agree just if none of them is 0 (**`alloc_within_disk`**); if one is, `alloc_block12` gives
out a cluster behind the disk once the clusters of the disk are used up (`alloc_behind_disk`).

Each successful call takes one value 0 away, so the number of calls that succeed is the number of values
0 below `total_sect`, whatever the table holds (`allocTimes_iff`); the rest is counting.
-/

namespace AtomOs

open Lib Finset

/-! ## Counting -/

/-- The counters of `fat12_vfs_statvfs`. -/
structure ClusterCount where
  free : Nat
  bad : Nat
  used : Nat
deriving DecidableEq

/-- The loop of `fat12_vfs_statvfs`, over `n` clusters from `i` on. -/
def countFrom (fat : FatTable) : Nat → Nat → ClusterCount → ClusterCount
  | 0, _, k => k
  | n + 1, i, k =>
    let clval := getClval12 fat (i : Nat)
    countFrom fat n (i + 1)
      (if clval = 0 then { k with free := k.free + 1 }
      else if clval = 0xff7 then { k with bad := k.bad + 1 }
      else { k with used := k.used + 1 })

/-- The counters of `fat12_vfs_statvfs` at the end of its loop, `i < total_sect - 33 + 2`. The record it
    fills in afterwards has no field for the free ones. -/
def statvfsCount (fat : FatTable) : ClusterCount := countFrom fat (totalSect - 33) 2 ⟨0, 0, 0⟩

theorem countFrom_free (fat : FatTable) (n i : Nat) (k : ClusterCount) :
    (countFrom fat n i k).free =
      k.free + ((Finset.Ico i (i + n)).filter fun c : Nat => getClval12 fat c = 0).card := by
  induction n generalizing i k with
  | zero => simp [countFrom]
  | succ n ih =>
    have hsplit : Finset.Ico i (i + (n + 1)) = insert i (Finset.Ico (i + 1) (i + 1 + n)) := by
      ext c
      simp only [mem_Ico, mem_insert]
      omega
    rw [countFrom, ih, hsplit, filter_insert]
    by_cases h0 : getClval12 fat (i : Nat) = 0
    · rw [if_pos h0, if_pos h0, card_insert_of_notMem (by simp)]
      simp only
      omega
    · rw [if_neg h0, if_neg h0]
      split <;> rfl

theorem statvfsCount_free (fat : FatTable) : (statvfsCount fat).free = (freeClusters fat).card := by
  rw [statvfsCount, countFrom_free]
  simp only [Nat.zero_add]
  rfl

/-! ## Allocating -/

/-- `n` calls of `alloc_block12` that all give out a cluster. -/
def allocTimes : Nat → FatTable → Option FatTable
  | 0, fat => some fat
  | n + 1, fat => if (allocBlock12 fat).1 = 0 then none else allocTimes n (allocBlock12 fat).2

/-- All values 0 that `alloc_block12` looks at, on the disk and behind it. -/
def zeroValues (fat : FatTable) : Finset Nat :=
  (Finset.Ico 2 totalSect).filter fun c => getClval12 fat c = 0

theorem mem_zeroValues {fat : FatTable} {c : Nat} :
    c ∈ zeroValues fat ↔ (2 ≤ c ∧ c < totalSect) ∧ getClval12 fat c = 0 := by
  rw [zeroValues, mem_filter, mem_Ico]

theorem zeroValues_set (fat : FatTable) (c : Nat) :
    zeroValues (setClval12 fat c 0xfff) = (zeroValues fat).erase c := by
  ext b
  rw [mem_erase, mem_zeroValues, mem_zeroValues, getClval12_set]
  by_cases hb : b = c <;> simp [hb]

theorem allocBlock12_zeroValues (fat : FatTable) :
    ((allocBlock12 fat).1 = 0 ∧ zeroValues fat = ∅) ∨
      ∃ c ∈ zeroValues fat, c ≠ 0 ∧ allocBlock12 fat = (c, setClval12 fat c 0xfff) := by
  rcases allocBlock12_cases fat with ⟨h0, -, hnone⟩ | ⟨c, h2, hlt, hzero, -, heq⟩
  · refine .inl ⟨h0, eq_empty_of_forall_notMem fun c hc => ?_⟩
    obtain ⟨hrange, hc0⟩ := mem_zeroValues.mp hc
    exact hnone c hrange.1 hrange.2 hc0
  · exact .inr ⟨c, mem_zeroValues.mpr ⟨⟨h2, hlt⟩, hzero⟩, by omega, heq⟩

theorem allocTimes_iff (n : Nat) (fat : FatTable) :
    (∃ fat', allocTimes n fat = some fat' ∧ (allocBlock12 fat').1 = 0) ↔
      n = (zeroValues fat).card := by
  induction n generalizing fat with
  | zero =>
    simp only [allocTimes, Option.some.injEq, exists_eq_left']
    rcases allocBlock12_zeroValues fat with ⟨h0, hempty⟩ | ⟨c, hc, hc0, heq⟩
    · simp [h0, hempty]
    · have hpos := card_pos.mpr ⟨c, hc⟩
      simp only [heq, hc0, false_iff]
      omega
  | succ n ih =>
    rw [allocTimes]
    rcases allocBlock12_zeroValues fat with ⟨h0, hempty⟩ | ⟨c, hc, hc0, heq⟩
    · simp [h0, hempty]
    · have hpos := card_pos.mpr ⟨c, hc⟩
      simp only [heq, if_neg hc0]
      rw [ih, zeroValues_set, card_erase_of_mem hc]
      omega

/-- The values 0 are as many as the free clusters just if none of them is behind the disk. -/
theorem card_freeClusters_eq_iff (fat : FatTable) :
    (freeClusters fat).card = (zeroValues fat).card ↔ TailUsed fat := by
  have hlast : lastCluster = 2848 := rfl
  have htotal : totalSect = 2880 := rfl
  have hsub : freeClusters fat ⊆ zeroValues fat := by
    intro c hc
    obtain ⟨hrange, h0⟩ := mem_freeClusters.mp hc
    exact mem_zeroValues.mpr ⟨by omega, h0⟩
  constructor
  · intro hcard c hc h0
    rw [mem_Ioo] at hc
    have hmem : c ∈ zeroValues fat := mem_zeroValues.mpr ⟨by omega, h0⟩
    rw [← eq_of_subset_of_card_le hsub hcard.ge] at hmem
    have := (mem_freeClusters.mp hmem).1
    omega
  · intro htail
    refine congrArg card (hsub.antisymm fun c hc => ?_)
    obtain ⟨hrange, h0⟩ := mem_zeroValues.mp hc
    refine mem_freeClusters.mpr ⟨⟨hrange.1, ?_⟩, h0⟩
    by_contra hgt
    exact htail c (mem_Ioo.mpr ⟨by omega, hrange.2⟩) h0

/-- One call: it fails and the disk is full, or it gives out a free cluster of the disk. -/
def AllocOnDisk (fat : FatTable) : Prop :=
  ((allocBlock12 fat).1 = 0 ∧ (∀ c : Nat, 2 ≤ c → c ≤ totalSect - 32 → getClval12 fat c ≠ 0) ∧
      (allocBlock12 fat).2 = fat) ∨
    ((allocBlock12 fat).1 ≠ 0 ∧ getClval12 fat ((allocBlock12 fat).1 : Nat) = 0 ∧
      (allocBlock12 fat).1 + 31 < totalSect ∧
      ∀ b : Nat, getClval12 (allocBlock12 fat).2 b =
        if b = (allocBlock12 fat).1 then 0xfff else getClval12 fat b)

theorem TailUsed.allocOnDisk {fat : FatTable} (htail : TailUsed fat) : AllocOnDisk fat := by
  have hlast : lastCluster = 2848 := rfl
  have htotal : totalSect = 2880 := rfl
  rcases allocBlock12_disk (.inl htail) with ⟨h0, hempty⟩ | ⟨c, hc, heq⟩
  · refine .inl ⟨h0, fun c h2 hle hzero => ?_, ?_⟩
    · have : c ∈ freeClusters fat := mem_freeClusters.mpr ⟨⟨h2, hle⟩, hzero⟩
      rw [hempty] at this
      exact absurd this (notMem_empty c)
    · rcases allocBlock12_cases fat with ⟨-, hsame, -⟩ | ⟨c, h2, -, -, -, heq⟩
      · exact hsame
      · rw [heq] at h0
        omega
  · obtain ⟨⟨h2, hle⟩, hzero⟩ := mem_freeClusters.mp hc
    unfold AllocOnDisk
    rw [heq]
    refine .inr ⟨by omega, hzero, by omega, fun b => ?_⟩
    rw [getClval12_set]

/-- **`alloc_block12` stays on the disk**, and succeeds as often as `fat12_vfs_statvfs` counts free
    clusters, just if the table has no value 0 behind the disk. With such values it succeeds that many
    times more. -/
theorem alloc_within_disk (fat : FatTable) :
    (AllocOnDisk fat ∧
      ∃ fat', allocTimes (statvfsCount fat).free fat = some fat' ∧ (allocBlock12 fat').1 = 0) ↔
      TailUsed fat := by
  rw [allocTimes_iff, statvfsCount_free, card_freeClusters_eq_iff]
  exact and_iff_right_of_imp TailUsed.allocOnDisk

/-- A table with free clusters, and none behind the disk. -/
def freshTable : FatTable := fun i => if i < 4273 then 0 else 0xff

theorem alloc_within_disk_fresh : TailUsed freshTable ∧ (allocBlock12 freshTable).1 + 31 < totalSect ∧
    ∃ fat', allocTimes (statvfsCount freshTable).free freshTable = some fat' ∧
      (allocBlock12 fat').1 = 0 := by
  have htail : TailUsed freshTable := by decide +kernel
  obtain ⟨hcase, hcount⟩ := (alloc_within_disk freshTable).mpr htail
  refine ⟨htail, ?_, hcount⟩
  rcases hcase with ⟨h0, -⟩ | ⟨-, -, hlt, -⟩
  · exact absurd h0 (by decide +kernel)
  · exact hlt

/-- A table whose values up to the last cluster are all in use, and 0 behind it. -/
def fullTable : FatTable := fun i => if i < 4273 then 0xff else if i = 4273 then 0x0f else 0

/-- When the disk is full, `alloc_block12` gives out a cluster behind it. -/
theorem alloc_behind_disk : (statvfsCount fullTable).free = 0 ∧ (allocBlock12 fullTable).1 = 2849 ∧
    ¬ (allocBlock12 fullTable).1 + 31 < totalSect := by
  decide +kernel

end AtomOs
