import Mathlib.Data.List.GetD
import AtomOs.Fs.DirOps
import AtomOs.Fs.FreeSpace
import AtomOs.Fs.Names
import AtomOs.Fs.Tree

/-!
# A directory as a finite map

The slots of a directory that are in use map names to entries; a lookup finds the first slot with
the name (`entryIndex`). Three kinds of change cover what `add_dir_entry`, `delete_dir_entry` and
`update_dir_entry` do: one slot is set, with or without new empty slots behind the old ones
(`SlotSet`), or a block of 16 slots goes (`BlockCut`). For each of them it is said once what becomes
of lookups and of the directory's form.

The result is **`directory_is_map`**. It does not hold for all names the file system accepts: 0xE5
and 0x05 as first character are marks, and so is the attribute 0x0f. An entry with one of them is gone as
soon as it was made (**`added_name_not_found`**), and one that begins with 0x05 on the disk is found as
0xE5 but cannot be deleted. The laws hold just if the entry has no mark, or if there is nothing the calls
can do wrong: the name is not there and `add_dir_entry` is refused.

That `add_dir_entry` may take a cluster behind the disk does not matter here. The block of that cluster is
in the cache, and lookups find the entry there.
-/

namespace AtomOs

open Lib Prog List Dirent Bytes

/-! ## Directories and lookups -/

/-- A directory: the root area or a chain of data clusters, the first of which holds `.` and `..`. No
    slot in use has the name of an entry in another one. -/
structure WellFormedDir (v : Volume) (start : Int) (cs : List Int) : Prop where
  chain : DirChain v.fat start cs
  nonempty : cs ≠ []
  kind : start = -12 ∨ ∀ c ∈ cs, 2 ≤ c
  names : ∀ k m, k < 16 * cs.length → m < 16 * cs.length → m ≠ k → skipped (slot v cs k) = false →
    Dirent.unused (slot v cs m) = false → entryName (slot v cs m) ≠ entryName (slot v cs k)
  dots : start ≠ -12 → entryName (slot v cs 0) = blankTo 11 nameDot ∧
    entryName (slot v cs 1) = blankTo 11 nameDotDot

/-- What the loop of `fat12_vop_lookup` finds for a converted name in the directory at `p`. -/
def lookupIn (s : Fs) (p : Nat) (fname : Bytes) : Option (Option ReadEntry) :=
  findEntry s.toVolume (s.vnodes p).data fname slotFuel 0

def entryIndex (v : Volume) (cs : List Int) (fname : Bytes) : Option Nat :=
  firstFrom (fun k => isEntry fname (slot v cs k)) 0 (16 * cs.length)

/-- A lookup finds the 32 bytes of `dent`. -/
def Finds (s : Fs) (p : Nat) (fname dent : Bytes) : Prop :=
  ∃ e, lookupIn s p fname = some (some e) ∧ SameEntry dent e.dent

/-- A lookup finds the same before and after, as far as `R` says. -/
def LookupKept (R : ReadEntry → ReadEntry → Prop) (s t : Fs) (p : Nat) (fname : Bytes) : Prop :=
  ∃ e e', lookupIn s p fname = some e ∧ lookupIn t p fname = some e' ∧ Option.Rel R e e'

/-- A name whose first character is no mark. -/
structure PlainName (fname : Bytes) : Prop where
  notDeleted : fname 0 ≠ 0xE5
  notCoded : fname 0 ≠ 0x05
  nonzero : fname 0 ≠ 0

def SameDent (e e' : ReadEntry) : Prop := SameEntry e.dent e'.dent

def Unmoved (e e' : ReadEntry) : Prop := e'.off = e.off ∧ SameEntry e.dent e'.dent

theorem LookupKept.sameDent {s t : Fs} {p : Nat} {fname : Bytes} (h : LookupKept Unmoved s t p fname) :
    LookupKept SameDent s t p fname := by
  obtain ⟨e, e', he, he', hrel⟩ := h
  refine ⟨e, e', he, he', ?_⟩
  cases hrel with
  | some h => exact .some h.2
  | none => exact .none

theorem startCluster_rename {d name : Bytes} : startCluster (d.copy 0 11 name) = startCluster d :=
  startCluster_congr fun i h _ => copy_out (by omega)

theorem entryName_rename {d name : Bytes} : entryName (d.copy 0 11 name) = entryName name :=
  entryName_congr fun i h => by rw [← Nat.zero_add i, copy_in h, Nat.zero_add]

section lookups

variable {s : Fs} {v : Volume} {p k m : Nat} {fname other d d' : Bytes} {start : Int} {cs : List Int}

theorem lookupIn_eq (hrow : DirRow s.toVolume (startCluster (s.vnodes p).data) cs) (hne : cs ≠ [])
    (fname : Bytes) :
    lookupIn s p fname = some ((entryIndex s.toVolume cs fname).map (entryAt s.toVolume cs)) := by
  have hlen := hrow.length_le
  have hfind := findEntry_eq hrow hne fname (i := 0) (Nat.zero_le _)
    (show 16 * cs.length < 0 + slotFuel by rw [slotFuel]; omega)
  rwa [Nat.mul_zero] at hfind

section

variable (h : SameEntry d d')
include h

theorem SameEntry.copied : SameEntry (copied d) (copied d') := by
  intro i hi
  unfold AtomOs.copied
  rw [h 0 (by omega)]
  split
  · by_cases h0 : i = 0
    · rw [h0, put_same, put_same]
    · rw [put_ne h0, put_ne h0, h i hi]
  · exact h i hi

theorem SameEntry.unused : unused d' = unused d :=
  unused_congr fun i hi => h i (by omega)

theorem SameEntry.skipped : skipped d' = skipped d :=
  skipped_congr fun i hi => h i (by omega)

theorem SameEntry.entryName : entryName d' = entryName d :=
  entryName_congr fun i hi => h i (by omega)

theorem SameEntry.isEntry : isEntry fname d' = isEntry fname d := by
  have hname : sameName (AtomOs.copied d') fname = sameName (AtomOs.copied d) fname := by
    rw [Bool.eq_iff_iff, sameName_iff, sameName_iff, h.copied.entryName]
  rw [AtomOs.isEntry, AtomOs.isEntry, h.skipped, hname]

end

theorem isEntry_of_unused (h : unused d = true) : isEntry fname d = false := by
  rw [isEntry, skipped, h]
  rfl

theorem entryName_head (h : entryName d = entryName d') : d 0 = d' 0 := by
  by_contra hne
  exact nameFrom_ne hne h

theorem isEntry_of_coded (h : fname 0 = 0x05) : isEntry fname d = false := by
  rw [isEntry, Bool.and_eq_false_iff]
  refine .inr (Bool.eq_false_iff.mpr fun hsame => ?_)
  have hhead := (entryName_head (sameName_iff.mp hsame)).trans h
  by_cases hd : d 0 = 0x05
  · rw [copied, if_pos hd, put_same] at hhead
    exact absurd hhead (by decide)
  · rw [copied_eq hd] at hhead
    exact hd hhead

theorem isEntry_of_mark (hname : entryName d = entryName fname)
    (hmark : fname 0 = 0xE5 ∨ fname 0 = 0x05 ∨ d 11 = 0x0f) : isEntry fname d = false := by
  rcases hmark with hE5 | h05 | hattr
  · refine isEntry_of_unused ?_
    rw [unused, (entryName_head hname).trans hE5]
    rfl
  · exact isEntry_of_coded h05
  · rw [isEntry, skipped, hattr]
    simp

/-- For a name that does not begin with a mark, a lookup compares the bytes of the slot. -/
theorem PlainName.isEntry_iff (h : PlainName fname) :
    isEntry fname d = true ↔ skipped d = false ∧ entryName d = entryName fname := by
  rw [isEntry, Bool.and_eq_true, Bool.not_eq_true', sameName_iff]
  refine and_congr Iff.rfl ?_
  by_cases hd : d 0 = 0x05
  · have hcopied : copied d 0 = 0xE5 := by rw [copied, if_pos hd, put_same]
    refine ⟨fun hname => ?_, fun hname => ?_⟩
    · exact absurd ((entryName_head hname).symm.trans hcopied) h.notDeleted
    · exact absurd ((entryName_head hname).symm.trans hd) h.notCoded
  · rw [copied_eq hd]

section

variable (h : PlainName fname) (hname : entryName d = entryName fname)
include h hname

theorem PlainName.unused : Dirent.unused d = false := by
  rw [Dirent.unused, entryName_head hname]
  simp [h.notDeleted, h.nonzero]

theorem PlainName.isEntry_other
    (hother : entryName other ≠ entryName fname) : isEntry other d = false := by
  have h05 : d 0 ≠ 0x05 := fun hd => h.notCoded ((entryName_head hname).symm.trans hd)
  rw [isEntry, copied_eq h05, Bool.and_eq_false_iff]
  refine .inr (Bool.eq_false_iff.mpr fun hsame => hother ?_)
  rw [← sameName_iff.mp hsame, hname]

theorem PlainName.isEntry (hattr : d 11 ≠ 0x0f) : isEntry fname d = true := by
  refine h.isEntry_iff.mpr ⟨?_, hname⟩
  rw [skipped, h.unused hname, Bool.false_or, beq_eq_false_iff_ne]
  exact hattr

end

theorem entryIndex_eq_some (hfind : entryIndex v cs fname = some k) :
    k < 16 * cs.length ∧ isEntry fname (slot v cs k) = true ∧
      ∀ m, m < k → isEntry fname (slot v cs m) = false := by
  obtain ⟨-, hlt, hk, hbefore⟩ := firstFrom_eq_some.mp hfind
  exact ⟨hlt, hk, fun m hm => hbefore m (Nat.zero_le m) hm⟩

namespace WellFormedDir

section

variable (h : WellFormedDir v start cs) (hplain : PlainName fname)
  (hfind : entryIndex v cs fname = some k)
include h hplain hfind

theorem name_unique (hm : m < 16 * cs.length)
    (hname : entryName (slot v cs m) = entryName fname) : m = k := by
  obtain ⟨hlt, hk, -⟩ := entryIndex_eq_some hfind
  obtain ⟨hused, hkname⟩ := hplain.isEntry_iff.mp hk
  by_contra hne
  exact h.names k m hlt hm hne hused (hplain.unused hname) (hname.trans hkname.symm)

theorem not_isEntry (hm : m < 16 * cs.length) (hne : m ≠ k) : isEntry fname (slot v cs m) = false :=
  Bool.eq_false_iff.mpr fun hentry =>
    hne (h.name_unique hplain hfind hm (hplain.isEntry_iff.mp hentry).2)

theorem nameIndex :
    firstFrom (fun m => sameName (slot v cs m) fname) 0 (16 * cs.length) = some k := by
  obtain ⟨hlt, hk, -⟩ := entryIndex_eq_some hfind
  refine firstFrom_eq_some.mpr ⟨Nat.zero_le k, hlt, sameName_iff.mpr (hplain.isEntry_iff.mp hk).2,
    fun m _ hmk => ?_⟩
  rw [Bool.eq_false_iff]
  intro hsame
  have := h.name_unique hplain hfind (by omega) (sameName_iff.mp hsame)
  omega

end

/-- The slots of `.` and `..` are in use, and no other name is theirs. -/
theorem dot_slot (h : WellFormedDir v start cs) (hroot : start ≠ -12) (hm : m ≤ 1) :
    slot v cs m 0 = 46 := by
  have hdot : entryName (slot v cs m) = blankTo 11 nameDot ∨
      entryName (slot v cs m) = blankTo 11 nameDotDot := by
    rcases Nat.le_one_iff_eq_zero_or_eq_one.mp hm with rfl | rfl
    · exact .inl (h.dots hroot).1
    · exact .inr (h.dots hroot).2
  have hne : slot v cs m 0 ≠ 0 := by
    intro hzero
    rw [entryName, nameFrom_zero hzero] at hdot
    rcases hdot with hdot | hdot <;> exact absurd hdot (by decide)
  rw [entryName, nameFrom_cons hne] at hdot
  rcases hdot with hdot | hdot <;> exact (List.cons.inj hdot).1

theorem emptied_pos (h : WellFormedDir v start cs) (hk : Emptied v cs k) : 0 < k / 16 := by
  by_contra hpos
  obtain ⟨hdata, hunused⟩ := hk
  rw [show k / 16 = 0 by omega] at hdata hunused
  -- the first cluster is no cluster of the root area, so it holds `.` and `..`
  have hroot : start ≠ -12 := by
    rintro rfl
    cases cs with
    | nil => exact h.nonempty rfl
    | cons c cs =>
      rw [getD_cons_zero, ← h.chain.linked.1] at hdata
      omega
  have hdot : ∀ j, j ≤ 1 → unused (slot v cs j) = false := fun j hj => by
    rw [unused, h.dot_slot hroot hj]
    rfl
  by_cases h0 : k % 16 = 0
  · have := hunused 1 (by omega) (by omega)
    rw [hdot 1 (by omega)] at this
    exact Bool.noConfusion this
  · have := hunused 0 (by omega) (fun h => h0 h.symm)
    rw [hdot 0 (by omega)] at this
    exact Bool.noConfusion this

theorem emptied_data (h : WellFormedDir v start cs) (hlt : k < 16 * cs.length) (hk : Emptied v cs k) :
    ∀ c ∈ cs, 2 ≤ c := by
  rcases h.kind with hroot | hdata
  · have := h.chain.root_le (by omega) _ (mem_clusterOf hlt)
    have := hk.1
    omega
  · exact hdata

end WellFormedDir

end lookups

/-! ## One slot is set -/

/-- Slot `k` now holds `dent`; the slots behind the old ones are empty. -/
structure SlotSet (v v' : Volume) (cs cs' : List Int) (k : Nat) (dent : Bytes) : Prop where
  lt : k < 16 * cs'.length
  le : cs.length ≤ cs'.length
  new : SameEntry dent (slot v' cs' k)
  old : ∀ m, m < 16 * cs.length → m ≠ k → SameEntry (slot v cs m) (slot v' cs' m)
  rest : ∀ m, 16 * cs.length ≤ m → m < 16 * cs'.length → m ≠ k → Dirent.unused (slot v' cs' m) = true

namespace SlotSet

variable {v v' : Volume} {cs cs' : List Int} {k : Nat} {dent fname : Bytes} {start : Int}

section

variable (h : SlotSet v v' cs cs' k dent)
include h

theorem index_other
    (hold : k < 16 * cs.length → isEntry fname (slot v cs k) = false) (hnew : isEntry fname dent = false) :
    entryIndex v' cs' fname = entryIndex v cs fname := by
  have hle := h.le
  refine firstFrom_extend (by omega) (fun j _ hj => ?_) fun j hj hj' => ?_
  · by_cases hjk : j = k
    · subst hjk
      rw [h.new.isEntry, hnew, hold hj]
    · rw [(h.old j hj hjk).isEntry]
  · by_cases hjk : j = k
    · subst hjk
      rw [h.new.isEntry, hnew]
    · exact isEntry_of_unused (h.rest j hj hj' hjk)

theorem index_same (hnew : isEntry fname dent = true)
    (hold : ∀ m, m < 16 * cs.length → m ≠ k → isEntry fname (slot v cs m) = false) :
    entryIndex v' cs' fname = some k := by
  refine firstFrom_eq_some.mpr ⟨Nat.zero_le k, h.lt, h.new.isEntry.trans hnew, fun m _ hmk => ?_⟩
  have hlt := h.lt
  by_cases hm : m < 16 * cs.length
  · rw [(h.old m hm (by omega)).isEntry, hold m hm (by omega)]
  · exact isEntry_of_unused (h.rest m (by omega) (by omega) (by omega))

theorem index_none (hnew : isEntry fname dent = false)
    (hold : ∀ m, m < 16 * cs.length → m ≠ k → isEntry fname (slot v cs m) = false) :
    entryIndex v' cs' fname = none := by
  refine firstFrom_eq_none.mpr fun m _ hm' => ?_
  by_cases hmk : m = k
  · subst hmk
    rw [h.new.isEntry, hnew]
  · by_cases hm : m < 16 * cs.length
    · rw [(h.old m hm hmk).isEntry, hold m hm hmk]
    · exact isEntry_of_unused (h.rest m (by omega) hm' hmk)

theorem unmoved
    (hold : k < 16 * cs.length → isEntry fname (slot v cs k) = false) (hnew : isEntry fname dent = false) :
    Option.Rel Unmoved ((entryIndex v cs fname).map (entryAt v cs))
      ((entryIndex v' cs' fname).map (entryAt v' cs')) := by
  rw [h.index_other hold hnew]
  cases hfind : entryIndex v cs fname with
  | none => exact .none
  | some j =>
    obtain ⟨hlt, hj, -⟩ := entryIndex_eq_some hfind
    have hjk : j ≠ k := by
      rintro rfl
      rw [hold hlt] at hj
      exact Bool.noConfusion hj
    exact .some ⟨rfl, (h.old j hlt hjk).copied⟩

theorem wellFormed (hwf : WellFormedDir v start cs)
    (hchain : DirChain v'.fat start cs') (hkind : start = -12 ∨ ∀ c ∈ cs', 2 ≤ c)
    (hname : unused dent = true ∨ ∀ m, m < 16 * cs.length → m ≠ k →
      unused (slot v cs m) = false → entryName (slot v cs m) ≠ entryName dent)
    (hdots : start ≠ -12 → 1 < k) : WellFormedDir v' start cs' := by
  have hpos := length_pos_iff.mpr hwf.nonempty
  have hle := h.le
  -- a slot in use is an old one or the new one
  have hold : ∀ m, m < 16 * cs'.length → m ≠ k → unused (slot v' cs' m) = false →
      m < 16 * cs.length := fun m hm hmk hused => by
    by_contra hge
    rw [h.rest m (by omega) hm hmk] at hused
    exact Bool.noConfusion hused
  refine ⟨hchain, length_pos_iff.mp (by omega), hkind, fun i m hi hm hne hused hunused => ?_,
    fun hroot => ?_⟩
  · have hiused := unused_of_skipped hused
    by_cases hik : i = k
    · subst hik
      have hmlt := hold m hm hne hunused
      have hm' := h.old m hmlt hne
      rw [h.new.unused] at hiused
      rw [hm'.unused] at hunused
      rw [hm'.entryName, h.new.entryName]
      rcases hname with hname | hname
      · rw [hname] at hiused
        exact Bool.noConfusion hiused
      · exact hname m hmlt hne hunused
    · have hilt := hold i hi hik hiused
      have hi' := h.old i hilt hik
      rw [hi'.entryName]
      by_cases hmk : m = k
      · subst hmk
        rw [h.new.unused] at hunused
        rw [hi'.unused] at hiused
        rw [h.new.entryName]
        rcases hname with hname | hname
        · rw [hname] at hunused
          exact Bool.noConfusion hunused
        · exact (hname i hilt hik hiused).symm
      · have hmlt := hold m hm hmk hunused
        have hm' := h.old m hmlt hmk
        rw [hi'.skipped] at hused
        rw [hm'.unused] at hunused
        rw [hm'.entryName]
        exact hwf.names i m hilt hmlt hne hused hunused
  · rw [(h.old 0 (by omega) (by omega)).entryName, (h.old 1 (by omega) (by omega)).entryName]
    exact hwf.dots hroot

end

end SlotSet

section operations

variable {s : Fs} {p k : Nat} {dent : Bytes} {start : Int} {cs : List Int}

theorem slotSet_setSlot (h : DirChain s.fat start cs) (hk : k < 16 * cs.length) (dent : Bytes) :
    SlotSet s.toVolume (s.setSlot cs k dent).toVolume cs cs k dent := by
  refine ⟨hk, Nat.le_refl _, slot_setSlot_same, fun m hm hmk => slot_setSlot_ne fun hsector => ?_,
    fun m hm hm' => by omega⟩
  have := h.block_eq hk hm hsector
  omega

theorem slotSet_eraseSlot (h : DirChain s.fat start cs) (hk : k < 16 * cs.length) :
    SlotSet s.toVolume (s.eraseSlot cs k).toVolume cs cs k ((slot s.toVolume cs k).put 0 0xE5) := by
  refine ⟨hk, Nat.le_refl _, fun i hi => ?_, fun m hm hmk i hi => ?_, fun m hm hm' => by omega⟩
  · rw [Fs.eraseSlot, slot_setSector, if_pos rfl, skip, put, put]
    by_cases h0 : i = 0
    · rw [if_pos (by omega), if_pos h0]
    · rw [if_neg (by omega), if_neg h0]
      rfl
  · rw [Fs.eraseSlot, slot_setSector]
    by_cases hsector : sectorOf (cs.getD (m / 16) 0) = sectorOf (cs.getD (k / 16) 0)
    · have := h.block_eq hk hm hsector
      rw [if_pos hsector, skip_put_ne (by omega) hi, ← hsector]
      rfl
    · rw [if_neg hsector]

theorem slotSet_extendDir {cl : Nat} {last : Int} (h : DirChain s.fat start cs)
    (hcl : (allocBlock12 s.fat).1 = cl) (hlt : cl < totalSect) (hnot : (cl : Int) ∉ cs)
    (dent : Bytes) : SlotSet s.toVolume (s.extendDir last dent).toVolume cs (cs ++ [(cl : Int)])
      (16 * cs.length) dent := by
  have hlen : (cs ++ [(cl : Int)]).length = cs.length + 1 := by simp
  have hold : ∀ m, m < 16 * cs.length → (cs ++ [(cl : Int)]).getD (m / 16) 0 = cs.getD (m / 16) 0 :=
    fun m hm => by rw [getD_append _ _ _ _ (by omega)]
  have hnew : ∀ m, 16 * cs.length ≤ m → m < 16 * (cs.length + 1) →
      (cs ++ [(cl : Int)]).getD (m / 16) 0 = cl := fun m hm hm' => by
    rw [getD_append_right _ _ _ _ (by omega), show m / 16 - cs.length = 0 by omega]
    rfl
  -- the old slots are in other sectors
  have hapart : ∀ m, m < 16 * cs.length → sectorOf (cs.getD (m / 16) 0) ≠ sectorOf cl := by
    intro m hm hsector
    have hmem := mem_clusterOf hm
    exact hnot (sectorOf_inj (below_total (h.inside _ hmem)) (by omega) hsector ▸ hmem)
  rw [Fs.extendDir, hcl]
  refine ⟨by omega, by omega, fun i hi => ?_, fun m hm hmk i hi => ?_, fun m hm hm' hmk => ?_⟩
  · rw [slot_setSector, hnew _ (by omega) (by omega), if_pos rfl, skip,
      show 32 * (16 * cs.length % 16) + i = 0 + i by omega, copy_in hi]
  · rw [slot_setSector, hold m hm, if_neg (hapart m hm), slot, slot, hold m hm]
  · rw [hlen] at hm'
    rw [slot_setSector, hnew m hm hm', if_pos rfl, unused, skip,
      copy_out (by omega)]
    rfl

end operations

/-! ## A block of slots goes -/

/-- The block with index `i` is gone. -/
structure BlockCut (v v' : Volume) (cs cs' : List Int) (i : Nat) : Prop where
  length : cs.length = cs'.length + 1
  le : i ≤ cs'.length
  before : ∀ m, m < 16 * i → SameEntry (slot v cs m) (slot v' cs' m)
  behind : ∀ m, 16 * i ≤ m → m < 16 * cs'.length → SameEntry (slot v cs (m + 16)) (slot v' cs' m)

namespace BlockCut

variable {v v' : Volume} {cs cs' : List Int} {i : Nat} {fname : Bytes} {start : Int}

/-- Where a slot was before. -/
def place (i m : Nat) : Nat := if m < 16 * i then m else m + 16

theorem place_lt (h : BlockCut v v' cs cs' i) {m : Nat} (hm : m < 16 * cs'.length) :
    place i m < 16 * cs.length := by
  have := h.length
  unfold place
  split <;> omega

theorem place_inj {m n : Nat} (h : place i m = place i n) : m = n := by
  unfold place at h
  split at h <;> split at h <;> omega

section

variable (h : BlockCut v v' cs cs' i)
include h

theorem kept {m : Nat} (hm : m < 16 * cs'.length) :
    SameEntry (slot v cs (place i m)) (slot v' cs' m) := by
  unfold place
  split
  · next hlt => exact h.before m hlt
  · next hge => exact h.behind m (by omega) hm

theorem index (hcut : ∀ m, 16 * i ≤ m → m < 16 * i + 16 → isEntry fname (slot v cs m) = false) :
    entryIndex v cs fname = (entryIndex v' cs' fname).map (place i) := by
  have hle := h.le
  rw [entryIndex, h.length, Nat.mul_add]
  refine firstFrom_cut 16 (fun j hj => ?_) hcut (fun j hj hj' => ?_) (by omega)
  · exact (h.before j hj).isEntry
  · exact (h.behind j hj hj').isEntry

theorem sameDent (hcut : ∀ m, 16 * i ≤ m → m < 16 * i + 16 → isEntry fname (slot v cs m) = false) :
    Option.Rel SameDent ((entryIndex v cs fname).map (entryAt v cs))
      ((entryIndex v' cs' fname).map (entryAt v' cs')) := by
  rw [h.index hcut]
  cases hfind : entryIndex v' cs' fname with
  | none => exact .none
  | some j => exact .some (h.kept (entryIndex_eq_some hfind).1).copied

theorem index_none
    (hnone : ∀ m, m < 16 * cs.length → m < 16 * i ∨ 16 * i + 16 ≤ m → isEntry fname (slot v cs m) = false) :
    entryIndex v' cs' fname = none := by
  refine firstFrom_eq_none.mpr fun m _ hm => ?_
  rw [(h.kept hm).isEntry]
  refine hnone _ (h.place_lt hm) ?_
  unfold place
  split <;> omega

theorem wellFormed (hwf : WellFormedDir v start cs) (hi : 0 < i)
    (hchain : DirChain v'.fat start cs') (hkind : start = -12 ∨ ∀ c ∈ cs', 2 ≤ c) :
    WellFormedDir v' start cs' := by
  have hle := h.le
  refine ⟨hchain, length_pos_iff.mp (by omega), hkind, fun k m hk hm hne hused hunused => ?_,
    fun hroot => ?_⟩
  · have hk' := h.kept hk
    have hm' := h.kept hm
    rw [hk'.skipped] at hused
    rw [hm'.unused] at hunused
    rw [hk'.entryName, hm'.entryName]
    exact hwf.names _ _ (h.place_lt hk) (h.place_lt hm) (fun hp => hne (place_inj hp)) hused hunused
  · rw [(h.before 0 (by omega)).entryName, (h.before 1 (by omega)).entryName]
    exact hwf.dots hroot

end

end BlockCut

theorem blockCut_dropCluster {s : Fs} {start : Int} {cs : List Int} {i : Nat} (fat : FatTable)
    (h : DirChain s.fat start cs) (hlt : i < cs.length) :
    BlockCut s.toVolume (s.dropCluster fat (cs.getD i 0)).toVolume cs (cs.eraseIdx i) i := by
  have hlen : (cs.eraseIdx i).length = cs.length - 1 := length_eraseIdx_of_lt hlt
  -- the sectors of the other clusters are not touched
  have hslot : ∀ m n, m / 16 ≠ i → m < 16 * cs.length → m % 16 = n % 16 →
      (cs.eraseIdx i).getD (n / 16) 0 = cs.getD (m / 16) 0 →
      slot (s.dropCluster fat (cs.getD i 0)).toVolume (cs.eraseIdx i) n = slot s.toVolume cs m := by
    intro m n hblock hm hmod hget
    have hsector : ¬ sectorOf (cs.getD (m / 16) 0) = sectorOf (cs.getD i 0) := fun hsame => by
      refine hblock ?_
      have := h.block_eq (k := 16 * i) (by omega) hm (by rwa [Nat.mul_div_cancel_left i (by omega)])
      omega
    rw [Fs.dropCluster, slot_dropSector (by rwa [hget]), slot, slot, hget, hmod]
  refine ⟨by omega, by omega, fun m hm => ?_, fun m hm hm' => ?_⟩
  · rw [hslot m m (by omega) (by omega) rfl]
    · exact fun _ _ => rfl
    · rw [getD_eq_getElem?_getD, getD_eq_getElem?_getD, getElem?_eraseIdx,
        if_pos (by omega)]
  · rw [hslot (m + 16) m (by omega) (by omega) (by omega)]
    · exact fun _ _ => rfl
    · rw [getD_eq_getElem?_getD, getD_eq_getElem?_getD, getElem?_eraseIdx,
        if_neg (by omega), show (m + 16) / 16 = m / 16 + 1 by omega]

/-! ## The operations -/

/-- The vnode at `p` is that of a directory with the clusters `cs`, on a disk that can be read. -/
structure DirArea (s : Fs) (p : Nat) (cs : List Int) : Prop where
  nonnull : p ≠ 0
  healthy : Healthy s.toVolume
  chain : DirChain s.fat (Dirent.startCluster (s.vnodes p).data) cs
  nonempty : cs ≠ []
  kind : Dirent.startCluster (s.vnodes p).data = -12 ∨ ∀ c ∈ cs, 2 ≤ c

/-- That directory is well formed, and no block is in the cache alone. -/
structure DirAt (s : Fs) (p : Nat) (cs : List Int) : Prop where
  nonnull : p ≠ 0
  healthy : Healthy s.toVolume
  faulty : s.faulty = s.unreadable
  form : WellFormedDir s.toVolume (Dirent.startCluster (s.vnodes p).data) cs

/-- The directory with the clusters `cs` has a slot for one more entry. -/
def HasSlot (v : Volume) (cs : List Int) : Prop :=
  ∃ k, k < 16 * cs.length ∧ Dirent.unused (slot v cs k) = true

/-- `add_dir_entry` is refused: no slot is left, and the directory is the root, which cannot grow, or
    `alloc_block12` finds no value 0. -/
def AddRefused (s : Fs) (cs : List Int) : Prop :=
  ¬ HasSlot s.toVolume cs ∧ ((∀ c ∈ cs, c < 2) ∨ zeroValues s.fat = ∅)

/-- The directory at `p` has the clusters `cs'` now, and `dent` in a slot `k` that was not in use. The
    block of a new cluster is in the cache. -/
structure EntryAdded (s t : Fs) (p : Nat) (cs cs' : List Int) (k : Nat) (dent : Bytes) : Prop where
  set : SlotSet s.toVolume t.toVolume cs cs' k dent
  free : k < 16 * cs.length → Dirent.unused (slot s.toVolume cs k) = true
  row : DirRow t.toVolume (Dirent.startCluster (s.vnodes p).data) cs'
  grown : (cs' = cs ∧ t.fat = s.fat) ∨ ∃ (cl : Nat) (last : Int), ¬ HasSlot s.toVolume cs ∧
    allocBlock12 s.fat = (cl, setClval12 s.fat cl 0xfff) ∧ last ∈ cs ∧ 2 ≤ last ∧ cs' = cs ++ [(cl : Int)] ∧
    t.fat = setClval12 (setClval12 s.fat cl 0xfff) last cl
  disk : ∀ b, b ≠ sectorOf (cs'.getD (k / 16) 0) → t.disk b = s.disk b
  cached : t.unreadable = fun b => if b = sectorOf (cs'.getD (k / 16) 0) then false else s.unreadable b
  rest : t = { s with
    fat := t.fat, disk := t.disk, unreadable := t.unreadable, vnodes := (s.touch p).vnodes }

namespace DirArea

variable {s : Fs} {p : Nat} {cs : List Int}

theorem data (h : DirArea s p cs) {c : Int} (hc : c ∈ cs) (h2 : 2 ≤ c) : ∀ x ∈ cs, 2 ≤ x := by
  rcases h.kind with hroot | hdata
  · have := h.chain.root_le (by omega) c hc
    omega
  · exact hdata

theorem readable (h : DirArea s p cs) {k : Nat} (hlt : k < 16 * cs.length) :
    s.unreadable (sectorOf (cs.getD (k / 16) 0)) = false :=
  readable_dir h.healthy (h.chain.inside _ (mem_clusterOf hlt))

theorem added_slot (h : DirArea s p cs) {k : Nat} (dent : Bytes) (hlt : k < 16 * cs.length)
    (hunused : unused (slot s.toVolume cs k) = true) :
    EntryAdded s ((s.setSlot cs k dent).touch p) p cs cs k dent := by
  have hsame : (s.setSlot cs k dent).unreadable = s.unreadable := by
    rw [Fs.setSlot, setSector_of_readable (h.readable hlt)]
  have hrow := h.chain.row h.healthy
  refine ⟨slotSet_setSlot h.chain hlt dent, fun _ => hunused,
    ⟨hrow.linked, hrow.inside, fun c hc => ?_, fun c hle hlt' => ?_⟩, .inl ⟨rfl, rfl⟩,
    fun _ hb => if_neg hb, rfl, rfl⟩
  · exact (congrFun hsame _).trans (hrow.read c hc)
  · exact (congrFun hsame _).trans (hrow.behind c hle hlt')

theorem added_cluster (h : DirArea s p cs) {cl : Nat} (dent : Bytes) (hlast : 2 ≤ cs.getLast h.nonempty)
    (hfull : ¬ HasSlot s.toVolume cs) (hzero : cl ∈ zeroValues s.fat)
    (halloc : allocBlock12 s.fat = (cl, setClval12 s.fat cl 0xfff)) :
    EntryAdded s ((s.extendDir (cs.getLast h.nonempty) dent).touch p) p cs (cs ++ [(cl : Int)])
      (16 * cs.length) dent := by
  have htotal : totalSect = 2880 := rfl
  have hmem := getLast_mem h.nonempty
  have hdata := h.data hmem hlast
  obtain ⟨⟨h2, hlt⟩, h0⟩ := mem_zeroValues.mp hzero
  have hsplit := dropLast_append_getLast h.nonempty
  have hchain := h.chain
  rw [← hsplit] at hchain
  have hext := hchain.extend (fun x hx => hdata x (by rwa [hsplit] at hx)) h2 hlt h0
  rw [hsplit] at hext
  have hrow := h.chain.row h.healthy
  have hcl : (allocBlock12 s.fat).1 = cl := congrArg Prod.fst halloc
  have hfat : (s.extendDir (cs.getLast h.nonempty) dent).fat =
      setClval12 (setClval12 s.fat cl 0xfff) (cs.getLast h.nonempty) cl := by
    rw [Fs.extendDir, halloc]
    rfl
  have hget : (cs ++ [(cl : Int)]).getD (16 * cs.length / 16) 0 = cl := by
    rw [Nat.mul_div_cancel_left _ (by omega), getD_append_right _ _ _ _ (Nat.le_refl _),
      Nat.sub_self]
    rfl
  have hsector : (sectorOf (cl : Int) : Int) = cl + 31 := sectorOf_eq (by omega)
  -- the block that was written can be read, wherever it is
  have hcached : (s.extendDir (cs.getLast h.nonempty) dent).unreadable =
      fun b => if b = sectorOf (cl : Int) then false else s.unreadable b := by
    rw [Fs.extendDir, hcl]
    rfl
  refine ⟨slotSet_extendDir h.chain hcl hlt (h.chain.notMem hdata h0) dent,
    fun hlt => absurd hlt (Nat.lt_irrefl _), ⟨hfat ▸ hext, ?_, ?_, ?_⟩,
    .inr ⟨cl, _, hfull, halloc, hmem, hlast, rfl, hfat⟩, fun b hb => ?_, hget.symm ▸ hcached, rfl⟩
  · exact forall_mem_append.mpr ⟨hrow.inside, forall_mem_singleton.mpr (by omega)⟩
  · refine forall_mem_append.mpr ⟨fun c hc => (congrFun hcached _).trans ?_,
      forall_mem_singleton.mpr ((congrFun hcached _).trans (if_pos rfl))⟩
    rw [hrow.read c hc, ite_self]
  · intro c hle hlt'
    have hc : (sectorOf c : Int) = c + 31 := u32_of_range (by omega) (by omega)
    refine (congrFun hcached _).trans ((if_neg fun hsame => ?_).trans (hrow.behind c hle hlt'))
    omega
  · rw [hget] at hb
    change (if b = sectorOf (allocBlock12 s.fat).1 then _ else _) = _
    rw [hcl, if_neg hb]

/-- **`add_dir_entry`** is refused and changes nothing, or there is a new entry. -/
theorem add_cases (h : DirArea s p cs) (dent : Bytes) :
    (AddRefused s cs ∧ ∃ e, e < 0 ∧ addDirEntry p dent s = some (e, s)) ∨
      ¬ AddRefused s cs ∧ ∃ t cs' k, addDirEntry p dent s = some (1, t) ∧ EntryAdded s t p cs cs' k dent := by
  have hmem := getLast_mem h.nonempty
  rw [addDirEntry_eq h.nonnull h.healthy h.chain h.nonempty]
  cases hfirst : firstFrom (fun k => unused (slot s.toVolume cs k)) 0 (16 * cs.length) with
  | some k =>
    obtain ⟨-, hlt, hunused, -⟩ := firstFrom_eq_some.mp hfirst
    exact .inr ⟨fun hno => hno.1 ⟨k, hlt, hunused⟩, _, cs, k, rfl, h.added_slot dent hlt hunused⟩
  | none =>
    have hfull : ¬ HasSlot s.toVolume cs := fun ⟨k, hk, hunused⟩ => by
      rw [firstFrom_eq_none.mp hfirst k (Nat.zero_le k) hk] at hunused
      cases hunused
    simp only [appendEntry]
    by_cases hlast : 2 ≤ cs.getLast h.nonempty
    · rw [if_pos hlast]
      rcases allocBlock12_zeroValues s.fat with ⟨hzero, hempty⟩ | ⟨cl, hmem', h0, halloc⟩
      · rw [if_pos hzero]
        exact .inl ⟨⟨hfull, .inr hempty⟩, _, by decide, rfl⟩
      · rw [if_neg (by rw [halloc]; exact h0)]
        refine .inr ⟨fun hno => ?_, _, _, _, rfl, h.added_cluster dent hlast hfull hmem' halloc⟩
        rcases hno.2 with hroot | hempty
        · have := hroot _ hmem
          omega
        · rw [hempty] at hmem'
          exact Finset.notMem_empty cl hmem'
    · rw [if_neg hlast]
      refine .inl ⟨⟨hfull, .inl fun c hc => ?_⟩, _, by decide, rfl⟩
      by_contra h2
      exact hlast (h.data hc (by omega) _ hmem)

end DirArea

namespace EntryAdded

variable {s t : Fs} {p k : Nat} {dent : Bytes} {cs cs' : List Int}

theorem start (h : EntryAdded s t p cs cs' k dent) :
    startCluster (t.vnodes p).data = startCluster (s.vnodes p).data := by
  rw [h.rest]
  exact startCluster_touch

theorem lookupIn (h : EntryAdded s t p cs cs' k dent) (fname : Bytes) :
    lookupIn t p fname = some ((entryIndex t.toVolume cs' fname).map (entryAt t.toVolume cs')) := by
  refine lookupIn_eq (h.start ▸ h.row) ?_ fname
  rintro rfl
  exact absurd h.set.lt (by simp)

/-- If the disk has a free cluster for it, a new cluster is one of the disk, and the values of the table
    that changed are those of the last cluster and of the new one. -/
theorem values (h : EntryAdded s t p cs cs' k dent)
    (hdisk : ¬ HasSlot s.toVolume cs → (freeClusters s.fat).Nonempty) :
    (cs' = cs ∧ ∀ z : Nat, getClval12 t.fat z = getClval12 s.fat z) ∨
      ∃ cl ∈ freeClusters s.fat, ∃ last ∈ cs, cs' = cs ++ [(cl : Int)] ∧
        ∀ z : Nat, z ≠ cl → (z : Int) ≠ last → getClval12 t.fat z = getClval12 s.fat z := by
  rcases h.grown with ⟨hcs, hfat⟩ | ⟨cl, last, hfull, halloc, hlast, h2, hcs, hfat⟩
  · exact .inl ⟨hcs, fun z => by rw [hfat]⟩
  · have hfree := hdisk hfull
    rcases allocBlock12_disk (.inr hfree) with ⟨-, hempty⟩ | ⟨c, hc, hcl⟩
    · exact absurd hempty hfree.ne_empty
    obtain rfl : c = cl := congrArg Prod.fst (hcl.symm.trans halloc)
    refine .inr ⟨c, hc, last, hlast, hcs, fun z hz hzlast => ?_⟩
    obtain ⟨n, rfl⟩ : ∃ n : Nat, last = n := ⟨last.toNat, by omega⟩
    rw [hfat, getClval12_set, if_neg (by omega), getClval12_set, if_neg hz]

end EntryAdded

namespace DirAt

variable {s t : Fs} {p k r : Nat} {fname dent other : Bytes} {cs cs' : List Int}

section

variable (h : DirAt s p cs)
include h

theorem lookupIn (fname : Bytes) :
    lookupIn s p fname = some ((entryIndex s.toVolume cs fname).map (entryAt s.toVolume cs)) :=
  lookupIn_eq (h.form.chain.row h.healthy) h.form.nonempty fname

theorem lookupIn_none :
    AtomOs.lookupIn s p fname = some none ↔ entryIndex s.toVolume cs fname = none := by
  rw [h.lookupIn, Option.some.injEq, Option.map_eq_none_iff]

theorem touch : DirAt (s.touch p) p cs := by
  refine ⟨h.nonnull, h.healthy, h.faulty, ?_⟩
  rw [startCluster_touch]
  exact h.form

theorem area : DirArea s p cs :=
  ⟨h.nonnull, h.healthy, h.form.chain, h.form.nonempty, h.form.kind⟩

theorem lookup_added (hadd : EntryAdded s t p cs cs' k dent)
    (hplain : PlainName fname) (hname : entryName dent = entryName fname) (hattr : dent 11 ≠ 0x0f)
    (hnone : entryIndex s.toVolume cs fname = none) :
    Finds t p fname dent ∧ ∀ other, entryName other ≠ entryName fname → LookupKept Unmoved s t p other := by
  refine ⟨?_, fun other hother => ?_⟩
  · have hindex := hadd.set.index_same (hplain.isEntry hname hattr) fun m hm _ =>
      firstFrom_eq_none.mp hnone m (Nat.zero_le m) hm
    refine ⟨_, (hadd.lookupIn fname).trans (by rw [hindex]; rfl), fun i hi => ?_⟩
    have h05 : dent 0 ≠ 0x05 := fun hd => hplain.notCoded ((entryName_head hname).symm.trans hd)
    exact (hadd.set.new.copied i hi).trans (by rw [copied_eq h05])
  · exact ⟨_, _, h.lookupIn other, hadd.lookupIn other, hadd.set.unmoved
      (fun hlt => isEntry_of_unused (hadd.free hlt)) (hplain.isEntry_other hname hother)⟩

theorem erase_cases (hk : k < 16 * cs.length) :
    (¬ Emptied s.toVolume cs k ∧ eraseEntry s p cs k = some (1, (s.eraseSlot cs k).touch p)) ∨
      Emptied s.toVolume cs k ∧ 0 < k / 16 ∧ (∀ c ∈ cs, 2 ≤ c) ∧
        ∃ fat, eraseEntry s p cs k = some (1, (s.dropCluster fat (cs.getD (k / 16) 0)).touch p) ∧
          DirChain fat (startCluster (s.vnodes p).data) (cs.eraseIdx (k / 16)) ∧
          getClval12 fat (cs.getD (k / 16) 0) = 0 ∧
          ∀ z : Nat, (z : Int) ∉ cs → getClval12 fat z = getClval12 s.fat z := by
  rw [eraseEntry]
  by_cases hempty : Emptied s.toVolume cs k
  · have hpos := h.form.emptied_pos hempty
    have hdata := h.form.emptied_data hk hempty
    obtain ⟨fat, hfat, hrest⟩ := h.form.chain.unlink_at hdata hpos (by omega)
    refine .inr ⟨hempty, hpos, hdata, fat, ?_, hrest⟩
    rw [if_pos hempty, hfat]
    rfl
  · exact .inl ⟨hempty, if_neg hempty⟩

/-- **`delete_dir_entry`** ends, whatever the name. -/
theorem delete_total (name : Bytes) : ∃ r t, deleteDirEntry p name s = some (r, t) := by
  rw [deleteDirEntry_eq h.nonnull h.healthy h.form.chain h.form.nonempty]
  cases hfirst : firstFrom (fun k => sameName (slot s.toVolume cs k) name) 0 (16 * cs.length) with
  | none => exact ⟨_, _, rfl⟩
  | some k =>
    rcases h.erase_cases (firstFrom_eq_some.mp hfirst).2.1 with ⟨-, hrun⟩ | ⟨-, -, -, fat, hrun, -⟩
    · exact ⟨_, _, hrun⟩
    · exact ⟨_, _, hrun⟩

end

/-- What is left of a directory when slot `k` was deleted. -/
structure Shrunk (s t : Fs) (p : Nat) (cs cs' : List Int) (k : Nat) : Prop where
  dir : DirAt t p cs'
  emptied : Emptied s.toVolume cs k → cs' = cs.eraseIdx (k / 16) ∧ getClval12 t.fat (cs.getD (k / 16) 0) = 0
  kept : ¬ Emptied s.toVolume cs k → cs' = cs ∧ t.fat = s.fat
  fat : ∀ z : Nat, (z : Int) ∉ cs → getClval12 t.fat z = getClval12 s.fat z
  disk : ∀ b, (∀ c ∈ cs, b ≠ sectorOf c) → t.disk b = s.disk b
  rest : t = { s with fat := t.fat, disk := t.disk, vnodes := (s.touch p).vnodes }

theorem erase_spec (h : DirAt s p cs) (hlt : k < 16 * cs.length) (hdot : slot s.toVolume cs k 0 ≠ 46) :
    ∃ t cs', eraseEntry s p cs k = some (1, t) ∧ Shrunk s t p cs cs' k ∧
      (∀ fname, (∀ m, m < 16 * cs.length → m ≠ k → isEntry fname (slot s.toVolume cs m) = false) →
        AtomOs.lookupIn t p fname = some none) ∧
      ∀ other, isEntry other (slot s.toVolume cs k) = false → LookupKept SameDent s t p other := by
  have hcluster : cs.getD (k / 16) 0 ∈ cs := mem_clusterOf hlt
  have hread := readable_dir h.healthy (h.form.chain.inside _ hcluster)
  rcases h.erase_cases hlt with ⟨hkept, hrun⟩ | ⟨hempty, hpos, hdata, fat, hrun, hchain, hzero, hfat⟩
  · -- the slot is marked
    have hset := slotSet_eraseSlot h.form.chain hlt
    have hgone : unused ((slot s.toVolume cs k).put 0 0xE5) = true := by
      rfl
    have hform := hset.wellFormed h.form h.form.chain h.form.kind (.inl hgone) fun hroot => by
      by_contra hk
      exact hdot (h.form.dot_slot hroot (by omega))
    have hsame : s.eraseSlot cs k = { s with disk := (s.eraseSlot cs k).disk } :=
      setSector_of_readable hread _
    have hat : DirAt ((s.eraseSlot cs k).touch p) p cs :=
      touch (s := s.eraseSlot cs k)
        ⟨h.nonnull, by rw [hsame]; exact h.healthy, by rw [hsame]; exact h.faulty, hform⟩
    refine ⟨_, cs, hrun, ⟨hat, fun hempty => absurd hempty hkept, fun _ => ⟨rfl, rfl⟩, fun _ _ => rfl,
      fun b hb => if_neg (hb _ hcluster), by rw [hsame]; rfl⟩, fun fname hrest => ?_,
      fun other hother => LookupKept.sameDent ⟨_, _, h.lookupIn other, hat.lookupIn other, ?_⟩⟩
    · exact hat.lookupIn_none.mpr (hset.index_none (isEntry_of_unused hgone) hrest)
    · exact hset.unmoved (fun _ => hother) (isEntry_of_unused hgone)
  · -- its cluster goes; no other entry is in there
    have hcut := blockCut_dropCluster fat h.form.chain (show k / 16 < cs.length by omega)
    have hkind : ∀ c ∈ cs.eraseIdx (k / 16), 2 ≤ c := fun c hc =>
      hdata c ((eraseIdx_sublist _ _).mem hc)
    have hform := hcut.wellFormed h.form hpos hchain (.inr hkind)
    have hsame : s.dropCluster fat (cs.getD (k / 16) 0) =
        { s with fat, disk := (s.dropCluster fat (cs.getD (k / 16) 0)).disk } :=
      dropSector_of_faulty (s := { s with fat }) h.faulty _
    have hat : DirAt ((s.dropCluster fat (cs.getD (k / 16) 0)).touch p) p (cs.eraseIdx (k / 16)) :=
      touch (s := s.dropCluster fat (cs.getD (k / 16) 0))
        ⟨h.nonnull, by rw [hsame]; exact h.healthy, by rw [hsame]; exact h.faulty, hform⟩
    have hblock : ∀ other, isEntry other (slot s.toVolume cs k) = false → ∀ m, 16 * (k / 16) ≤ m →
        m < 16 * (k / 16) + 16 → isEntry other (slot s.toVolume cs m) = false := fun other hother m hm hm' => by
      by_cases hmk : m = k
      · rw [hmk]
        exact hother
      · have := hempty.2 (m - 16 * (k / 16)) (by omega) (by omega)
        rw [Nat.add_sub_cancel' hm] at this
        exact isEntry_of_unused this
    refine ⟨_, _, hrun, ⟨hat, fun _ => ⟨rfl, hzero⟩, fun hkept => absurd hempty hkept, hfat,
      fun b hb => if_neg (hb _ hcluster), by rw [hsame]; rfl⟩, fun fname hrest => ?_,
      fun other hother => ⟨_, _, h.lookupIn other, hat.lookupIn other, hcut.sameDent (hblock other hother)⟩⟩
    exact hat.lookupIn_none.mpr (hcut.index_none fun m hm hside => hrest m hm (by omega))

theorem delete_found (h : DirAt s p cs) (hplain : PlainName fname) (hdot : fname 0 ≠ 46)
    (hfind : entryIndex s.toVolume cs fname = some k) :
    ∃ t cs', deleteDirEntry p fname s = some (1, t) ∧ Shrunk s t p cs cs' k ∧
      AtomOs.lookupIn t p fname = some none ∧
      ∀ other, entryName other ≠ entryName fname → LookupKept SameDent s t p other := by
  obtain ⟨hlt, hentry, -⟩ := entryIndex_eq_some hfind
  have hname := (hplain.isEntry_iff.mp hentry).2
  obtain ⟨t, cs', hrun, hshrunk, hgone, hother⟩ := h.erase_spec hlt fun hk =>
    hdot ((entryName_head hname).symm.trans hk)
  refine ⟨t, cs', ?_, hshrunk, hgone fname fun m hm hmk => h.form.not_isEntry hplain hfind hm hmk,
    fun other hne => hother other (hplain.isEntry_other hname hne)⟩
  rw [deleteDirEntry_eq h.nonnull h.healthy h.form.chain h.form.nonempty, h.form.nameIndex hplain hfind]
  exact hrun

/-- A name that begins with 0xE5 is there as long as its slot begins with 0x05, and `delete_dir_entry`
    does not look for that. -/
theorem delete_marked (h : DirAt s p cs) (hE5 : fname 0 = 0xE5)
    (hfind : entryIndex s.toVolume cs fname ≠ none) (hrun : deleteDirEntry p fname s = some (1, t)) :
    AtomOs.lookupIn t p fname ≠ some none := by
  rw [deleteDirEntry_eq h.nonnull h.healthy h.form.chain h.form.nonempty] at hrun
  cases hfirst : firstFrom (fun k => sameName (slot s.toVolume cs k) fname) 0 (16 * cs.length) with
  | none =>
    rw [hfirst] at hrun
    have hcode : edirEntryNotFound = 1 := congrArg Prod.fst (Option.some.inj hrun)
    exact absurd hcode (by decide)
  | some k =>
    rw [hfirst] at hrun
    obtain ⟨-, hlt, hsame, -⟩ := firstFrom_eq_some.mp hfirst
    have hhead : slot s.toVolume cs k 0 = 0xE5 := (entryName_head (sameName_iff.mp hsame)).trans hE5
    obtain ⟨t', cs', hrun', -, -, hother⟩ := h.erase_spec hlt (by rw [hhead]; decide)
    obtain rfl : t' = t := congrArg Prod.snd (Option.some.inj (hrun'.symm.trans hrun))
    obtain ⟨e, e', he, he', hrel⟩ := hother fname (isEntry_of_mark (sameName_iff.mp hsame) (.inl hE5))
    rw [h.lookupIn, Option.some.injEq] at he
    rw [he']
    rintro ⟨⟩
    cases hrel
    exact hfind (Option.map_eq_none_iff.mp he)

theorem update_found (h : DirAt s p cs) (hplain : PlainName fname)
    (hname : entryName dent = entryName fname) (hfind : entryIndex s.toVolume cs fname = some k) :
    ∃ t, updateDirEntry p dent s = some (1, t) ∧ (dent 11 ≠ 0x0f → Finds t p fname dent) ∧
      (dent 11 = 0x0f → AtomOs.lookupIn t p fname = some none) ∧
      ∀ other, entryName other ≠ entryName fname → LookupKept Unmoved s t p other := by
  obtain ⟨hlt, hentry, -⟩ := entryIndex_eq_some hfind
  have hkname := (hplain.isEntry_iff.mp hentry).2
  have hsearch : firstFrom (fun m => sameName (slot s.toVolume cs m) dent) 0 (16 * cs.length) = some k := by
    rw [← h.form.nameIndex hplain hfind]
    refine firstFrom_congr fun m _ _ => ?_
    rw [Bool.eq_iff_iff, sameName_iff, sameName_iff, hname]
  have hset := slotSet_setSlot h.form.chain hlt dent
  have hrest : ∀ m, m < 16 * cs.length → m ≠ k → isEntry fname (slot s.toVolume cs m) = false :=
    fun m hm hmk => h.form.not_isEntry hplain hfind hm hmk
  have hhealthy : Healthy (s.setSlot cs k dent).toVolume := by
    rw [Fs.setSlot, setSector_of_readable (h.area.readable hlt)]
    exact h.healthy
  have hrow : DirRow (s.setSlot cs k dent).toVolume (startCluster (s.vnodes p).data) cs :=
    DirChain.row (v := (s.setSlot cs k dent).toVolume) h.form.chain hhealthy
  have hfound := lookupIn_eq (s := s.setSlot cs k dent) (p := p) hrow h.form.nonempty
  rw [updateDirEntry_eq h.nonnull h.healthy h.form.chain h.form.nonempty, hsearch]
  refine ⟨_, rfl, fun hattr => ?_, fun hattr => ?_, fun other hother => ?_⟩
  · have hindex := hset.index_same (hplain.isEntry hname hattr) hrest
    refine ⟨_, (hfound fname).trans (by rw [hindex]; rfl), fun i hi => ?_⟩
    have h05 : dent 0 ≠ 0x05 := fun hd => hplain.notCoded ((entryName_head hname).symm.trans hd)
    exact (hset.new.copied i hi).trans (by rw [copied_eq h05])
  · have hindex := hset.index_none (isEntry_of_mark hname (.inr (.inr hattr))) hrest
    exact (hfound fname).trans (by rw [hindex]; rfl)
  · exact ⟨_, _, h.lookupIn other, hfound other, hset.unmoved
      (fun _ => hplain.isEntry_other hkname hother) (hplain.isEntry_other hname hother)⟩

end DirAt

/-! ## The map -/

theorem nameFrom_ofList {l : List Nat} (h0 : 0 ∉ l) : ∀ {n i : Nat}, i + n = l.length →
    nameFrom (ofList l) n i = l.drop i
  | 0, i, hi => by
    rw [drop_of_length_le (by omega)]
    rfl
  | n + 1, i, hi => by
    have hlt : i < l.length := by omega
    have hget : ofList l i = l[i] := by
      rw [ofList, getD_eq_getElem?_getD, getElem?_eq_getElem hlt, Option.getD_some]
    have hne : ofList l i ≠ 0 := fun hzero => h0 (hzero ▸ hget ▸ getElem_mem hlt)
    rw [nameFrom_cons hne, nameFrom_ofList h0 (by omega), hget, getElem_cons_drop]

theorem entryName_convert {name fname : List Nat} (h : convertName name = some fname) (h0 : 0 ∉ name) :
    entryName (ofList fname) = fname := by
  have := nameFrom_ofList (convertName_nonzero h h0) (n := 11) (i := 0) (by
    rw [convertName_length h])
  rwa [drop_zero] at this

theorem ofList_head {l : List Nat} {c : Nat} (h : l.head? = some c) : ofList l 0 = c := by
  cases l with
  | nil => cases h
  | cons a l => exact Option.some.inj h

theorem plainName_convert {name fname : List Nat} (h : convertName name = some fname) (h0 : 0 ∉ name)
    (hE5 : fname.head? ≠ some 0xE5) (h05 : fname.head? ≠ some 0x05) : PlainName (ofList fname) := by
  have hlen := convertName_length h
  have hzero := convertName_nonzero h h0
  cases fname with
  | nil => simp at hlen
  | cons c fname =>
    refine ⟨fun hc => hE5 (congrArg some hc), fun hc => h05 (congrArg some hc), fun hc => hzero ?_⟩
    have hc' : c = 0 := hc
    simp [hc']

/-- The laws of a finite map, for the directory at `p`, a name and an entry with that name: a successful
    `add_dir_entry` of a new name makes a lookup find it, `delete_dir_entry` makes it disappear,
    `update_dir_entry` changes its entry, and other lookups find what they found. Deleting always ends; a
    cluster it leaves empty is unlinked and freed, and the directory is well formed again. -/
structure MapLaws (s : Fs) (p : Nat) (cs : List Int) (fname : List Nat) (dent : Bytes) : Prop where
  add : lookupIn s p (Bytes.ofList fname) = some none → ∃ r t, addDirEntry p dent s = some (r, t) ∧
    (r = 1 → Finds t p (Bytes.ofList fname) dent ∧
      ∀ other, entryName other ≠ fname → LookupKept Unmoved s t p other)
  delete : lookupIn s p (Bytes.ofList fname) ≠ some none →
    ∃ t cs' k, deleteDirEntry p (Bytes.ofList fname) s = some (1, t) ∧
      entryIndex s.toVolume cs (Bytes.ofList fname) = some k ∧
      lookupIn t p (Bytes.ofList fname) = some none ∧
      (∀ other, entryName other ≠ fname → LookupKept SameDent s t p other) ∧ DirAt t p cs' ∧
      (Emptied s.toVolume cs k → cs' = cs.eraseIdx (k / 16) ∧ getClval12 t.fat (cs.getD (k / 16) 0) = 0) ∧
      (¬ Emptied s.toVolume cs k → cs' = cs ∧ t.fat = s.fat) ∧
      ∀ z : Nat, (z : Int) ∉ cs → getClval12 t.fat z = getClval12 s.fat z
  update : lookupIn s p (Bytes.ofList fname) ≠ some none →
    ∃ t, updateDirEntry p dent s = some (1, t) ∧ Finds t p (Bytes.ofList fname) dent ∧
      ∀ other, entryName other ≠ fname → LookupKept Unmoved s t p other
  ends : ∀ any, ∃ r t, deleteDirEntry p any s = some (r, t)
  unlinks : ∀ c ∈ cs.tail,
    ∃ fat, deleteClusterFromChain s.fat (Dirent.startCluster (s.vnodes p).data) c = some fat

/-- An entry without a mark. -/
def Unmarked (fname : List Nat) (dent : Bytes) : Prop :=
  fname.head? ≠ some 0xE5 ∧ fname.head? ≠ some 0x05 ∧ dent 11 ≠ 0x0f

section laws

variable {s : Fs} {p : Nat} {cs : List Int} {name fname : List Nat} {dent : Bytes}

theorem DirAt.unlinks (h : DirAt s p cs) : ∀ c ∈ cs.tail,
    ∃ fat, deleteClusterFromChain s.fat (startCluster (s.vnodes p).data) c = some fat := fun c hc => by
  by_cases hroot : c < 2
  · exact ⟨_, if_pos hroot⟩
  have hdata := h.area.data (mem_of_mem_tail hc) (by omega)
  obtain ⟨i, hi, rfl⟩ := mem_iff_getElem.mp hc
  rw [length_tail] at hi
  rw [getElem_tail] at hroot ⊢
  obtain ⟨fat, hfat, -⟩ := h.form.chain.unlink_at hdata (Nat.succ_pos i) (by omega)
  rw [getD_eq_getElem?_getD, getElem?_eq_getElem (by omega), Option.getD_some] at hfat
  exact ⟨fat, hfat⟩

theorem mapLaws_unmarked (hdir : DirAt s p cs) (hname : convertName name = some fname) (hnul : 0 ∉ name)
    (hdent : entryName dent = fname) (hmark : Unmarked fname dent) : MapLaws s p cs fname dent := by
  obtain ⟨hE5, h05, hattr⟩ := hmark
  have hplain := plainName_convert hname hnul hE5 h05
  have hfname := entryName_convert hname hnul
  have hfound : lookupIn s p (ofList fname) ≠ some none →
      ∃ k, entryIndex s.toVolume cs (ofList fname) = some k := fun hne => by
    rw [Ne, hdir.lookupIn_none] at hne
    exact Option.ne_none_iff_exists'.mp hne
  refine ⟨fun hnone => ?_, fun hne => ?_, fun hne => ?_, hdir.delete_total, hdir.unlinks⟩
  · rw [hdir.lookupIn_none] at hnone
    rcases hdir.area.add_cases dent with ⟨-, e, he, hrun⟩ | ⟨-, t, cs', k, hrun, hadd⟩
    · exact ⟨e, s, hrun, fun h => by omega⟩
    · obtain ⟨hself, hother⟩ := hdir.lookup_added hadd hplain (hdent.trans hfname.symm) hattr hnone
      exact ⟨1, t, hrun, fun _ => ⟨hself, fun other h => hother other (by rwa [hfname])⟩⟩
  · obtain ⟨k, hfind⟩ := hfound hne
    obtain ⟨t, cs', hrun, hshrunk, hgone, hother⟩ := hdir.delete_found hplain (convertName_head hname) hfind
    exact ⟨t, cs', k, hrun, hfind, hgone, fun other h => hother other (by rwa [hfname]), hshrunk.dir,
      hshrunk.emptied, hshrunk.kept, hshrunk.fat⟩
  · obtain ⟨k, hfind⟩ := hfound hne
    obtain ⟨t, hrun, hself, -, hother⟩ := hdir.update_found hplain (hdent.trans hfname.symm) hfind
    exact ⟨t, hrun, hself hattr, fun other h => hother other (by rwa [hfname])⟩

theorem mapLaws_absent (hdir : DirAt s p cs) (hsame : entryName dent = entryName (ofList fname))
    (hmark : ofList fname 0 = 0xE5 ∨ ofList fname 0 = 0x05 ∨ dent 11 = 0x0f)
    (hnone : entryIndex s.toVolume cs (ofList fname) = none) :
    MapLaws s p cs fname dent ↔ AddRefused s cs := by
  have habsent := hdir.lookupIn_none.mpr hnone
  rcases hdir.area.add_cases dent with ⟨hno, e, he, hrun⟩ | ⟨hyes, t, cs', k, hrun, hadd⟩
  · exact iff_of_true ⟨fun _ => ⟨e, s, hrun, fun h => by omega⟩, fun h => absurd habsent h,
      fun h => absurd habsent h, hdir.delete_total, hdir.unlinks⟩ hno
  · refine iff_of_false (fun hlaws => ?_) hyes
    obtain ⟨r, t', hrun', hfinds⟩ := hlaws.add habsent
    cases hrun.symm.trans hrun'
    obtain ⟨⟨e, he, -⟩, -⟩ := hfinds rfl
    rw [hadd.lookupIn, hadd.set.index_none (isEntry_of_mark hsame hmark) fun m hm _ =>
      firstFrom_eq_none.mp hnone m (Nat.zero_le m) hm] at he
    cases he

theorem not_mapLaws_present (hdir : DirAt s p cs) (hname : convertName name = some fname) (hnul : 0 ∉ name)
    (hsame : entryName dent = entryName (ofList fname))
    (hmark : ofList fname 0 = 0xE5 ∨ ofList fname 0 = 0x05 ∨ dent 11 = 0x0f)
    (hsome : entryIndex s.toVolume cs (ofList fname) ≠ none) : ¬ MapLaws s p cs fname dent := fun hlaws => by
  have hpresent : lookupIn s p (ofList fname) ≠ some none := by rwa [Ne, hdir.lookupIn_none]
  by_cases hE5 : ofList fname 0 = 0xE5
  · obtain ⟨t, cs', k, hrun, -, hgone, -⟩ := hlaws.delete hpresent
    exact hdir.delete_marked hE5 hsome hrun hgone
  by_cases h05 : ofList fname 0 = 0x05
  · exact hsome (firstFrom_eq_none.mpr fun k _ _ => isEntry_of_coded h05)
  have hplain : PlainName (ofList fname) :=
    ⟨hE5, h05, (plainName_convert hname hnul (mt ofList_head hE5) (mt ofList_head h05)).nonzero⟩
  obtain ⟨k, hfind⟩ := Option.ne_none_iff_exists'.mp hsome
  obtain ⟨t, hrun, -, hlost, -⟩ := hdir.update_found hplain hsame hfind
  obtain ⟨t', hrun', ⟨e, he, -⟩, -⟩ := hlaws.update hpresent
  cases hrun.symm.trans hrun'
  rw [hlost ((hmark.resolve_left hE5).resolve_left h05)] at he
  cases he

end laws

/-- **When a directory is a finite map**: for a converted name and an entry with that name the laws hold
    just if the entry has no mark, or its name is not there and `add_dir_entry` is refused. -/
theorem directory_is_map (s : Fs) (p : Nat) (cs : List Int) (name fname : List Nat) (dent : Bytes)
    (hdir : DirAt s p cs) (hname : convertName name = some fname) (hnul : 0 ∉ name)
    (hdent : entryName dent = fname) : MapLaws s p cs fname dent ↔
      Unmarked fname dent ∨
        (entryIndex s.toVolume cs (Bytes.ofList fname) = none ∧ AddRefused s cs) := by
  have hsame := hdent.trans (entryName_convert hname hnul).symm
  by_cases hmark : Unmarked fname dent
  · exact iff_of_true (mapLaws_unmarked hdir hname hnul hdent hmark) (.inl hmark)
  have hmarked : ofList fname 0 = 0xE5 ∨ ofList fname 0 = 0x05 ∨ dent 11 = 0x0f := by
    by_contra hno
    rw [not_or, not_or] at hno
    exact hmark ⟨fun h => hno.1 (ofList_head h), fun h => hno.2.1 (ofList_head h), hno.2.2⟩
  rw [or_iff_right hmark]
  by_cases hnone : entryIndex s.toVolume cs (ofList fname) = none
  · rw [mapLaws_absent hdir hsame hmarked hnone, and_iff_right hnone]
  · exact iff_of_false (not_mapLaws_present hdir hname hnul hsame hmarked hnone) fun h => hnone h.1

/-- A directory of two clusters, 2 and 3, whose second one holds nothing but the entry `A`. -/
def twoClusters : Fs :=
  let s := mountroot (fun i => if i = 3 then 3 else if i = 4 then 0xf0 else if i = 5 then 0xff else 0)
    fun b => if b = 33 then
        (Bytes.zero.copy 0 32 (Bytes.ofList (blankTo 11 nameDot ++ [0x10]))).copy 32 32
          (Bytes.ofList (blankTo 11 nameDotDot ++ [0x10]))
      else if b = 34 then Bytes.ofList (blankTo 11 [65] ++ [0x20]) else Bytes.zero
  s.setVnode 2 ⟨false, 1, 0, 0, 2, 1, Dirent.setStart (Bytes.ofList (blankTo 11 [68] ++ [0x10])) 2⟩

theorem twoClusters_dirAt : DirAt twoClusters 2 [2, 3] := by
  have hlast : (lastCluster : Int) = 2848 := rfl
  have hstart : startCluster (twoClusters.vnodes 2).data = 2 := by decide +kernel
  refine ⟨by decide, fun _ => rfl, rfl, ?_⟩
  refine ⟨⟨?_, ?_⟩, by decide, .inr (by decide), ?_, fun _ => ?_⟩
  · refine ⟨rfl, by decide, ?_, by decide, ?_⟩
    · decide +kernel
    · change (0xff8 : Int) ≤ stepCluster twoClusters.fat 3
      decide +kernel
  · decide
  · -- three slots are in use
    have hslots : ∀ k, k < 16 * [(2 : Int), 3].length →
        unused (slot twoClusters.toVolume [2, 3] k) = false → k = 0 ∨ k = 1 ∨ k = 16 := by
      decide +kernel
    intro k m hk hm hne hused hunused
    rcases hslots k hk (unused_of_skipped hused) with rfl | rfl | rfl <;>
      rcases hslots m hm hunused with rfl | rfl | rfl <;>
      first
      | exact absurd rfl hne
      | decide +kernel
  · decide +kernel

theorem directory_is_map_twoClusters :
    ∃ t, deleteDirEntry 2 (Bytes.ofList (blankTo 11 [65])) twoClusters = some (1, t) ∧
      lookupIn t 2 (Bytes.ofList (blankTo 11 [65])) = some none ∧ DirAt t 2 [2] ∧
      getClval12 t.fat 3 = 0 := by
  have hlaws := (directory_is_map twoClusters 2 [2, 3] [97] (blankTo 11 [65])
    (ofList (blankTo 11 [65])) twoClusters_dirAt (by decide) (by decide) (by decide)).mpr
    (.inl ⟨by decide, by decide, by decide⟩)
  have hpresent : lookupIn twoClusters 2 (ofList (blankTo 11 [65])) ≠ some none := by
    rw [Ne, twoClusters_dirAt.lookupIn_none]
    decide +kernel
  obtain ⟨t, cs', k, hrun, hindex, hgone, -, hat, hempty, -, -⟩ := hlaws.delete hpresent
  have hk : k = 16 := by
    have h16 : entryIndex twoClusters.toVolume [2, 3] (ofList (blankTo 11 [65])) = some 16 := by
      decide +kernel
    exact Option.some.inj (hindex.symm.trans h16)
  subst hk
  obtain ⟨rfl, hzero⟩ := hempty (by decide +kernel)
  exact ⟨t, hrun, hgone, hat, hzero⟩

/-- A name that begins with 0xE5 is accepted, but the entry that is added for it counts as deleted. -/
theorem added_name_not_found : ∃ s p cs name fname dent t, DirAt s p cs ∧
    convertName name = some fname ∧ 0 ∉ name ∧ name.head? ≠ some 46 ∧
    lookupIn s p (Bytes.ofList fname) = some none ∧ entryName dent = fname ∧ dent 11 = 0x20 ∧
    addDirEntry p dent s = some (1, t) ∧ lookupIn t p (Bytes.ofList fname) = some none := by
  obtain ⟨⟨_, t⟩, hrun, rfl, e, he, hnone⟩ :
      ∃ r ∈ addDirEntry 2 (ofList (blankTo 11 [0xE5] ++ [0x20])) twoClusters, r.1 = 1 ∧
        ∃ e ∈ lookupIn r.2 2 (ofList (blankTo 11 [0xE5])), e.isNone := by decide +kernel
  refine ⟨twoClusters, 2, [2, 3], [0xE5], blankTo 11 [0xE5], _, t, twoClusters_dirAt, by decide, by decide,
    by decide, ?_, by decide, by decide, hrun, ?_⟩
  · rw [twoClusters_dirAt.lookupIn_none]
    decide +kernel
  · rw [Option.isNone_iff_eq_none.mp hnone] at he
    exact he

end AtomOs
