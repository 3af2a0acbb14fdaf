import AtomOs.Lib.Word
import Mathlib.Data.List.Basic

/-!
# Transfers of many sectors

`floppy_read` and `floppy_write` cut a range of blocks where tracks end, and hand the pieces to the
controller. The model keeps the calls that the controller gets. Read back as blocks and addresses
they are the range in order, up to the end of the disk (**`floppy_transfers`**).
-/

namespace AtomOs

open Lib List

def fmtSectorsPerTrack : Nat := 18

def fmtHeads : Nat := 2

def fmtTracks : Nat := 80

structure Chs where
  c : Nat
  h : Nat
  s : Nat

def lbaToChs (lba : Nat) : Option Chs :=
  if fmtHeads * fmtSectorsPerTrack * fmtTracks ≤ lba then none
  else
    some
      { c := lba / (fmtHeads * fmtSectorsPerTrack)
        h := lba % (fmtHeads * fmtSectorsPerTrack) / fmtSectorsPerTrack
        s := lba % (fmtHeads * fmtSectorsPerTrack) % fmtSectorsPerTrack + 1 }

/-- A call of `fdc_read` or `fdc_write`. -/
structure Transfer where
  chs : Chs
  buffer : Nat
  numSectors : Nat

/-- The loop, with the calls so far. `fdc` is what the last of them returns. -/
def floppyLoop (fdc : List Transfer → Int) (count : Nat) :
    Nat → Nat → Nat → Nat → List Transfer → Option (List Transfer × Int)
  | 0, _, _, _, _ => none
  | fuel + 1, m, start, b, calls =>
    if m = 0 then some (calls, i32 count)
    else
      match lbaToChs start with
      | none => some (calls, -1)
      | some chs =>
        let n := min (fmtSectorsPerTrack - chs.s + 1) m
        let calls := calls ++ [⟨chs, b, n⟩]
        if fdc calls < 0 then some (calls, fdc calls)
        else floppyLoop fdc count fuel (m - n) (start + n) (b + n * 512) calls

def floppyRead (fdcRead : List Transfer → Int) (start count buffer : Nat) :
    Option (List Transfer × Int) :=
  floppyLoop fdcRead count (count + 1) count start buffer []

def floppyWrite (fdcWrite : List Transfer → Int) (start count buffer : Nat) :
    Option (List Transfer × Int) :=
  floppyLoop fdcWrite count (count + 1) count start buffer []

/-- The blocks of a call, each with the address it goes to or comes from. -/
def Transfer.blocks (t : Transfer) : List (Nat × Nat) :=
  (range t.numSectors).map fun i =>
    ((t.chs.c * fmtHeads + t.chs.h) * fmtSectorsPerTrack + (t.chs.s - 1) + i, t.buffer + 512 * i)

/-- It stays inside of one track of one head. -/
structure Transfer.InTrack (t : Transfer) : Prop where
  track : t.chs.c < fmtTracks
  head : t.chs.h < fmtHeads
  first : 1 ≤ t.chs.s
  some : 0 < t.numSectors
  last : t.chs.s + t.numSectors ≤ fmtSectorsPerTrack + 1

/-- The blocks from `start`, with the addresses from `b`. -/
def blocksFrom (start b n : Nat) : List (Nat × Nat) := (range n).map fun i => (start + i, b + 512 * i)

theorem blocksFrom_add (start b n k : Nat) :
    blocksFrom start b (n + k) = blocksFrom start b n ++ blocksFrom (start + n) (b + n * 512) k := by
  unfold blocksFrom
  rw [range_add, map_append, map_map]
  refine congrArg _ (map_congr_left fun i _ => ?_)
  simp only [Function.comp, Prod.mk.injEq]
  omega

/-- One piece: the blocks up to the end of the track, or `m` if that are fewer. -/
theorem lbaToChs_piece {start m : Nat} (b : Nat) (hstart : start < 2880) (hm : 0 < m) :
    ∃ chs n, lbaToChs start = some chs ∧ min (fmtSectorsPerTrack - chs.s + 1) m = n ∧ n ≤ m ∧
      start + n ≤ 2880 ∧ Transfer.blocks ⟨chs, b, n⟩ = blocksFrom start b n ∧
      Transfer.InTrack ⟨chs, b, n⟩ := by
  refine ⟨⟨start / 36, start % 36 / 18, start % 36 % 18 + 1⟩, _, if_neg (Nat.not_le.mpr hstart), rfl,
    Nat.min_le_right _ _, ?_, ?_, ?_⟩
  · simp only [fmtSectorsPerTrack]
    omega
  · refine map_congr_left fun i _ => ?_
    simp only [fmtHeads, fmtSectorsPerTrack, Prod.mk.injEq, and_true]
    omega
  · constructor <;> simp only [fmtTracks, fmtHeads, fmtSectorsPerTrack] <;> omega

theorem floppyLoop_spec {fdc : List Transfer → Int} (hfdc : ∀ calls, 0 ≤ fdc calls) (count : Nat) :
    ∀ (fuel m start b : Nat) (calls : List Transfer), m < fuel → ∃ new,
      floppyLoop fdc count fuel m start b calls =
        some (calls ++ new, if m = 0 ∨ start + m ≤ 2880 then i32 count else -1) ∧
      new.flatMap Transfer.blocks = blocksFrom start b (min m (2880 - start)) ∧
      ∀ t ∈ new, t.InTrack := by
  intro fuel
  induction fuel with
  | zero => exact fun _ _ _ _ hm => absurd hm (Nat.not_lt_zero _)
  | succ fuel ih =>
    intro m start b calls hfuel
    unfold floppyLoop
    by_cases hm : m = 0
    · refine ⟨[], ?_, ?_, fun _ hno => absurd hno not_mem_nil⟩
      · rw [if_pos hm, if_pos (.inl hm), append_nil]
      · rw [hm, Nat.zero_min]
        rfl
    rw [if_neg hm]
    by_cases hstart : start < 2880
    · obtain ⟨chs, n, hchs, hn, hle, hend, hblocks, htrack⟩ := lbaToChs_piece b hstart (Nat.pos_of_ne_zero hm)
      have hpos := htrack.some
      obtain ⟨new, hloop, hnew, hall⟩ := ih (m - n) (start + n) (b + n * 512) (calls ++ [⟨chs, b, n⟩])
        (by simp only at hpos; omega)
      refine ⟨⟨chs, b, n⟩ :: new, ?_, ?_, forall_mem_cons.mpr ⟨htrack, hall⟩⟩
      · simp only [hchs, hn]
        rw [if_neg (Int.not_lt.mpr (hfdc _)), hloop, append_assoc, singleton_append]
        congr 3
        simp only [eq_iff_iff]
        omega
      · rw [flatMap_cons, hblocks, hnew, ← blocksFrom_add]
        congr 1
        omega
    · refine ⟨[], ?_, ?_, fun _ hno => absurd hno not_mem_nil⟩
      · have hchs : lbaToChs start = none := if_pos (Nat.not_lt.mp hstart)
        rw [hchs, append_nil, if_neg (by omega)]
      · rw [Nat.sub_eq_zero_of_le (Nat.not_lt.mp hstart), Nat.min_zero]
        rfl

/-- What a range of blocks comes to: the number of blocks is returned exactly if the disk has all of
    them, and the calls are for those it has, in order and each inside of a track. -/
def Transferred (start count buffer : Nat) (r : List Transfer × Int) : Prop :=
  (r.2 = count ↔ count = 0 ∨ start + count ≤ 2880) ∧
  r.1.flatMap Transfer.blocks = blocksFrom start buffer (min count (2880 - start)) ∧
  ∀ t ∈ r.1, t.InTrack

/-- **Reads and writes of many sectors** by a controller that does not fail. -/
theorem floppy_transfers (fdcRead fdcWrite : List Transfer → Int)
    (hread : ∀ calls, 0 ≤ fdcRead calls) (hwrite : ∀ calls, 0 ≤ fdcWrite calls)
    (start count buffer : Nat) :
    (∃ r, floppyRead fdcRead start count buffer = some r ∧ Transferred start count buffer r) ∧
    ∃ r, floppyWrite fdcWrite start count buffer = some r ∧ Transferred start count buffer r := by
  have hret : (if count = 0 ∨ start + count ≤ 2880 then i32 count else -1) = (count : Int) ↔
      count = 0 ∨ start + count ≤ 2880 := by
    split
    · rename_i hfits
      exact iff_of_true (i32_of_range (by omega) (by omega)) hfits
    · rename_i hno
      exact iff_of_false (by omega) hno
  obtain ⟨calls, hrun, hblocks, htrack⟩ :=
    floppyLoop_spec hread count _ count start buffer [] (Nat.lt_succ_self count)
  obtain ⟨calls', hrun', hblocks', htrack'⟩ :=
    floppyLoop_spec hwrite count _ count start buffer [] (Nat.lt_succ_self count)
  exact ⟨⟨_, hrun, hret, hblocks, htrack⟩, _, hrun', hret, hblocks', htrack'⟩

/-- Of 20 blocks from block 2870 on the disk has 10. -/
theorem floppy_transfers_end : ∃ r, floppyRead (fun _ => 0) 2870 20 0 = some r ∧ r.2 ≠ 20 ∧
    r.1.flatMap Transfer.blocks = blocksFrom 2870 0 10 := by
  obtain ⟨⟨r, hrun, hret, hblocks, -⟩, -⟩ := floppy_transfers (fun _ => 0) (fun _ => 0)
    (fun _ => Int.le_refl 0) (fun _ => Int.le_refl 0) 2870 20 0
  exact ⟨r, hrun, mt hret.mp (by decide), hblocks⟩

end AtomOs
