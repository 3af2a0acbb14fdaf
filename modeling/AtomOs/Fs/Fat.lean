import Mathlib.Data.List.Basic
import AtomOs.Lib.Word

/-!
# FAT12: bytes, names, directory entries and the allocation table

The part of `base/fat12.c` that does not touch the file system's state: the file allocation
table as packed 12-bit values (`get_clval12`, `set_clval12`), the successor of a cluster
(`next_cluster_12`), the search for a free one (`alloc_block12`), the 32 bytes of a directory
entry, and the conversion of a file name to its 11 bytes (`convert_name`). The string functions
are those of `base/string.c`.

A byte array is a function from indices to bytes. The root directory is at clusters
`-12, …, 1`, so cluster numbers are integers; the table is an array with an integer index, since
the source also indexes it with those.
-/

namespace AtomOs

open Lib

abbrev Bytes := Nat → Nat

namespace Bytes

def skip (b : Bytes) (pos : Nat) : Bytes := fun i => b (pos + i)

/-- `bcopy(src, &b[pos], n)`. -/
def copy (b : Bytes) (pos n : Nat) (src : Bytes) : Bytes :=
  fun i => if pos ≤ i ∧ i < pos + n then src (i - pos) else b i

/-- `b[pos] = v`. -/
def put (b : Bytes) (pos v : Nat) : Bytes := fun i => if i = pos then v else b i

/-- The array after `bzero`. -/
def zero : Bytes := fun _ => 0

/-- The array that starts with the bytes of a list. -/
def ofList (l : List Nat) : Bytes := fun i => l.getD i 0

theorem copy_in {b src : Bytes} {pos n i : Nat} (h : i < n) :
    (b.copy pos n src) (pos + i) = src i := by
  have hin : pos ≤ pos + i ∧ pos + i < pos + n := by omega
  rw [copy, if_pos hin, Nat.add_sub_cancel_left]

theorem copy_out {b src : Bytes} {pos n i : Nat} (h : i < pos ∨ pos + n ≤ i) :
    (b.copy pos n src) i = b i := by
  have hout : ¬ (pos ≤ i ∧ i < pos + n) := by omega
  rw [copy, if_neg hout]

@[simp] theorem put_same (b : Bytes) (pos v : Nat) : b.put pos v pos = v := by simp [put]

theorem put_ne {b : Bytes} {pos v i : Nat} (h : i ≠ pos) : b.put pos v i = b i := by
  simp [put, h]

end Bytes

/-! ## Strings -/

/-- The loop of `strncmp`, with `left` more characters to go; whether the result is 0. -/
def strncmpEq (a b : Bytes) : Nat → Nat → Bool
  | 0, i => a i == b i
  | left + 1, i => if a i = b i ∧ a i ≠ 0 then strncmpEq a b left (i + 1) else a i == b i

/-- `strncmp(a, b, 11) == 0`. -/
def sameName (a b : Bytes) : Bool := strncmpEq a b 10 0

def toupper (c : Nat) : Nat := if 97 ≤ c ∧ c ≤ 122 then c - 32 else c

/-- Filled up with blanks to `n` characters. -/
def blankTo (n : Nat) (l : List Nat) : List Nat := l ++ List.replicate (n - l.length) 32

/-- `convert_name`: the 11 bytes of a name in a directory entry, `none` for a name that has no
    such form. -/
def convertName (source : List Nat) : Option (List Nat) :=
  let source := source.dropWhile (· == 32)
  let base := (source.take 8).takeWhile (· != 46)
  match source, source.drop base.length with
  | [], _ => none
  | _, [] => some (blankTo 11 (base.map toupper))
  | _, c :: ext =>
    if base.length = 8 ∧ c ≠ 46 then none
    else if 3 < ext.length then none
    else some (blankTo 8 (base.map toupper) ++ blankTo 3 (ext.map toupper))

/-! ## Directory entries -/

def ftypeDir : Nat := 0x10

/-- The two's complement reading of 16 bits. -/
def s16 (x : Nat) : Int := if x % 65536 < 32768 then x % 65536 else x % 65536 - 65536

namespace Dirent

def attrib (d : Bytes) : Nat := d 11

/-- `dent->start_cluster`, a `short`. -/
def startCluster (d : Bytes) : Int := s16 (d 26 % 256 + 256 * (d 27 % 256))

def fsize (d : Bytes) : Nat :=
  d 28 % 256 + 256 * (d 29 % 256) + 65536 * (d 30 % 256) + 16777216 * (d 31 % 256)

def setStart (d : Bytes) (v : Int) : Bytes :=
  let u := (v % 65536).toNat
  (d.put 26 (u % 256)).put 27 (u / 256)

def setFsize (d : Bytes) (n : Nat) : Bytes :=
  (((d.put 28 (n % 256)).put 29 (n / 256 % 256)).put 30 (n / 65536 % 256)).put 31
    (n / 16777216 % 256)

/-- `mark_time_date`, with the two words it computes from the clock. -/
def mark (d : Bytes) (time date : Nat) : Bytes :=
  (((d.put 22 (time % 256)).put 23 (time / 256 % 256)).put 24 (date % 256)).put 25
    (date / 256 % 256)

def isDir (d : Bytes) : Bool := attrib d / 16 % 2 == 1

/-- `(st_mode & 0222) == 0`, for the mode `fat12_vop_getattr` gives. -/
def readOnly (d : Bytes) : Bool :=
  attrib d % 2 == 1 || attrib d / 4 % 2 == 1 || attrib d / 8 % 2 == 1

/-- A slot that holds no entry: never used, or deleted. -/
def unused (d : Bytes) : Bool := d 0 == 0 || d 0 == 0xE5

section fields

variable {d d' : Bytes} {v : Int} {n i time date : Nat}

theorem startCluster_congr (h : ∀ i, 26 ≤ i → i < 32 → d' i = d i) :
    startCluster d' = startCluster d := by
  rw [startCluster, startCluster, h 26 (by omega) (by omega), h 27 (by omega) (by omega)]

theorem fsize_congr (h : ∀ i, 26 ≤ i → i < 32 → d' i = d i) : fsize d' = fsize d := by
  rw [fsize, fsize, h 28 (by omega) (by omega), h 29 (by omega) (by omega),
    h 30 (by omega) (by omega), h 31 (by omega) (by omega)]

theorem setStart_out (h : i < 26 ∨ 28 ≤ i) : setStart d v i = d i := by
  unfold setStart
  rw [Bytes.put_ne (by omega), Bytes.put_ne (by omega)]

theorem setFsize_out (h : i < 28 ∨ 32 ≤ i) : setFsize d n i = d i := by
  unfold setFsize
  rw [Bytes.put_ne (by omega), Bytes.put_ne (by omega), Bytes.put_ne (by omega),
    Bytes.put_ne (by omega)]

theorem mark_out (h : i < 22 ∨ 26 ≤ i) : mark d time date i = d i := by
  unfold mark
  rw [Bytes.put_ne (by omega), Bytes.put_ne (by omega), Bytes.put_ne (by omega),
    Bytes.put_ne (by omega)]

theorem startCluster_setStart (h0 : -32768 ≤ v) (h1 : v < 32768) :
    startCluster (setStart d v) = v := by
  have h26 : setStart d v 26 = (v % 65536).toNat % 256 := by simp [setStart, Bytes.put]
  have h27 : setStart d v 27 = (v % 65536).toNat / 256 := by simp [setStart]
  rw [startCluster, h26, h27, s16]
  split <;> omega

@[simp] theorem fsize_setStart : fsize (setStart d v) = fsize d := by
  have hout : ∀ i, 28 ≤ i → setStart d v i = d i := fun i hi => setStart_out (.inr hi)
  rw [fsize, fsize, hout 28 (by omega), hout 29 (by omega), hout 30 (by omega), hout 31 (by omega)]

@[simp] theorem startCluster_setFsize : startCluster (setFsize d n) = startCluster d := by
  rw [startCluster, startCluster, setFsize_out (by omega), setFsize_out (by omega)]

theorem fsize_setFsize (h : n < 4294967296) : fsize (setFsize d n) = n := by
  have h28 : setFsize d n 28 = n % 256 := by simp [setFsize, Bytes.put]
  have h29 : setFsize d n 29 = n / 256 % 256 := by simp [setFsize, Bytes.put]
  have h30 : setFsize d n 30 = n / 65536 % 256 := by simp [setFsize, Bytes.put]
  have h31 : setFsize d n 31 = n / 16777216 % 256 := by simp [setFsize, Bytes.put]
  rw [fsize, h28, h29, h30, h31]
  omega

@[simp] theorem startCluster_mark : startCluster (mark d time date) = startCluster d :=
  startCluster_congr fun _ h _ => mark_out (.inr h)

end fields

end Dirent

/-! ## The allocation table -/

/-- The table, by byte. -/
abbrev FatTable := Int → Nat

def FatTable.put (fat : FatTable) (i : Int) (v : Nat) : FatTable :=
  fun j => if j = i then v else fat j

def fatIndex (clno : Int) : Int := (clno * 3).tdiv 2

def getClval12 (fat : FatTable) (clno : Int) : Nat :=
  let i := fatIndex clno
  let val := fat i % 256 + 256 * (fat (i + 1) % 256)
  if clno.tmod 2 = 0 then val % 4096 else val / 16 % 4096

def setClval12 (fat : FatTable) (clno : Int) (val : Nat) : FatTable :=
  let i := fatIndex clno
  if clno.tmod 2 = 0 then
    (fat.put i (val % 256)).put (i + 1) (fat (i + 1) % 256 / 16 * 16 + val / 256 % 16)
  else
    (fat.put i (fat i % 16 + val % 16 * 16)).put (i + 1) (val / 16 % 256)

/-- `next_cluster_12`; its result is an `unsigned short`. -/
def nextCluster12 (fat : FatTable) (clno : Int) : Nat :=
  if clno < 1 then ((clno + 1) % 65536).toNat
  else if clno = 1 then 0xfff
  else if clno ≤ 0xff6 then getClval12 fat clno
  else 0

/-- The successor as the loops over an `int` cluster number compute it. -/
def stepCluster (fat : FatTable) (cur : Int) : Int :=
  if cur < 1 then cur + 1 else if cur = 1 then 0xfff else nextCluster12 fat cur

/-- The successor as the loops over an `unsigned short` compute it. -/
def stepCluster16 (fat : FatTable) (cur : Nat) : Nat :=
  if cur < 1 then cur + 1 else if cur = 1 then 0xfff else nextCluster12 fat cur

/-- `fat12->total_sect / fat12->spc`. -/
def totalSect : Nat := 2880

/-- `alloc_block12`: the first free cluster, marked as the end of a chain; 0 if there is none. -/
def allocBlock12 (fat : FatTable) : Nat × FatTable :=
  match (List.range' 2 (totalSect - 2)).find? fun (i : Nat) => getClval12 fat i == 0 with
  | none => (0, fat)
  | some i => (i, setClval12 fat i 0xfff)

/-- The bound on the walks along a chain. A walk that has not ended by then has met a cluster
    twice. -/
def chainFuel : Nat := 5000

/-- `free_cluster_chain`. -/
def freeChainFrom : Nat → FatTable → Nat → Option FatTable
  | 0, _, _ => none
  | fuel + 1, fat, clno =>
    if 0xff8 ≤ clno then some fat
    else freeChainFrom fuel (setClval12 fat clno 0) (nextCluster12 fat clno)

def freeClusterChain (fat : FatTable) (start : Int) : Option FatTable :=
  freeChainFrom chainFuel fat (start % 65536).toNat

/-- The walk of `delete_cluster_from_chain` to the predecessor of `cl`. -/
def findBefore (fat : FatTable) (cl : Int) : Nat → Nat → Option Nat
  | 0, _ => none
  | fuel + 1, prev =>
    if (nextCluster12 fat prev : Int) = cl then some prev
    else findBefore fat cl fuel (nextCluster12 fat prev)

/-- `delete_cluster_from_chain`, for the chain that begins at `start`. -/
def deleteClusterFromChain (fat : FatTable) (start cl : Int) : Option FatTable :=
  if cl < 2 then some fat
  else
    (findBefore fat cl chainFuel (start % 65536).toNat).map fun prev =>
      setClval12 (setClval12 fat prev (nextCluster12 fat cl)) cl 0

end AtomOs
