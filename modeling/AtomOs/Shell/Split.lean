import AtomOs.Lib.Word
import AtomOs.Fs.Calls

/-!
# The `split` command

`split` (`shell.c`) copies a file, in blocks of 512 bytes, to pieces of a given size. A block that
does not fit in the piece is divided: its first bytes fill the piece, and the rest is meant for the next
one. The first piece comes from `creat`; the later ones from `open` with `O_CREAT` and nothing else. A
file table entry opened so has no `FTFLAGS_WRITE`, so each `write` to it is refused with
`EINVALID_HANDLE`, which `split` does not look at: all pieces but the first stay empty.

A run is described by what it has done with the bytes read so far (`SplitInv`): the first piece has the
first `size` of them, and what other pieces there are have none. One block keeps this
(`SplitInv.splitBlock`), so the loop does. **`split_loses_nothing`**: the pieces are what they should be
just if the file fits in one of them.

The file system calls succeed, apart from the writes that `syscall_write` refuses; no file with the name of
a piece exists before.
-/

namespace AtomOs

open Lib List

/-- The number that the third argument is, an `int`. -/
def splitSize (arg : List Int) : Int :=
  arg.foldl (fun size ch => i32 (size * 10 + ch - 48)) 0

/-- `name` for the piece `c`; the base name has at most 8 characters, so all of it was copied. -/
def pieceName (base : List Nat) (c : Nat) : List Nat :=
  base ++ [46, c / 100 + 48, c / 10 % 10 + 48, c % 100 + 48]

/-! ## The flags of an open file -/

/-- `fte_flags` after `syscall_creat`. -/
def creatFlags : Nat := fteUsed ||| ftflagsChanged ||| ftflagsWrite ||| ftflagsFile

/-- `valid_handle(handle, FTFLAGS_WRITE)`, of a file handle. -/
def writeAllowed (fteFlags : Nat) : Bool := fteFlags &&& ftflagsWrite ≠ 0

/-! ## The loop -/

/-- A file that `split` makes: its name, the flags it is open with, and what is in it. -/
structure Piece where
  name : List Nat
  fteFlags : Nat
  content : List Nat
deriving DecidableEq

/-- The variables of the loop, and the pieces, the open one first. -/
structure Splitting where
  count : Int
  c : Nat
  pieces : List Piece
deriving DecidableEq

/-- `write(fdnew, bytes, …)`: it is refused if the file is not open for writing. -/
def writePiece (bytes : List Nat) : List Piece → List Piece
  | [] => []
  | p :: rest =>
    (if writeAllowed p.fteFlags then { p with content := p.content ++ bytes } else p) :: rest

/-- The body of the loop. `creat` makes the first piece, and `open(name, O_CREAT, 0)` the others. -/
def splitBlock (base : List Nat) (size : Int) (s : Splitting) (buffer : List Nat) : Splitting :=
  let pieces := if s.pieces.isEmpty then [⟨pieceName base s.c, creatFlags, []⟩] else s.pieces
  if i32 (s.count + buffer.length) ≤ size then
    ⟨i32 (s.count + buffer.length), s.c, writePiece buffer pieces⟩
  else
    let i := (size - s.count).toNat
    ⟨0, s.c + 1, writePiece (buffer.drop i)
      (⟨pieceName base (s.c + 1), openFlags (openType oCreat), []⟩ :: writePiece (buffer.take i) pieces)⟩

/-- What the calls of `read` return, for a file of at most `n` bytes. -/
def fileBlocks : Nat → List Nat → List (List Nat)
  | 0, _ => []
  | n + 1, file => if file.isEmpty then [] else file.take 512 :: fileBlocks n (file.drop 512)

/-- The pieces that `split` makes of a file, in the order in which it makes them. -/
def split (file base : List Nat) (arg : List Int) : List Piece :=
  if splitSize arg ≤ 0 then [] else
    ((fileBlocks file.length file).foldl (splitBlock base (splitSize arg)) ⟨0, 0, []⟩).pieces.reverse

/-! ## What the loop has done -/

/-- **The state after the bytes `p`**: as long as they fit they are the content of the first piece; from
    then on the open piece is one of the later ones, which are all empty. -/
structure SplitInv (base : List Nat) (size : Nat) (p : List Nat) (s : Splitting) : Prop where
  one : p.length ≤ size → s = ⟨p.length, 0, [⟨pieceName base 0, creatFlags, p⟩]⟩
  more : size < p.length → 0 ≤ s.count ∧ s.count ≤ size ∧ ∃ later : List Piece, later ≠ [] ∧
    (∀ q ∈ later, q.fteFlags = openFlags (openType oCreat) ∧ q.content = []) ∧
    s.pieces = later ++ [⟨pieceName base 0, creatFlags, p.take size⟩]

section oneBlock

variable {base bytes : List Nat} {size : Nat} {p b : List Nat} {s : Splitting}

theorem writePiece_creat {name content : List Nat} {rest : List Piece} :
    writePiece bytes (⟨name, creatFlags, content⟩ :: rest) =
      ⟨name, creatFlags, content ++ bytes⟩ :: rest := by
  have hallowed : writeAllowed creatFlags := by decide
  rw [writePiece, if_pos hallowed]

theorem writePiece_later {later rest : List Piece} (hne : later ≠ [])
    (hlater : ∀ q ∈ later, q.fteFlags = openFlags (openType oCreat) ∧ q.content = []) :
    writePiece bytes (later ++ rest) = later ++ rest := by
  cases later with
  | nil => exact absurd rfl hne
  | cons q later =>
    rw [cons_append, writePiece, (hlater q mem_cons_self).1, if_neg (by decide)]

theorem SplitInv.splitBlock (h : SplitInv base size p s) (hb : b.length ≤ 512)
    (hmax : p.length + b.length < 2147483648) :
    SplitInv base size (p ++ b) (splitBlock base size s b) := by
  by_cases hp : p.length ≤ size
  · have hcount : i32 (p.length + b.length) = p.length + b.length :=
      i32_of_range (by omega) (by omega)
    rw [h.one hp, AtomOs.splitBlock]
    simp only [hcount, isEmpty_cons, Bool.false_eq_true, if_false, writePiece_creat]
    by_cases hfit : p.length + b.length ≤ size
    · rw [if_pos (by omega)]
      refine ⟨fun _ => by rw [length_append, Nat.cast_add], fun hlt => ?_⟩
      rw [length_append] at hlt
      omega
    · -- the block is divided, and its rest goes nowhere
      have hi : ((size : Int) - p.length).toNat = size - p.length := by omega
      rw [if_neg (by omega), hi]
      refine ⟨fun hle => ?_, fun _ => ⟨le_rfl, Int.natCast_nonneg size,
        [⟨pieceName base 1, openFlags (openType oCreat), []⟩], cons_ne_nil _ _, by simp, ?_⟩⟩
      · rw [length_append] at hle
        exact absurd hle hfit
      · rw [take_append, take_of_length_le hp]
        exact writePiece_later (show [_] ≠ [] from cons_ne_nil _ _) (by simp)
  · obtain ⟨h0, hle, later, hne, hlater, hpieces⟩ := h.more (Nat.lt_of_not_le hp)
    have hcount : i32 (s.count + b.length) = s.count + b.length :=
      i32_of_range (by omega) (by omega)
    have hopen : s.pieces.isEmpty = false := by simp [hpieces]
    have htake : (p ++ b).take size = p.take size := take_append_of_le_length (by omega)
    refine ⟨fun hlen => ?_, fun _ => ?_⟩
    · rw [length_append] at hlen
      omega
    rw [AtomOs.splitBlock, htake]
    simp only [hcount, hopen, Bool.false_eq_true, if_false]
    rw [hpieces, writePiece_later hne hlater, writePiece_later hne hlater]
    split
    · rename_i hfit
      exact ⟨by simp only; omega, hfit, later, hne, hlater, rfl⟩
    · have hall : ∀ q ∈ ⟨pieceName base (s.c + 1), openFlags (openType oCreat), []⟩ :: later,
          q.fteFlags = openFlags (openType oCreat) ∧ q.content = [] :=
        forall_mem_cons.mpr ⟨⟨rfl, rfl⟩, hlater⟩
      exact ⟨le_rfl, Int.natCast_nonneg size, _, cons_ne_nil _ _, hall,
        writePiece_later (cons_ne_nil _ _) hall⟩

/-- **The whole loop**, by induction on the number of blocks. -/
theorem SplitInv.foldl (n : Nat) {p l : List Nat} {s : Splitting}
    (h : SplitInv base size p s) (hn : l.length ≤ n) (hmax : p.length + l.length < 2147483648) :
    SplitInv base size (p ++ l) ((fileBlocks n l).foldl (AtomOs.splitBlock base size) s) := by
  induction n generalizing p l s with
  | zero =>
    obtain rfl : l = [] := eq_nil_of_length_eq_zero (by omega)
    rwa [append_nil]
  | succ n ih =>
    rw [fileBlocks]
    split
    · rename_i hnil
      rwa [isEmpty_iff.mp hnil, append_nil]
    rename_i hcons
    have hpos : 0 < l.length := length_pos_iff.mpr fun h => hcons (isEmpty_iff.mpr h)
    have htake := length_take (i := 512) (l := l)
    have hdrop := length_drop (i := 512) (l := l)
    have hrest := ih (h.splitBlock (b := l.take 512) (by omega) (by omega))
      (l := l.drop 512) (by omega) (by rw [length_append]; omega)
    rwa [append_assoc, take_append_drop] at hrest

end oneBlock

/-- The pieces of a file that is not empty: the first one, and later ones that are empty if the file is
    longer than it. -/
theorem split_pieces {file : List Nat} (base : List Nat) {arg : List Int} {size : Nat}
    (hsz : splitSize arg = size) (hpos : 0 < size) (hne : file ≠ []) (hmax : file.length < 2147483648) :
    ∃ later : List Piece, (∀ q ∈ later, q.content = []) ∧ (file.length ≤ size → later = []) ∧
      split file base arg = ⟨pieceName base 0, creatFlags, file.take size⟩ :: later := by
  have hrun : SplitInv base size file
      ((fileBlocks file.length file).foldl (splitBlock base size) ⟨0, 0, []⟩) := by
    -- before the first block the loop behaves as if the first piece were open already
    have hstart : SplitInv base size [] ⟨0, 0, [⟨pieceName base 0, creatFlags, []⟩]⟩ :=
      ⟨fun _ => rfl, fun hlt => absurd hlt (Nat.not_lt_zero _)⟩
    have := hstart.foldl file.length (l := file) le_rfl (by rw [length_nil]; omega)
    cases file with
    | nil => exact absurd rfl hne
    | cons x xs => exact this
  have hsplit : split file base arg =
      ((fileBlocks file.length file).foldl (splitBlock base size) ⟨0, 0, []⟩).pieces.reverse := by
    rw [split, hsz, if_neg (by omega)]
  by_cases hle : file.length ≤ size
  · refine ⟨[], fun q hq => absurd hq not_mem_nil, fun _ => rfl, ?_⟩
    rw [hsplit, hrun.one hle, take_of_length_le hle]
    rfl
  · obtain ⟨-, -, later, -, hlater, hpieces⟩ := hrun.more (Nat.lt_of_not_le hle)
    refine ⟨later.reverse, fun q hq => (hlater q (mem_reverse.mp hq)).2, fun h => absurd h hle, ?_⟩
    rw [hsplit, hpieces, reverse_append]
    rfl

/-- **Nothing is lost** just if the file fits in one piece: then, and only then, the pieces are numbered in
    order, all but the last have the given size, and together they are the file. -/
theorem split_loses_nothing (file base : List Nat) (arg : List Int) (hsize : 0 < splitSize arg)
    (hmax : file.length < 2147483648) :
    ((split file base arg).map Piece.name =
        (range (split file base arg).length).map (pieceName base) ∧
      ((split file base arg).map Piece.name).Nodup ∧
      (∀ p ∈ (split file base arg).dropLast, (p.content.length : Int) = splitSize arg) ∧
      ((split file base arg).map Piece.content).flatten = file) ↔
      (file.length : Int) ≤ splitSize arg := by
  obtain ⟨size, hsz⟩ := Int.eq_ofNat_of_zero_le hsize.le
  rw [hsz] at hsize ⊢
  by_cases hne : file = []
  · subst hne
    have hnone : split [] base arg = [] := by
      rw [split, hsz, if_neg (by omega)]
      rfl
    simp [hnone]
  obtain ⟨later, hlater, hone, hsplit⟩ :=
    split_pieces base hsz (by omega) hne hmax
  rw [hsplit]
  constructor
  · rintro ⟨-, -, -, hflat⟩
    have hrest : (later.map Piece.content).flatten = [] := by
      rw [flatten_eq_nil_iff]
      exact forall_mem_map.mpr hlater
    rw [map_cons, flatten_cons, hrest, append_nil] at hflat
    have := congrArg length hflat
    rw [length_take] at this
    omega
  · intro hle
    rw [hone (by omega), take_of_length_le (by omega)]
    simp [range_succ]

/-- The theorem at a file of three bytes: in a piece of five nothing is lost, in pieces of two the last byte
    is. -/
theorem split_loses_nothing_three :
    ((split [7, 8, 9] [65] [53]).map Piece.content).flatten = [7, 8, 9] ∧
      (split [7, 8, 9] [65] [50]).map Piece.content = [[7, 8], []] :=
  ⟨((split_loses_nothing [7, 8, 9] [65] [53] (by decide) (by decide)).mpr (by decide)).2.2.2,
    by decide⟩

/-- **A byte that is lost**: three bytes in pieces of two are a piece of two bytes and an empty one. -/
theorem split_loses_byte : splitSize [50] = 2 ∧
    (split [7, 8, 9] [65] [50]).map (fun p => (p.name, p.content)) =
      [([65, 46, 48, 48, 48], [7, 8]), ([65, 46, 48, 48, 49], [])] := by
  decide

end AtomOs
