import Mathlib.Data.BitVec

/-!
# The checksum of a frame

`checksum` XORs the 16-bit words of up to three buffers. Of the word at an odd end only the low byte
counts, although the code reads the byte behind the buffer with it. So it is the XOR of the words of
the bytes alone (**`addBuffer_eq`**), and its laws are those of XOR: **`checksum_laws`**.
-/

namespace AtomOs.Net

open List

/-- Memory, by byte. -/
abbrev Bytes := Nat → BitVec 8

/-- The `unsigned short` at `p`, low byte first. -/
def shortAt (mem : Bytes) (p : Nat) : BitVec 16 := mem (p + 1) ++ mem p

/-- The loop over `n` words from `si_ptr` on; also where it leaves `si_ptr`. -/
def xorShorts (mem : Bytes) : Nat → Nat → BitVec 16 → BitVec 16 × Nat
  | 0, siPtr, checkSum => (checkSum, siPtr)
  | n + 1, siPtr, checkSum => xorShorts mem n (siPtr + 2) (checkSum ^^^ shortAt mem siPtr)

/-- What `checksum` does with one buffer. -/
def addBuffer (mem : Bytes) (buf len : Nat) (checkSum : BitVec 16) : BitVec 16 :=
  let (sum, siPtr) := xorShorts mem (len / 2) buf checkSum
  if len % 2 = 1 then sum ^^^ (shortAt mem siPtr &&& 0x00ff) else sum

/-- `checksum`; `0` is `NULL`. -/
def checksum (mem : Bytes) (buf1 len1 buf2 len2 buf3 len3 : Nat) : BitVec 16 :=
  let sum1 := addBuffer mem buf1 len1 0
  let sum2 := if buf2 ≠ 0 then addBuffer mem buf2 len2 sum1 else sum1
  if buf3 ≠ 0 then addBuffer mem buf3 len3 sum2 else sum2

/-! ## The words of a list of bytes -/

/-- The bytes `l` are in memory from `p` on. -/
def Holds (mem : Bytes) : Nat → List (BitVec 8) → Prop
  | _, [] => True
  | p, b :: l => mem p = b ∧ Holds mem (p + 1) l

/-- The XOR of the words of `l`, the last one filled up with `0`. -/
def shortsXor : List (BitVec 8) → BitVec 16
  | [] => 0
  | [b] => 0#8 ++ b
  | b :: b' :: l => (b' ++ b) ^^^ shortsXor l

variable {mem : Bytes} {p : Nat} {l l' : List (BitVec 8)}

theorem and_low (b b' : BitVec 8) : (b' ++ b) &&& (0x00ff : BitVec 16) = 0#8 ++ b := by
  have hmask : (0x00ff : BitVec 16) = 0#8 ++ BitVec.allOnes 8 := rfl
  rw [hmask, BitVec.and_append, BitVec.and_zero, BitVec.and_allOnes]

theorem addBuffer_eq (h : Holds mem p l) (s : BitVec 16) :
    addBuffer mem p l.length s = s ^^^ shortsXor l := by
  induction l using shortsXor.induct generalizing p s with
  | case1 => simp [addBuffer, xorShorts, shortsXor]
  | case2 b =>
    obtain ⟨rfl, -⟩ := h
    have hone : addBuffer mem p 1 s = s ^^^ (shortAt mem p &&& 0x00ff) := rfl
    rw [length_singleton, hone, shortAt, and_low, shortsXor]
  | case3 b b' l ih =>
    obtain ⟨rfl, rfl, hl⟩ := h
    have hdiv : (l.length + 1 + 1) / 2 = l.length / 2 + 1 := by omega
    have hmod : (l.length + 1 + 1) % 2 = l.length % 2 := by omega
    have hstep : addBuffer mem p (l.length + 1 + 1) s =
        addBuffer mem (p + 2) l.length (s ^^^ shortAt mem p) := by
      simp only [addBuffer, hdiv, hmod, xorShorts]
    rw [length_cons, length_cons, hstep, ih hl, shortsXor, shortAt, BitVec.xor_assoc]

theorem shortsXor_append (heven : l.length % 2 = 0) :
    shortsXor (l ++ l') = shortsXor l ^^^ shortsXor l' := by
  induction l using shortsXor.induct with
  | case1 => simp [shortsXor]
  | case2 b => simp at heven
  | case3 b b' l ih =>
    have heven' : l.length % 2 = 0 := by
      simp only [length_cons] at heven
      omega
    simp only [cons_append, shortsXor, ih heven', BitVec.xor_assoc]

/-- The checksum of the one buffer at `p`, which holds `l`; `assemble` computes it of a frame. -/
def frameSum (mem : Bytes) (p : Nat) (l : List (BitVec 8)) : BitVec 16 :=
  checksum mem p l.length 0 0 0 0

theorem frameSum_eq (h : Holds mem p l) : frameSum mem p l = shortsXor l := by
  simp only [frameSum, checksum, ne_eq, not_true_eq_false, if_false, addBuffer_eq h]
  exact BitVec.zero_xor

theorem addBuffer_null (h : Holds mem p l) (hnull : p = 0 → l = []) (s : BitVec 16) :
    (if p ≠ 0 then addBuffer mem p l.length s else s) = s ^^^ shortsXor l := by
  by_cases hp : p = 0
  · rw [if_neg (not_not.mpr hp), hnull hp, shortsXor]
    exact BitVec.xor_zero.symm
  · rw [if_pos hp, addBuffer_eq h]

/-! ## The laws -/

theorem append_bytes (w : BitVec 16) : w.extractLsb' 8 8 ++ w.extractLsb' 0 8 = w := by
  rw [BitVec.extractLsb'_append_extractLsb'_eq_extractLsb' (by rfl)]
  simp

theorem shortsXor_ne {w w' post : List (BitVec 8)} (hlen : w.length = w'.length) (hne : w ≠ w')
    (hw : w.length = 2 ∨ w.length = 1 ∧ post = []) :
    shortsXor (w ++ post) ≠ shortsXor (w' ++ post) := by
  intro he
  obtain h2 | ⟨h1, rfl⟩ := hw
  · obtain ⟨a, b, rfl⟩ := length_eq_two.mp h2
    obtain ⟨a', b', rfl⟩ := length_eq_two.mp (hlen.symm.trans h2)
    have hword : b ++ a = b' ++ a' := (BitVec.xor_left_inj _).mp he
    have hlow := congrArg (BitVec.extractLsb' 0 8) hword
    have hhigh := congrArg (BitVec.extractLsb' 8 8) hword
    rw [BitVec.extractLsb'_append_eq_right, BitVec.extractLsb'_append_eq_right] at hlow
    rw [BitVec.extractLsb'_append_eq_left, BitVec.extractLsb'_append_eq_left] at hhigh
    exact hne (by rw [hlow, hhigh])
  · obtain ⟨a, rfl⟩ := length_eq_one_iff.mp h1
    obtain ⟨a', rfl⟩ := length_eq_one_iff.mp (hlen.symm.trans h1)
    have hlow : BitVec.extractLsb' 0 8 (0#8 ++ a) = BitVec.extractLsb' 0 8 (0#8 ++ a') :=
      congrArg _ he
    rw [BitVec.extractLsb'_append_eq_right, BitVec.extractLsb'_append_eq_right] at hlow
    exact hne (by rw [hlow])

/-- **The laws of the checksum.** Three buffers, of which the first two are even, have the checksum of
    what they hold together. A frame that is given the checksum it has with `0` in the field (at an
    even offset) has checksum `0`, and changing one word of a frame of checksum `0`, or the one byte
    of its last word, gives it another one. -/
theorem checksum_laws (mem mem' : Bytes) (p p' : Nat) :
    (∀ p₂ p₃ b₁ b₂ b₃, b₁.length % 2 = 0 → b₂.length % 2 = 0 → (p₂ = 0 → b₂ = []) →
      (p₃ = 0 → b₃ = []) → Holds mem p b₁ → Holds mem p₂ b₂ → Holds mem p₃ b₃ →
      Holds mem' p' (b₁ ++ b₂ ++ b₃) →
      checksum mem p b₁.length p₂ b₂.length p₃ b₃.length =
        frameSum mem' p' (b₁ ++ b₂ ++ b₃)) ∧
    (∀ pre post c, pre.length % 2 = 0 → Holds mem p (pre ++ [0, 0] ++ post) →
      c = frameSum mem p (pre ++ [0, 0] ++ post) →
      Holds mem' p' (pre ++ [c.extractLsb' 0 8, c.extractLsb' 8 8] ++ post) →
      frameSum mem' p' (pre ++ [c.extractLsb' 0 8, c.extractLsb' 8 8] ++ post) = 0) ∧
    ∀ pre w w' post, pre.length % 2 = 0 → w.length = w'.length → w ≠ w' →
      (w.length = 2 ∨ w.length = 1 ∧ post = []) → Holds mem p (pre ++ (w ++ post)) →
      frameSum mem p (pre ++ (w ++ post)) = 0 →
      Holds mem' p' (pre ++ (w' ++ post)) →
      frameSum mem' p' (pre ++ (w' ++ post)) ≠ 0 := by
  refine ⟨?_, ?_, ?_⟩
  · intro p₂ p₃ b₁ b₂ b₃ he₁ he₂ hn₂ hn₃ h₁ h₂ h₃ hall
    have he : (b₁ ++ b₂).length % 2 = 0 := by
      rw [length_append]
      omega
    rw [frameSum_eq hall, shortsXor_append he, shortsXor_append he₁, checksum, addBuffer_eq h₁,
      addBuffer_null h₂ hn₂, addBuffer_null h₃ hn₃]
    exact congrArg (· ^^^ _ ^^^ _) BitVec.zero_xor
  · intro pre post c he h hc h'
    rw [frameSum_eq h, append_assoc, shortsXor_append he] at hc
    rw [frameSum_eq h', append_assoc, shortsXor_append he]
    have hzero : shortsXor ([0, 0] ++ post) = shortsXor post := BitVec.zero_xor
    have hfield : shortsXor ([c.extractLsb' 0 8, c.extractLsb' 8 8] ++ post) = c ^^^ shortsXor post :=
      congrArg (· ^^^ _) (append_bytes c)
    rw [hfield, BitVec.xor_comm c, ← BitVec.xor_assoc, ← hzero, ← hc]
    exact BitVec.xor_self
  · intro pre w w' post he hlen hne hw h h0 h' h0'
    rw [frameSum_eq h, shortsXor_append he] at h0
    rw [frameSum_eq h', shortsXor_append he] at h0'
    exact shortsXor_ne hlen hne hw ((BitVec.xor_right_inj _).mp (h0.trans h0'.symm))

/-- A frame of five bytes with its field at offset `2`, summed in two parts. -/
theorem checksum_laws_frame :
    let mem : Bytes := fun i => [1, 2, 0, 0, 5].getD (i - 8) 0
    let mem' : Bytes := fun i => [1, 2, 4, 2, 5].getD (i - 8) 0
    checksum mem 8 4 0 0 12 1 = checksum mem 8 5 0 0 0 0 ∧ checksum mem' 8 5 0 0 0 0 = 0 ∧
      checksum mem 8 5 0 0 0 0 ≠ 0 := by
  intro mem mem'
  have hfield : Holds mem 8 [1, 2, 0, 0, 5] := ⟨rfl, rfl, rfl, rfl, rfl, trivial⟩
  have hframe : Holds mem' 8 [1, 2, 4, 2, 5] := ⟨rfl, rfl, rfl, rfl, rfl, trivial⟩
  have hsum : checksum mem' 8 5 0 0 0 0 = 0 :=
    (checksum_laws mem mem' 8 8).2.1 [1, 2] [5] 0x0204 rfl hfield (by decide) hframe
  refine ⟨?_, hsum, ?_⟩
  · exact (checksum_laws mem mem 8 8).1 0 12 [1, 2, 0, 0] [] [5] rfl rfl (fun _ => rfl)
      (fun h => absurd h (by decide)) ⟨rfl, rfl, rfl, rfl, trivial⟩ trivial ⟨rfl, trivial⟩ hfield
  · exact (checksum_laws mem' mem 8 8).2.2 [1, 2] [4, 2] [0, 0] [5] rfl rfl (by decide) (.inl rfl)
      hframe hsum hfield

end AtomOs.Net
