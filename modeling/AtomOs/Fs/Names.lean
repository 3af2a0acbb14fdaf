import Mathlib.Data.List.TakeWhile
import Mathlib.Data.List.TakeDrop
import AtomOs.Fs.Fat

/-!
# File names

A directory entry holds a name as eight and three characters filled up with blanks. `convert_name`
makes that form from a name with a dot, and `fat12_vop_readdir` prints it back. What is printed is the
name in capitals, without a dot that has nothing behind it (`printName_convert`). So printing and
converting are inverse to each other on names without blanks, and two names are the same file exactly
if they are printed alike (**`name_round_trip`**).
-/

namespace AtomOs

open List Bytes

variable {c k : Nat} {fname l : List Nat}

/-- The loop that copies a part of `dent->name` to `d_name`, up to the first blank. -/
def nameField (d : Bytes) (pos n : Nat) : List Nat :=
  ((List.range' pos n).map d).takeWhile (· != 32)

/-- `d_name`, as `fat12_vop_readdir` fills it. -/
def printName (d : Bytes) : List Nat :=
  nameField d 0 8 ++ if d 8 = 32 then [] else 46 :: nameField d 8 3

/-- The name without a final dot, if that is its first one. -/
def dropFinalDot (name : List Nat) : List Nat :=
  if name.idxOf 46 + 1 = name.length then name.dropLast else name

/-! ## Characters -/

theorem toupper_eq_blank : toupper c = 32 ↔ c = 32 := by
  unfold toupper
  split <;> omega

theorem toupper_eq_dot : toupper c = 46 ↔ c = 46 := by
  unfold toupper
  split <;> omega

theorem toupper_toupper (c : Nat) : toupper (toupper c) = toupper c := by
  unfold toupper
  split
  · rw [if_neg (by omega)]
  · rfl

theorem map_toupper_toupper (l : List Nat) : (l.map toupper).map toupper = l.map toupper := by
  simp [toupper_toupper]

theorem notMem_map_toupper (hc : ∀ x, toupper x = c ↔ x = c) (h : c ∉ l) : c ∉ l.map toupper := by
  intro hmem
  obtain ⟨x, hx, he⟩ := mem_map.mp hmem
  rw [(hc x).mp he] at hx
  exact h hx

/-! ## The two parts of a name -/

/-- The 11 bytes of a name in two parts. -/
def fields (base ext : List Nat) : List Nat := blankTo 8 base ++ blankTo 3 ext

/-- A name in two parts; a dot stands only in front of an extension. -/
def joinName (base ext : List Nat) : List Nat := base ++ if ext = [] then [] else 46 :: ext

/-- The parts of a name that fits in an entry. -/
structure Parts (base ext : List Nat) : Prop where
  nonempty : base ≠ []
  dotless : 46 ∉ base
  base_le : base.length ≤ 8
  ext_le : ext.length ≤ 3
  base_blank : 32 ∉ base
  ext_blank : 32 ∉ ext

variable {base ext name n : List Nat}

theorem Parts.map_toupper (h : Parts base ext) : Parts (base.map toupper) (ext.map toupper) where
  nonempty := by simpa using h.nonempty
  dotless := notMem_map_toupper (fun _ => toupper_eq_dot) h.dotless
  base_le := by simpa using h.base_le
  ext_le := by simpa using h.ext_le
  base_blank := notMem_map_toupper (fun _ => toupper_eq_blank) h.base_blank
  ext_blank := notMem_map_toupper (fun _ => toupper_eq_blank) h.ext_blank

theorem bne_of_mem {x : Nat} (h : x ∉ l) : ∀ c ∈ l, (c != x) = true := by
  intro c hc
  simpa using fun he : c = x => h (he ▸ hc)

theorem takeWhile_base (h : 46 ∉ base) : base.takeWhile (· != 46) = base :=
  takeWhile_eq_self_iff.mpr (bne_of_mem h)

theorem dropWhile_blank (h : 32 ∉ l) : l.dropWhile (· == 32) = l := by
  cases l with
  | nil => rfl
  | cons c l =>
    have hc : c ≠ 32 := fun he => h (he ▸ mem_cons_self)
    simp [hc]

theorem blankTo_eleven (h : base.length ≤ 8) : blankTo 11 base = fields base [] := by
  simp only [fields, blankTo, append_assoc, nil_append, replicate_append_replicate]
  congr 2
  simp only [length_nil]
  omega

/-- What `convert_name` makes of a name: two parts of it, in capitals, filled up with blanks. -/
theorem convertName_fields (h : convertName name = some fname) :
    ∃ base ext : List Nat, fname = fields (base.map toupper) (ext.map toupper) ∧ base.length ≤ 8 ∧
      ext.length ≤ 3 ∧ 46 ∉ base ∧ (∀ c ∈ base, c ∈ name) ∧ ∀ c ∈ ext, c ∈ name := by
  have hsource : ∀ c ∈ name.dropWhile (· == 32), c ∈ name := fun c hc =>
    (dropWhile_sublist _).mem hc
  have hle : ((name.dropWhile (· == 32)).take 8 |>.takeWhile (· != 46)).length ≤ 8 :=
    (takeWhile_sublist _).length_le.trans (length_take_le 8 _)
  have hmem : ∀ c ∈ (name.dropWhile (· == 32)).take 8 |>.takeWhile (· != 46), c ∈ name := fun c hc =>
    hsource c (mem_of_mem_take ((takeWhile_sublist _).mem hc))
  have hdot : 46 ∉ ((name.dropWhile (· == 32)).take 8 |>.takeWhile (· != 46)) := fun hc => by
    simpa using mem_takeWhile_imp hc
  unfold convertName at h
  simp only at h
  split at h
  · cases h
  · rw [Option.some.injEq, blankTo_eleven (by simpa using hle)] at h
    exact ⟨_, [], h.symm, hle, by simp, hdot, hmem, by simp⟩
  · next source c ext hdrop _ =>
    split at h
    · cases h
    split at h
    · cases h
    · rw [Option.some.injEq] at h
      refine ⟨_, ext, h.symm, hle, by omega, hdot, hmem, fun x hx => hsource x ?_⟩
      exact mem_of_mem_drop (hdrop ▸ mem_cons_of_mem c hx)

theorem length_blankTo (h : l.length ≤ k) : (blankTo k l).length = k := by
  rw [blankTo, length_append, length_replicate]
  omega

theorem mem_blankTo (h : c ∈ blankTo k l) : c ∈ l ∨ c = 32 := by
  rcases mem_append.mp h with h | h
  · exact .inl h
  · exact .inr (eq_of_mem_replicate h)

theorem convertName_length (h : convertName name = some fname) : fname.length = 11 := by
  obtain ⟨base, ext, rfl, hbase, hext, -⟩ := convertName_fields h
  rw [fields, length_append, length_blankTo (by simpa using hbase),
    length_blankTo (by simpa using hext)]

theorem convertName_nonzero (h : convertName name = some fname) (h0 : 0 ∉ name) : 0 ∉ fname := by
  obtain ⟨base, ext, rfl, -, -, -, hbase, hext⟩ := convertName_fields h
  have hpart : ∀ {k : Nat} {l : List Nat}, (∀ c ∈ l, c ∈ name) → 0 ∉ blankTo k (l.map toupper) := by
    intro k l hl hmem
    rcases mem_blankTo hmem with hmem | h32
    · obtain ⟨c, hc, hzero⟩ := mem_map.mp hmem
      have hc0 : c = 0 := by
        unfold toupper at hzero
        split at hzero <;> omega
      exact h0 (hc0 ▸ hl c hc)
    · omega
  rw [fields, mem_append, not_or]
  exact ⟨hpart hbase, hpart hext⟩

theorem convertName_head (h : convertName name = some fname) : ofList fname 0 ≠ 46 := by
  obtain ⟨base, ext, rfl, -, -, hdot, -⟩ := convertName_fields h
  cases base with
  | nil => simp [fields, blankTo, ofList, replicate_succ]
  | cons c base =>
    have hc : c ≠ 46 := fun hc => hdot (hc ▸ mem_cons_self)
    exact fun h => hc (toupper_eq_dot.mp h)

theorem convertName_base (h : Parts base []) : convertName base = some (fields (base.map toupper) []) := by
  have htake : (base.take 8).takeWhile (· != 46) = base := by
    rw [take_of_length_le h.base_le, takeWhile_base h.dotless]
  cases hb : base with
  | nil => exact absurd hb h.nonempty
  | cons c l =>
    rw [hb] at h htake
    rw [← blankTo_eleven (by simpa using h.base_le)]
    unfold convertName
    simp only [dropWhile_blank h.base_blank, htake, drop_length]

theorem takeWhile_dot (ext : List Nat) (hdot : 46 ∉ base) (hle : base.length ≤ 8) :
    ((base ++ 46 :: ext).take 8).takeWhile (· != 46) = base := by
  rw [take_append, take_of_length_le hle, takeWhile_append_of_pos (bne_of_mem hdot)]
  cases 8 - base.length with
  | zero => simp
  | succ k => simp

theorem convertName_dot (h : Parts base ext) :
    convertName (base ++ 46 :: ext) = some (fields (base.map toupper) (ext.map toupper)) := by
  have hblank : 32 ∉ base ++ 46 :: ext := by
    simp [h.base_blank, h.ext_blank]
  have hdrop : (base ++ 46 :: ext).drop base.length = 46 :: ext := drop_left
  have htake := takeWhile_dot ext h.dotless h.base_le
  cases hb : base ++ 46 :: ext with
  | nil => simp at hb
  | cons c l =>
    rw [hb] at hblank hdrop htake
    have hext : ¬ 3 < ext.length := Nat.not_lt.mpr h.ext_le
    unfold convertName
    simp only [dropWhile_blank hblank, htake, hdrop, ne_eq, not_true, and_false, if_false, hext]
    rfl

theorem head_rest (hbase : (name.take 8).takeWhile (· != 46) = base)
    (hname : base ++ c :: ext = name) (hlt : base.length < 8) : c = 46 := by
  have hsplit := takeWhile_append_dropWhile (p := (· != 46)) (l := name.take 8)
  have hwhole := take_append_drop 8 name
  rw [hbase] at hsplit
  cases hd : (name.take 8).dropWhile (· != 46) with
  | nil =>
    -- The base is all of the first eight characters, so the name is shorter than that.
    rw [hd, append_nil] at hsplit
    have hlen := congrArg List.length hname
    rw [hsplit, length_append, length_cons, length_take] at hlen
    rw [hsplit, length_take] at hlt
    omega
  | cons x l =>
    have hx : x = 46 := by
      have := head?_dropWhile_not (· != 46) (name.take 8)
      simpa [hd] using this
    rw [hd] at hsplit
    rw [← hsplit, append_assoc] at hwhole
    have hrest := append_cancel_left (hwhole.trans hname.symm)
    rw [cons_append, List.cons.injEq] at hrest
    exact hrest.1.symm.trans hx

theorem convertName_parts (hblank : 32 ∉ name) (hdot : name.head? ≠ some 46)
    (h : convertName name = some n) :
    ∃ base ext, Parts base ext ∧ n = fields (base.map toupper) (ext.map toupper) ∧
      (name = base ∧ ext = [] ∨ name = base ++ 46 :: ext) := by
  obtain ⟨base, hbase⟩ : ∃ base, (name.take 8).takeWhile (· != 46) = base := ⟨_, rfl⟩
  obtain ⟨rest, hname⟩ : base <+: name :=
    hbase ▸ (List.takeWhile_prefix _).trans (List.take_prefix 8 name)
  have hle : base.length ≤ 8 := hbase ▸ (List.takeWhile_prefix _).length_le.trans (by simp)
  have hdotless : 46 ∉ base := fun hmem => by
    rw [← hbase] at hmem
    simpa using mem_takeWhile_imp hmem
  have hdrop : name.drop base.length = rest := by
    rw [← hname, drop_left]
  have hbb : 32 ∉ base := fun hmem => hblank (hname ▸ mem_append_left _ hmem)
  have hrb : 32 ∉ rest := fun hmem => hblank (hname ▸ mem_append_right _ hmem)
  unfold convertName at h
  simp only [dropWhile_blank hblank, hbase, hdrop] at h
  cases rest with
  | nil =>
    rw [append_nil] at hname
    subst hname
    cases base with
    | nil => cases h
    | cons c l =>
      simp only [Option.some.injEq] at h
      refine ⟨c :: l, [], ⟨by simp, hdotless, hle, by simp, hbb, by simp⟩, ?_, .inl ⟨rfl, rfl⟩⟩
      rw [← h, blankTo_eleven (by simpa using hle)]
      rfl
  | cons c ext =>
    cases name with
    | nil => simp at hname
    | cons x name =>
      simp only at h
      split at h
      · cases h
      rename_i hstop
      split at h
      · cases h
      rename_i hext
      have hc : c = 46 := by
        by_contra hc
        exact hc (head_rest hbase hname (by omega))
      subst hc
      refine ⟨base, ext, ⟨?_, hdotless, hle, by omega, hbb, ?_⟩, ?_, .inr hname.symm⟩
      · rintro rfl
        exact hdot (by rw [← hname]; rfl)
      · exact fun hmem => hrb (mem_cons_of_mem _ hmem)
      · rw [Option.some.injEq] at h
        exact h.symm

/-! ## Printing -/

theorem takeWhile_blankTo (h : 32 ∉ l) : (blankTo k l).takeWhile (· != 32) = l := by
  rw [blankTo, takeWhile_append_of_pos (bne_of_mem h)]
  cases k - l.length with
  | zero => simp
  | succ m => simp [replicate_succ]

theorem map_ofList {r t : List Nat} :
    (List.range' l.length r.length).map (ofList (l ++ (r ++ t))) = r := by
  apply ext_getElem
  · simp
  · intro i h1 h2
    simp only [getElem_map, getElem_range', ofList, getD_eq_getElem?_getD, Nat.one_mul]
    rw [getElem?_append_right (Nat.le_add_right _ _), Nat.add_sub_cancel_left,
      getElem?_append_left h2, getElem?_eq_getElem h2, Option.getD_some]

theorem nameField_eq_nil {d : Bytes} {pos : Nat} : nameField d pos (k + 1) = [] ↔ d pos = 32 := by
  rw [nameField, List.range'_succ, map_cons, takeWhile_cons]
  by_cases h : d pos = 32
  · simp [h]
  · simp [h]

theorem printName_fields (h : Parts base ext) :
    printName (ofList (fields base ext)) = joinName base ext := by
  have hb := length_blankTo h.base_le
  have he := length_blankTo h.ext_le
  have hfirst : nameField (ofList (fields base ext)) 0 8 = base := by
    have := map_ofList (l := []) (r := blankTo 8 base) (t := blankTo 3 ext)
    rw [nil_append, length_nil, hb] at this
    rw [nameField, fields, this, takeWhile_blankTo h.base_blank]
  have hsecond : nameField (ofList (fields base ext)) 8 3 = ext := by
    have := map_ofList (l := blankTo 8 base) (r := blankTo 3 ext) (t := [])
    rw [append_nil, hb, he] at this
    rw [nameField, fields, this, takeWhile_blankTo h.ext_blank]
  have height : ofList (fields base ext) 8 = 32 ↔ ext = [] := by
    rw [← nameField_eq_nil (k := 2), hsecond]
  rw [printName, joinName, hfirst, hsecond]
  by_cases hext : ext = []
  · rw [if_pos hext, if_pos (height.mpr hext)]
  · rw [if_neg hext, if_neg (hext ∘ height.mp)]

theorem convertName_join (h : Parts base ext) :
    convertName (joinName base ext) = some (fields (base.map toupper) (ext.map toupper)) := by
  unfold joinName
  by_cases hext : ext = []
  · subst hext
    rw [if_pos rfl, append_nil]
    exact convertName_base h
  · rw [if_neg hext]
    exact convertName_dot h

theorem dropFinalDot_base (h : Parts base ext) : dropFinalDot base = base := by
  rw [dropFinalDot, idxOf_eq_length h.dotless, if_neg (by omega)]

theorem dropFinalDot_dot (h : Parts base ext) : dropFinalDot (base ++ 46 :: ext) = joinName base ext := by
  have hidx : (base ++ 46 :: ext).idxOf 46 = base.length := by
    rw [idxOf_append_of_notMem h.dotless, idxOf_cons_self, Nat.add_zero]
  rw [dropFinalDot, hidx, joinName, length_append, length_cons]
  by_cases hext : ext = []
  · subst hext
    simp
  · have hlen := length_pos_iff.mpr hext
    rw [if_neg hext, if_neg (by omega)]

theorem map_joinName (base ext : List Nat) :
    (joinName base ext).map toupper = joinName (base.map toupper) (ext.map toupper) := by
  unfold joinName
  by_cases hext : ext = []
  · simp [hext]
  · simp [hext, show toupper 46 = 46 from rfl]

/-- **What is printed** is the name in capitals, without a dot that has nothing behind it. -/
theorem printName_convert (hblank : 32 ∉ name) (hdot : name.head? ≠ some 46)
    (h : convertName name = some n) :
    printName (ofList n) = (dropFinalDot name).map toupper ∧
      convertName (printName (ofList n)) = some n := by
  obtain ⟨base, ext, hparts, rfl, hname⟩ := convertName_parts hblank hdot h
  have hprint := printName_fields hparts.map_toupper
  refine ⟨?_, ?_⟩
  · have hdrop : dropFinalDot name = joinName base ext := by
      rcases hname with ⟨rfl, rfl⟩ | rfl
      · rw [dropFinalDot_base hparts, joinName, if_pos rfl, append_nil]
      · exact dropFinalDot_dot hparts
    rw [hprint, hdrop, map_joinName]
  · rw [hprint, convertName_join hparts.map_toupper, map_toupper_toupper, map_toupper_toupper]

/-- **Names are read back as they were written**, and two names have the same bytes exactly if they are
    equal up to the case of letters and a final dot. -/
theorem name_round_trip (name n : List Nat) (hblank : 32 ∉ name) (hdot : name.head? ≠ some 46)
    (h : convertName name = some n) :
    convertName (printName (Bytes.ofList n)) = some n ∧
      ∀ name' n' : List Nat, 32 ∉ name' → name'.head? ≠ some 46 → convertName name' = some n' →
        (n = n' ↔ (dropFinalDot name).map toupper = (dropFinalDot name').map toupper) := by
  obtain ⟨hprint, hback⟩ := printName_convert hblank hdot h
  refine ⟨hback, fun name' n' hblank' hdot' h' => ?_⟩
  obtain ⟨hprint', hback'⟩ := printName_convert hblank' hdot' h'
  rw [← hprint, ← hprint']
  constructor
  · rintro rfl
    rfl
  · intro he
    rw [he, hback', Option.some.injEq] at hback
    exact hback.symm

/-- The bytes of "a.B.c", and of "ke." and "KE", which are one file. -/
theorem name_round_trip_dots :
    convertName (printName (Bytes.ofList [65, 32, 32, 32, 32, 32, 32, 32, 66, 46, 67])) =
        some [65, 32, 32, 32, 32, 32, 32, 32, 66, 46, 67] ∧
      ∀ n, convertName [75, 69] = some n → [75, 69, 32, 32, 32, 32, 32, 32, 32, 32, 32] = n := by
  refine ⟨(name_round_trip [97, 46, 66, 46, 99] _ (by decide) (by decide) (by decide)).1, ?_⟩
  intro n h
  have hke := name_round_trip [107, 101, 46] [75, 69, 32, 32, 32, 32, 32, 32, 32, 32, 32] (by decide)
    (by decide) (by decide)
  exact (hke.2 [75, 69] n (by decide) (by decide) h).mpr (by decide)

end AtomOs
