import Mathlib.Data.List.Basic
import Mathlib.Data.Set.Lattice
import Mathlib.Algebra.BigOperators.Group.List.Basic
import Mathlib.Algebra.GroupWithZero.Nat

/-!
# Lists of blocks in canonical form

A free-space map is a list of blocks `[addr, addr + len)`. It is *canonical* when the
blocks are nonempty, in address order, and never touch: between two of them there is
always a gap. That is what an allocator that coalesces on every release maintains, and
it is worth naming because a canonical list is determined by the set it covers
(`canon_ext`). "The allocator restored the list" then follows from "the allocator
restored the set".

Two edits are enough for both kinds of allocator in this development:

* `coalesce pre b post` puts `b` between `pre` and `post` and joins it with a neighbour
  it touches (none, either one, or both);
* `carve pre b n post` takes `n` units from the front of `b`.
-/

namespace AtomOs.Lib

open List

/-- A block of `len` units starting at `addr`. -/
structure Blk where
  addr : Nat
  len : Nat
deriving DecidableEq, Repr

def Blk.fin (b : Blk) : Nat := b.addr + b.len

def Blk.Has (b : Blk) (x : Nat) : Prop := b.addr ≤ x ∧ x < b.fin

/-- Two blocks without a common unit, one before the other. -/
def Blk.Apart (b c : Blk) : Prop := b.fin ≤ c.addr ∨ c.fin ≤ b.addr

theorem Blk.Apart.symm {b c : Blk} (h : b.Apart c) : c.Apart b := Or.symm h

/-- The units of a list of blocks. -/
def cover (L : List Blk) : Set Nat := {x | ∃ b ∈ L, b.Has x}

/-- How many units, counted block by block. -/
def total (L : List Blk) : Nat := (L.map Blk.len).sum

/-- Nonempty blocks in address order with a gap after each but the last. -/
structure Canon (L : List Blk) : Prop where
  sep : L.Pairwise (fun b c => b.fin < c.addr)
  pos : ∀ b ∈ L, 0 < b.len

variable {L L' pre post : List Blk} {b c p : Blk} {x n : Nat}

@[simp] theorem mem_cover : x ∈ cover L ↔ ∃ b ∈ L, b.Has x := Iff.rfl

@[simp] theorem cover_nil : cover [] = ∅ := by
  ext x
  simp

theorem cover_cons : cover (b :: L) = {x | b.Has x} ∪ cover L := by
  ext x
  simp

theorem mem_cover_map {α : Type*} {f : α → Blk} {l : List α} :
    x ∈ cover (l.map f) ↔ ∃ a ∈ l, (f a).Has x := by
  simp

theorem cover_append : cover (L ++ L') = cover L ∪ cover L' := by
  ext x
  simp only [mem_cover, mem_append, Set.mem_union]
  constructor
  · rintro ⟨b, hb | hb, hx⟩
    · exact .inl ⟨b, hb, hx⟩
    · exact .inr ⟨b, hb, hx⟩
  · rintro (⟨b, hb, hx⟩ | ⟨b, hb, hx⟩)
    · exact ⟨b, .inl hb, hx⟩
    · exact ⟨b, .inr hb, hx⟩

@[simp] theorem total_nil : total [] = 0 := rfl

@[simp] theorem total_cons : total (b :: L) = b.len + total L := by simp [total]

@[simp] theorem total_append : total (L ++ L') = total L + total L' := by simp [total]

/-! ## Canonical lists -/

theorem canon_nil : Canon [] := ⟨List.Pairwise.nil, by simp⟩

theorem canon_cons : Canon (b :: L) ↔ 0 < b.len ∧ (∀ c ∈ L, b.fin < c.addr) ∧ Canon L := by
  constructor
  · rintro ⟨hs, hp⟩
    obtain ⟨hb, hs⟩ := pairwise_cons.mp hs
    obtain ⟨hlen, hp⟩ := forall_mem_cons.mp hp
    exact ⟨hlen, hb, hs, hp⟩
  · rintro ⟨hlen, hb, hs, hp⟩
    exact ⟨pairwise_cons.mpr ⟨hb, hs⟩, forall_mem_cons.mpr ⟨hlen, hp⟩⟩

theorem canon_append :
    Canon (pre ++ post) ↔ Canon pre ∧ Canon post ∧ ∀ b ∈ pre, ∀ c ∈ post, b.fin < c.addr := by
  constructor
  · rintro ⟨hs, hp⟩
    obtain ⟨h1, h2, h3⟩ := pairwise_append.mp hs
    obtain ⟨hp1, hp2⟩ := forall_mem_append.mp hp
    exact ⟨⟨h1, hp1⟩, ⟨h2, hp2⟩, h3⟩
  · rintro ⟨h1, h2, h3⟩
    exact ⟨pairwise_append.mpr ⟨h1.sep, h2.sep, h3⟩, forall_mem_append.mpr ⟨h1.pos, h2.pos⟩⟩

theorem Canon.addr_mem (h : Canon (b :: L)) : b.addr ∈ cover (b :: L) := by
  have hpos := (canon_cons.mp h).1
  exact ⟨b, mem_cons_self, Nat.le_refl _, by unfold Blk.fin; omega⟩

theorem Canon.head_le (h : Canon (b :: L)) (hx : x ∈ cover (b :: L)) : b.addr ≤ x := by
  obtain ⟨hlen, hb, -⟩ := canon_cons.mp h
  obtain ⟨c, hc, hcx⟩ := hx
  rcases mem_cons.mp hc with rfl | hc
  · exact hcx.1
  · have := hb c hc
    have := hcx.1
    unfold Blk.fin at *
    omega

theorem Canon.fin_not_mem (h : Canon (b :: L)) : b.fin ∉ cover (b :: L) := by
  obtain ⟨hlen, hb, -⟩ := canon_cons.mp h
  rintro ⟨c, hc, hcx⟩
  rcases mem_cons.mp hc with rfl | hc
  · exact absurd hcx.2 (Nat.lt_irrefl _)
  · exact absurd (hb c hc) (Nat.not_lt.mpr hcx.1)

theorem Canon.not_has_of_tail (h : Canon (b :: L)) (hx : x ∈ cover L) : ¬ b.Has x := by
  obtain ⟨-, hb, -⟩ := canon_cons.mp h
  obtain ⟨c, hc, hcx⟩ := hx
  intro hbx
  have := hb c hc
  have := hcx.1
  have := hbx.2
  omega

/-- Two canonical lists over one set have the same head. The head starts at the least
    unit, and it ends at the first unit above that which is missing. -/
theorem Canon.head_eq (h : Canon (b :: L)) (h' : Canon (c :: L'))
    (hcov : cover (b :: L) = cover (c :: L')) : b = c := by
  have haddr : b.addr = c.addr :=
    Nat.le_antisymm (h.head_le (hcov ▸ h'.addr_mem)) (h'.head_le (hcov ▸ h.addr_mem))
  have hbf := h.fin_not_mem
  have hcf := h'.fin_not_mem
  -- If one head ended earlier, its end would be a unit of the other.
  have hfin : b.fin = c.fin := by
    rcases Nat.lt_trichotomy b.fin c.fin with hlt | heq | hgt
    · refine absurd ?_ hbf
      rw [hcov]
      exact ⟨c, mem_cons_self, by unfold Blk.fin; omega, hlt⟩
    · exact heq
    · refine absurd ?_ hcf
      rw [← hcov]
      exact ⟨b, mem_cons_self, by unfold Blk.fin; omega, hgt⟩
  unfold Blk.fin at hfin
  cases b
  cases c
  simp only [Blk.mk.injEq] at *
  omega

/-- **A canonical list is determined by its units.** -/
theorem canon_ext : ∀ {L L' : List Blk}, Canon L → Canon L' → cover L = cover L' → L = L'
  | [], [], _, _, _ => rfl
  | [], c :: L', _, h', hcov => by
    have := h'.addr_mem
    rw [← hcov] at this
    simp at this
  | b :: L, [], h, _, hcov => by
    have := h.addr_mem
    rw [hcov] at this
    simp at this
  | b :: L, c :: L', h, h', hcov => by
    obtain rfl : b = c := h.head_eq h' hcov
    have htail : cover L = cover L' := by
      rw [cover_cons, cover_cons] at hcov
      refine Set.Subset.antisymm (fun x hx => ?_) fun x hx => ?_
      · exact (hcov.subset (.inr hx)).resolve_left (h.not_has_of_tail hx)
      · exact (hcov.superset (.inr hx)).resolve_left (h'.not_has_of_tail hx)
    rw [canon_ext (canon_cons.mp h).2.2 (canon_cons.mp h').2.2 htail]

/-- Blocks of at least `k` units between `lo` and `hi` are at most `(hi - lo) / k` many. -/
theorem Canon.length_le {k hi : Nat} : ∀ {L : List Blk} {lo : Nat}, Canon L →
    (∀ b ∈ L, k ≤ b.len) → (∀ b ∈ L, lo ≤ b.addr) → (∀ b ∈ L, b.fin ≤ hi) → lo ≤ hi →
    lo + k * L.length ≤ hi
  | [], lo, _, _, _, _, hle => by simpa using hle
  | b :: L, lo, h, hk, hlo, hhi, _ => by
    obtain ⟨-, hsep, hL⟩ := canon_cons.mp h
    have ih := @Canon.length_le k hi L b.fin hL (forall_mem_cons.mp hk).2
      (fun c hc => Nat.le_of_lt (hsep c hc)) (forall_mem_cons.mp hhi).2
      (hhi b mem_cons_self)
    have h1 := hk b mem_cons_self
    have h2 := hlo b mem_cons_self
    unfold Blk.fin at ih
    rw [length_cons, Nat.mul_add]
    omega

/-! ## Putting a block back -/

/-- `b` in front of `post`, joined with the first block there if the two touch. -/
def joinRight (b : Blk) : List Blk → List Blk
  | [] => [b]
  | c :: L => if b.fin = c.addr then ⟨b.addr, b.len + c.len⟩ :: L else b :: c :: L

/-- `b` between `pre` and `post`, joined with whichever neighbour it touches. -/
def coalesce : List Blk → Blk → List Blk → List Blk
  | [], b, post => joinRight b post
  | [p], b, post =>
      if p.fin = b.addr then joinRight ⟨p.addr, p.len + b.len⟩ post else p :: joinRight b post
  | p :: q :: pre, b, post => p :: coalesce (q :: pre) b post

theorem coalesce_concat : coalesce (pre ++ [p]) b post =
      pre ++ if p.fin = b.addr then joinRight ⟨p.addr, p.len + b.len⟩ post
        else p :: joinRight b post := by
  induction pre with
  | nil => rfl
  | cons q pre ih =>
    cases pre with
    | nil => rfl
    | cons r pre => rw [cons_append, cons_append, coalesce, ← cons_append, ih]; rfl

theorem coalesce_of_gap (h : ∀ a ∈ pre, a.fin ≠ b.addr) :
    coalesce pre b post = pre ++ joinRight b post := by
  rcases eq_nil_or_concat' pre with rfl | ⟨pre, p, rfl⟩
  · rfl
  · rw [coalesce_concat, if_neg (h p (by simp)), append_assoc]
    rfl

theorem joinRight_head : ∀ c ∈ joinRight b post, c.addr = b.addr ∨ c ∈ post := by
  intro c hc
  cases post with
  | nil => exact .inl (by simp_all [joinRight])
  | cons d L =>
    simp only [joinRight] at hc
    split at hc
    · rcases mem_cons.mp hc with rfl | hc
      · exact .inl rfl
      · exact .inr (mem_cons_of_mem _ hc)
    · rcases mem_cons.mp hc with rfl | hc
      · exact .inl rfl
      · exact .inr hc

theorem joinRight_canon (hpost : Canon post) (hlen : 0 < b.len)
    (hb : ∀ c ∈ post, b.fin ≤ c.addr) : Canon (joinRight b post) := by
  cases post with
  | nil => exact canon_cons.mpr ⟨hlen, by simp, canon_nil⟩
  | cons d L =>
    obtain ⟨hd, hdL, hL⟩ := canon_cons.mp hpost
    have hbd := hb d mem_cons_self
    simp only [joinRight]
    split
    · rename_i htouch
      refine canon_cons.mpr ⟨by show 0 < b.len + d.len; omega, fun c hc => ?_, hL⟩
      have := hdL c hc
      unfold Blk.fin at *
      show b.addr + (b.len + d.len) < c.addr
      omega
    · rename_i hgap
      refine canon_cons.mpr ⟨hlen, fun c hc => ?_, hpost⟩
      rcases mem_cons.mp hc with rfl | hc
      · omega
      · have := hdL c hc
        unfold Blk.fin at *
        omega

theorem cover_joinRight : cover (joinRight b post) = {x | b.Has x} ∪ cover post := by
  cases post with
  | nil => rw [joinRight, cover_cons]
  | cons d L =>
    simp only [joinRight]
    split
    · rename_i htouch
      rw [cover_cons, cover_cons, ← Set.union_assoc]
      congr 1
      ext x
      simp only [Set.mem_ofPred_eq, Set.mem_union, Blk.Has, Blk.fin] at *
      omega
    · rw [cover_cons]

theorem total_joinRight : total (joinRight b post) = b.len + total post := by
  cases post with
  | nil => simp [joinRight]
  | cons d L =>
    simp only [joinRight]
    split
    · simp
      omega
    · simp

theorem exists_le_joinRight (b : Blk) (post : List Blk) : ∃ c ∈ joinRight b post, b.len ≤ c.len := by
  cases post with
  | nil => exact ⟨b, by simp [joinRight], Nat.le_refl _⟩
  | cons d post =>
    rw [joinRight]
    split
    · exact ⟨_, mem_cons_self, Nat.le_add_right _ _⟩
    · exact ⟨b, mem_cons_self, Nat.le_refl _⟩

theorem exists_le_coalesce (pre : List Blk) (b : Blk) (post : List Blk) :
    ∃ c ∈ coalesce pre b post, b.len ≤ c.len := by
  rcases eq_nil_or_concat' pre with rfl | ⟨pre, p, rfl⟩
  · exact exists_le_joinRight b post
  rw [coalesce_concat]
  split
  · obtain ⟨c, hc, hlen⟩ := exists_le_joinRight ⟨p.addr, p.len + b.len⟩ post
    exact ⟨c, mem_append_right _ hc, Nat.le_trans (Nat.le_add_left _ _) hlen⟩
  · obtain ⟨c, hc, hlen⟩ := exists_le_joinRight b post
    exact ⟨c, mem_append_right _ (mem_cons_of_mem _ hc), hlen⟩

section coalesce

variable (hcan : Canon (pre ++ post)) (hlen : 0 < b.len) (hpre : ∀ a ∈ pre, a.fin ≤ b.addr)
  (hpost : ∀ c ∈ post, b.fin ≤ c.addr)
include hcan hlen hpre hpost

theorem coalesce_canon : Canon (coalesce pre b post) := by
  rcases eq_nil_or_concat' pre with rfl | ⟨pre, p, rfl⟩
  · exact joinRight_canon (by simpa using hcan) hlen hpost
  rw [coalesce_concat]
  obtain ⟨hcp, hcpost, hsep⟩ := canon_append.mp hcan
  obtain ⟨hcpre, hcp1, hsep1⟩ := canon_append.mp hcp
  have hp := (canon_cons.mp hcp1).1
  have hpb := hpre p (by simp)
  have hppost : ∀ c ∈ post, p.fin < c.addr := fun c hc => hsep p (by simp) c hc
  split
  · rename_i htouch
    refine canon_append.mpr ⟨hcpre, joinRight_canon hcpost ?_ ?_, ?_⟩
    · show 0 < p.len + b.len
      omega
    · intro c hc
      have := hpost c hc
      unfold Blk.fin at *
      show p.addr + (p.len + b.len) ≤ c.addr
      omega
    · intro a ha c hc
      rcases joinRight_head c hc with hca | hc
      · have := hsep1 a ha p (by simp)
        rw [hca]
        exact this
      · exact hsep a (by simp [ha]) c hc
  · rename_i hgap
    refine canon_append.mpr ⟨hcpre, canon_cons.mpr ⟨hp, ?_, joinRight_canon hcpost hlen hpost⟩,
      ?_⟩
    · intro c hc
      rcases joinRight_head c hc with hca | hc
      · omega
      · exact hppost c hc
    · intro a ha c hc
      rcases mem_cons.mp hc with rfl | hc
      · exact hsep1 a ha c (by simp)
      rcases joinRight_head c hc with hca | hc
      · have := hsep1 a ha p (by simp)
        unfold Blk.fin at *
        omega
      · exact hsep a (by simp [ha]) c hc

omit hcan hlen hpre hpost in
theorem cover_coalesce : cover (coalesce pre b post) = cover (pre ++ post) ∪ {x | b.Has x} := by
  rcases eq_nil_or_concat' pre with rfl | ⟨pre, p, rfl⟩
  · rw [coalesce, cover_joinRight, nil_append, Set.union_comm]
  rw [coalesce_concat]
  simp only [cover_append]
  split
  · rename_i htouch
    rw [cover_joinRight]
    have hjoin : {x | (⟨p.addr, p.len + b.len⟩ : Blk).Has x} = cover [p] ∪ {x | b.Has x} := by
      ext x
      rw [cover_cons, cover_nil, Set.union_empty]
      simp only [Set.mem_ofPred_eq, Set.mem_union, Blk.Has, Blk.fin] at *
      omega
    rw [hjoin]
    ext x
    simp only [Set.mem_union]
    tauto
  · rw [cover_cons, cover_joinRight, cover_cons, cover_nil, Set.union_empty, Set.union_assoc,
      Set.union_assoc, Set.union_comm (cover post)]

omit hcan hlen hpre hpost in
theorem total_coalesce : total (coalesce pre b post) = total (pre ++ post) + b.len := by
  rcases eq_nil_or_concat' pre with rfl | ⟨pre, p, rfl⟩
  · rw [coalesce, total_joinRight, nil_append]
    omega
  rw [coalesce_concat]
  simp only [total_append]
  split
  · rw [total_joinRight]
    simp
    omega
  · rw [total_cons, total_joinRight]
    simp
    omega

end coalesce

/-! ## Taking units from the front of a block -/

/-- What is left after taking `n` units from the front of `b`. -/
def carve (pre : List Blk) (b : Blk) (n : Nat) (post : List Blk) : List Blk :=
  if n < b.len then pre ++ ⟨b.addr + n, b.len - n⟩ :: post else pre ++ post

theorem carve_canon (h : Canon (pre ++ b :: post)) : Canon (carve pre b n post) := by
  obtain ⟨h1, h2, h3⟩ := canon_append.mp h
  obtain ⟨hb, hsep, hpost⟩ := canon_cons.mp h2
  unfold carve
  split
  · refine canon_append.mpr ⟨h1, canon_cons.mpr ⟨by show 0 < b.len - n; omega, ?_, hpost⟩, ?_⟩
    · intro c hc
      have := hsep c hc
      unfold Blk.fin at *
      show b.addr + n + (b.len - n) < c.addr
      omega
    · intro a ha c hc
      rcases mem_cons.mp hc with rfl | hc
      · have := h3 a ha b mem_cons_self
        show a.fin < b.addr + n
        omega
      · exact h3 a ha c (mem_cons_of_mem _ hc)
  · exact canon_append.mpr ⟨h1, hpost, fun a ha c hc => h3 a ha c (mem_cons_of_mem _ hc)⟩

theorem cover_carve (hn : n ≤ b.len) :
    cover (pre ++ b :: post) = {x | (⟨b.addr, n⟩ : Blk).Has x} ∪ cover (carve pre b n post) := by
  unfold carve
  split
  · simp only [cover_append, cover_cons]
    have hsplit : {x | b.Has x} = {x | (⟨b.addr, n⟩ : Blk).Has x} ∪
        {x | (⟨b.addr + n, b.len - n⟩ : Blk).Has x} := by
      ext x
      simp only [Set.mem_ofPred_eq, Set.mem_union, Blk.Has, Blk.fin]
      omega
    rw [hsplit]
    ext x
    simp only [Set.mem_union]
    tauto
  · obtain rfl : n = b.len := by omega
    rw [cover_append, cover_append, cover_cons, Set.union_left_comm]

theorem carve_apart (h : Canon (pre ++ b :: post)) (hn : n ≤ b.len) :
    ∀ c ∈ carve pre b n post, (⟨b.addr, n⟩ : Blk).Apart c := by
  obtain ⟨h1, h2, h3⟩ := canon_append.mp h
  obtain ⟨-, hsep, -⟩ := canon_cons.mp h2
  have hpre : ∀ c ∈ pre, (⟨b.addr, n⟩ : Blk).Apart c := fun c hc =>
    .inr (Nat.le_of_lt (h3 c hc b mem_cons_self))
  have hpost : ∀ c ∈ post, (⟨b.addr, n⟩ : Blk).Apart c := by
    intro c hc
    have := hsep c hc
    refine .inl ?_
    unfold Blk.fin at *
    show b.addr + n ≤ c.addr
    omega
  unfold carve
  split
  · exact forall_mem_append.mpr ⟨hpre, forall_mem_cons.mpr ⟨.inl (Nat.le_refl _), hpost⟩⟩
  · exact forall_mem_append.mpr ⟨hpre, hpost⟩

theorem total_carve (hn : n ≤ b.len) :
    total (pre ++ b :: post) = n + total (carve pre b n post) := by
  unfold carve
  split
  · simp
    omega
  · simp
    omega

/-- Blocks apart from each block of a list share no unit with it, and conversely for
    nonempty blocks. -/
theorem apart_of_disjoint {b c : Blk} (hb : 0 < b.len) (hc : 0 < c.len)
    (h : ∀ x, b.Has x → ¬ c.Has x) : b.Apart c := by
  unfold Blk.Apart
  by_contra hno
  have h1 := h b.addr
  have h2 := h c.addr
  unfold Blk.Has Blk.fin at *
  omega

theorem not_has_of_apart {b c : Blk} (h : b.Apart c) (hb : b.Has x) : ¬ c.Has x := by
  unfold Blk.Apart Blk.Has Blk.fin at *
  omega

theorem not_mem_cover_of_apart (h : ∀ c ∈ L, b.Apart c) (hx : b.Has x) : x ∉ cover L := by
  intro hc
  obtain ⟨c, hc, hxc⟩ := hc
  exact not_has_of_apart (h c hc) hx hxc

/-! ## A pool and what is out of it

The abstract allocator: a canonical list of free blocks, the blocks that are out, and the
set `C` of units that both together make up. -/

structure Pool (C : Set Nat) (L out : List Blk) : Prop where
  canon : Canon L
  outPos : ∀ b ∈ out, 0 < b.len
  outApart : out.Pairwise Blk.Apart
  freeApart : ∀ b ∈ out, ∀ c ∈ L, b.Apart c
  units : cover L ∪ cover out = C

variable {C : Set Nat} {out : List Blk}

theorem Pool.take (h : Pool C L out) (hb : 0 < b.len) (hcan : Canon L')
    (hcov : cover L = {x | b.Has x} ∪ cover L') (hap : ∀ c ∈ L', b.Apart c) :
    Pool C L' (b :: out) := by
  have hin : ∀ x, b.Has x → x ∈ cover L := fun x hx => by
    rw [hcov]
    exact .inl hx
  have hsub : ∀ x, x ∈ cover L' → x ∈ cover L := fun x hx => by
    rw [hcov]
    exact .inr hx
  refine ⟨hcan, forall_mem_cons.mpr ⟨hb, h.outPos⟩, ?_, forall_mem_cons.mpr ⟨hap, ?_⟩, ?_⟩
  · refine pairwise_cons.mpr ⟨fun c hc => ?_, h.outApart⟩
    refine apart_of_disjoint hb (h.outPos c hc) fun x hx hcx => ?_
    exact not_mem_cover_of_apart (h.freeApart c hc) hcx (hin x hx)
  · intro c hc d hd
    refine apart_of_disjoint (h.outPos c hc) (hcan.pos d hd) fun x hx hdx => ?_
    exact not_mem_cover_of_apart (h.freeApart c hc) hx (hsub x ⟨d, hd, hdx⟩)
  · rw [← h.units, hcov, cover_cons, Set.union_left_comm, Set.union_assoc]

theorem cover_perm (h : L.Perm L') : cover L = cover L' := by
  ext x
  simp only [mem_cover, h.mem_iff]

theorem total_perm (h : L.Perm L') : total L = total L' := (h.map Blk.len).sum_eq

theorem Pool.perm {out' : List Blk} (h : Pool C L out) (hp : out.Perm out') : Pool C L out' :=
  ⟨h.canon, fun b hb => h.outPos b (hp.mem_iff.mpr hb),
    (hp.pairwise_iff fun hab => Blk.Apart.symm hab).mp h.outApart,
    fun b hb => h.freeApart b (hp.mem_iff.mpr hb), by rw [← cover_perm hp]; exact h.units⟩

theorem Pool.put (h : Pool C L (b :: out)) (hcan : Canon L')
    (hcov : cover L' = cover L ∪ {x | b.Has x}) : Pool C L' out := by
  obtain ⟨hbap, hrest⟩ := pairwise_cons.mp h.outApart
  refine ⟨hcan, (forall_mem_cons.mp h.outPos).2, hrest, ?_, ?_⟩
  · intro c hc d hd
    have hcm := mem_cons_of_mem b hc
    refine apart_of_disjoint (h.outPos c hcm) (hcan.pos d hd) fun x hx hdx => ?_
    have hx' : x ∈ cover L ∪ {x | b.Has x} := hcov ▸ (⟨d, hd, hdx⟩ : x ∈ cover L')
    rcases hx' with hxL | hxb
    · exact not_mem_cover_of_apart (h.freeApart c hcm) hx hxL
    · exact not_has_of_apart (hbap c hc) hxb hx
  · rw [← h.units, hcov, cover_cons, Set.union_assoc]

theorem Pool.regroup {A B : List Blk} (h : Pool C L (A ++ out)) (hpos : ∀ b ∈ B, 0 < b.len)
    (hap : B.Pairwise Blk.Apart) (hcov : cover B = cover A) : Pool C L (B ++ out) := by
  obtain ⟨-, hout, hcross⟩ := pairwise_append.mp h.outApart
  -- A block of `B` shares no unit with what is apart from all of `A`.
  have hclear : ∀ {b c : Blk}, b ∈ B → 0 < c.len → (∀ a ∈ A, a.Apart c) → b.Apart c := by
    intro b c hb hc hA
    refine apart_of_disjoint (hpos b hb) hc fun x hx hcx => ?_
    have hxA : x ∈ cover A := hcov ▸ (⟨b, hb, hx⟩ : x ∈ cover B)
    obtain ⟨a, ha, hax⟩ := hxA
    exact not_has_of_apart (hA a ha) hax hcx
  have hposout := (forall_mem_append.mp h.outPos).2
  obtain ⟨hfreeA, hfree⟩ := forall_mem_append.mp h.freeApart
  refine ⟨h.canon, forall_mem_append.mpr ⟨hpos, hposout⟩, pairwise_append.mpr ⟨hap, hout, ?_⟩,
    forall_mem_append.mpr ⟨?_, hfree⟩, ?_⟩
  · exact fun b hb c hc => hclear hb (hposout c hc) fun a ha => hcross a ha c hc
  · exact fun b hb c hc => hclear hb (h.canon.pos c hc) fun a ha => hfreeA a ha c hc
  · rw [← h.units, cover_append, cover_append, hcov]

theorem Pool.extend {C' : Set Nat} (h : Pool C L out) (hb : 0 < b.len)
    (hC : C' = {x | b.Has x} ∪ C) (hap : ∀ x, b.Has x → x ∉ C) : Pool C' L (b :: out) := by
  have hin : ∀ {c : Blk} {l : List Blk}, c ∈ l → cover l ⊆ C → 0 < c.len → b.Apart c :=
    fun hc hl hlen => apart_of_disjoint hb hlen fun x hx hcx => hap x hx (hl ⟨_, hc, hcx⟩)
  have hL : cover L ⊆ C := fun x hx => h.units ▸ .inl hx
  have hout : cover out ⊆ C := fun x hx => h.units ▸ .inr hx
  refine ⟨h.canon, forall_mem_cons.mpr ⟨hb, h.outPos⟩,
    pairwise_cons.mpr ⟨fun c hc => hin hc hout (h.outPos c hc), h.outApart⟩,
    forall_mem_cons.mpr ⟨fun d hd => hin hd hL (h.canon.pos d hd), h.freeApart⟩, ?_⟩
  rw [hC, ← h.units, cover_cons, Set.union_left_comm]

theorem Pool.cover_free (h : Pool C L out) : cover L = C \ cover out := by
  ext x
  rw [← h.units]
  constructor
  · intro hx
    refine ⟨.inl hx, fun hout => ?_⟩
    obtain ⟨b, hb, hbx⟩ := hout
    exact not_mem_cover_of_apart (h.freeApart b hb) hbx hx
  · rintro ⟨hx | hx, hno⟩
    · exact hx
    · exact absurd hx hno

theorem Pool.free_unique (h : Pool C L out) (h' : Pool C L' out) : L = L' :=
  canon_ext h.canon h'.canon (h.cover_free.trans h'.cover_free.symm)

end AtomOs.Lib
