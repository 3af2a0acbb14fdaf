import AtomOs.Lib.Word

/-!
# The receive ring of the network card

`nic_rx` reads the frames between the boundary page and the page the card writes next. How far a frame
goes is in a header the card has written, and `nic_rx` goes on to the next one only if the length in the
header agrees with the page it names; four pages are allowed. After a header that does not agree it
writes the boundary so that it starts again at the same page, with the same header, so it never ends
(`nicRx_mismatch`, and `nicRx_stuck` for one ring).

So what the loop does is decided by the pages it visits, and by nothing else in the ring: `Leads` follows
the pages that the headers name. **`nicRx_ends`** says that the loop meets the current page within as many
rounds as the ring has pages, and moves the boundary in each of them, just if that path comes to the
current page over headers that all agree. The path may leave the ring (a header can name a page below
it) or pass the current page and come back; both are covered, since the register arithmetic is that of
the code.

The current page register does not change during the call. What becomes of a frame that is read out is
not modelled.
-/

namespace AtomOs.Net

open Lib

structure NicHeader where
  status : BitVec 8
  next : BitVec 8
  count : BitVec 16

/-- What `nic_rx` uses of a card: whether it is one of 16 bits, its boundary register, the page the
    driver thinks it is at, and the pages from which a frame was read out. -/
structure Snic where
  word : Bool
  boundary : BitVec 8
  currentPage : Nat
  received : List Nat

def txpages : Nat := 12

namespace Snic

def pstart (nic : Snic) : Nat := if nic.word then 0x40 else 0x20

def pstop (nic : Snic) : Nat := if nic.word then 0xC0 else 0x40

/-- The page behind the page in the boundary register. -/
def pageBehind (nic : Snic) (boundary : BitVec 8) : Nat :=
  if boundary.toNat + 1 ≥ nic.pstop then nic.pstart + txpages else boundary.toNat + 1

def frame (nic : Snic) : Nat := nic.pageBehind nic.boundary

def numpages (nic : Snic) : Nat := nic.pstop - (nic.pstart + txpages)

/-- The page named by the header at `frame` is one that its length allows. -/
def Agrees (nic : Snic) (frame : Nat) (header : NicHeader) : Prop :=
  let len := u32 (header.count.toNat - 4)
  let nextPkt : Int := frame + 1 + u32 (len + 4) / 256
  let next : Int := header.next.toNat
  next = nextPkt ∨ next = nextPkt + 1 ∨ next = u32 (nextPkt - nic.numpages) ∨
    next = u32 (nextPkt + 1 - nic.numpages)

instance (nic : Snic) (frame : Nat) (header : NicHeader) : Decidable (nic.Agrees frame header) :=
  inferInstanceAs (Decidable (_ ∨ _ ∨ _ ∨ _))

/-- Where the frame after the one with this header is. -/
def nextPkt (nic : Snic) (header : NicHeader) : Nat :=
  if header.next.toNat ≥ nic.pstop then nic.pstart + txpages else header.next.toNat

/-- A round of the loop, `none` if it is left. -/
def rxStep (ring : Nat → NicHeader) (rxPage : Nat) (nic : Snic) : Option Snic :=
  let frame := nic.frame
  let header := ring frame
  let len := u32 (header.count.toNat - 4)
  if frame = rxPage then none
  else if nic.Agrees frame header then
    some { nic with
      currentPage := nic.nextPkt header
      boundary := .ofNat 8 (nic.nextPkt header + 255)
      received := if 60 ≤ len ∧ len ≤ 1518 ∧ header.status &&& 0x0f = 1 then nic.received ++ [frame]
        else nic.received }
  else some { nic with currentPage := frame, boundary := .ofNat 8 (frame - 1) }

/-- `nic_rx`, for at most so many rounds. -/
def nicRx (ring : Nat → NicHeader) (rxPage : Nat) : Nat → Snic → Option Snic
  | 0, _ => none
  | fuel + 1, nic =>
    match nic.rxStep ring rxPage with
    | none => some nic
    | some nic => nicRx ring rxPage fuel nic

/-- Where the loop is after a header that agrees: the page behind the boundary it writes. -/
def pageAfter (nic : Snic) (header : NicHeader) : Nat :=
  nic.pageBehind (.ofNat 8 (nic.nextPkt header + 255))

/-- **The headers lead from `page` to the current page**: one after the other agrees and names the next
    one, and the current page is met after at most so many. -/
def Leads (nic : Snic) (ring : Nat → NicHeader) (rxPage : Nat) : Nat → Nat → Prop
  | 0, page => page = rxPage
  | n + 1, page => page = rxPage ∨
    nic.Agrees page (ring page) ∧ Leads nic ring rxPage n (nic.pageAfter (ring page))

instance decidableLeads (nic : Snic) (ring : Nat → NicHeader) (rxPage : Nat) :
    ∀ n page, Decidable (nic.Leads ring rxPage n page)
  | 0, page => inferInstanceAs (Decidable (page = rxPage))
  | n + 1, page =>
    have := decidableLeads nic ring rxPage n
    inferInstanceAs (Decidable (page = rxPage ∨
      nic.Agrees page (ring page) ∧ nic.Leads ring rxPage n (nic.pageAfter (ring page))))

variable {nic nic' t : Snic} {ring : Nat → NicHeader} {rxPage : Nat}

theorem rxStep_cases (ring : Nat → NicHeader) (rxPage : Nat) (nic : Snic) :
    (nic.frame = rxPage ∧ nic.rxStep ring rxPage = none) ∨
      (nic.frame ≠ rxPage ∧ nic.Agrees nic.frame (ring nic.frame) ∧
        ∃ cur rec, nic.rxStep ring rxPage =
          some ⟨nic.word, .ofNat 8 (nic.nextPkt (ring nic.frame) + 255), cur, rec⟩) ∨
      (nic.frame ≠ rxPage ∧ ¬ nic.Agrees nic.frame (ring nic.frame) ∧
        ∃ cur rec, nic.rxStep ring rxPage = some ⟨nic.word, .ofNat 8 (nic.frame - 1), cur, rec⟩) := by
  by_cases hend : nic.frame = rxPage
  · exact .inl ⟨hend, if_pos hend⟩
  by_cases hagrees : nic.Agrees nic.frame (ring nic.frame)
  · exact .inr (.inl ⟨hend, hagrees, _, _, (if_neg hend).trans (if_pos hagrees)⟩)
  · exact .inr (.inr ⟨hend, hagrees, _, _, (if_neg hend).trans (if_neg hagrees)⟩)

/-- The boundary that is written back after a header that does not agree leads to the same page. -/
theorem pageBehind_back (nic : Snic) : nic.pageBehind (.ofNat 8 (nic.frame - 1)) = nic.frame := by
  have htx : txpages = 12 := rfl
  have hstop : nic.pstart + 12 < nic.pstop ∧ nic.pstop ≤ 256 := by
    unfold pstart pstop
    split <;> decide
  have hpos : 0 < nic.frame ∧ nic.frame < nic.pstop := by
    unfold frame pageBehind
    split <;> omega
  have hnat : (BitVec.ofNat 8 (nic.frame - 1)).toNat + 1 = nic.frame := by
    rw [BitVec.toNat_ofNat]
    omega
  rw [pageBehind, hnat, if_neg (Nat.not_le.mpr hpos.2)]

/-- **After a header that does not agree the loop never ends**: it comes to the same header again. -/
theorem nicRx_mismatch (fuel : Nat) (hne : nic.frame ≠ rxPage)
    (hnot : ¬ nic.Agrees nic.frame (ring nic.frame)) : nicRx ring rxPage fuel nic = none := by
  induction fuel generalizing nic with
  | zero => rfl
  | succ fuel ih =>
    rcases rxStep_cases ring rxPage nic with ⟨hend, -⟩ | ⟨-, hagrees, -⟩ | ⟨-, -, cur, rec, hstep⟩
    · exact absurd hend hne
    · exact absurd hagrees hnot
    · rw [nicRx, hstep]
      have hframe : (⟨nic.word, .ofNat 8 (nic.frame - 1), cur, rec⟩ : Snic).frame = nic.frame :=
        nic.pageBehind_back
      exact ih (by rwa [hframe]) (by rwa [hframe])

theorem leads_word (n page : Nat) (b : BitVec 8) (cur : Nat) (rec : List Nat) :
    (⟨nic.word, b, cur, rec⟩ : Snic).Leads ring rxPage n page ↔ nic.Leads ring rxPage n page := by
  induction n generalizing page with
  | zero => exact Iff.rfl
  | succ n ih => exact or_congr Iff.rfl (and_congr Iff.rfl (ih _))

theorem nicRx_iff (n : Nat) (nic : Snic) :
    (∃ t, nicRx ring rxPage (n + 1) nic = some t ∧ t.frame = rxPage) ↔
      nic.Leads ring rxPage n nic.frame := by
  induction n generalizing nic with
  | zero =>
    rcases rxStep_cases ring rxPage nic with ⟨hend, hstep⟩ | ⟨hne, -, cur, rec, hstep⟩ |
      ⟨hne, -, cur, rec, hstep⟩
    · simp [nicRx, hstep, hend, Leads]
    · simp [nicRx, hstep, hne, Leads]
    · simp [nicRx, hstep, hne, Leads]
  | succ n ih =>
    rcases rxStep_cases ring rxPage nic with ⟨hend, hstep⟩ | ⟨hne, hagrees, cur, rec, hstep⟩ |
      ⟨hne, hnot, -⟩
    · simp [nicRx, hstep, hend, Leads]
    · rw [nicRx, hstep, Leads]
      simp only [hne, hagrees, false_or, true_and]
      rw [ih, leads_word]
      rfl
    · rw [nicRx_mismatch _ hne hnot, Leads]
      simp [hne, hnot]

/-- A round that leaves the boundary as it is comes again for ever, since the next round depends on the
    boundary and the ring alone. -/
theorem nicRx_same_boundary (fuel : Nat) (hstep : nic.rxStep ring rxPage = some nic')
    (hsame : nic'.boundary = nic.boundary) : nicRx ring rxPage fuel nic = none := by
  induction fuel generalizing nic nic' with
  | zero => rfl
  | succ fuel ih =>
    rcases rxStep_cases ring rxPage nic with ⟨-, hnone⟩ | ⟨hne, hagrees, cur, rec, hgo⟩ |
      ⟨hne, hnot, -⟩
    · cases hnone.symm.trans hstep
    · rw [nicRx, hgo]
      obtain rfl : (⟨nic.word, _, cur, rec⟩ : Snic) = nic' := Option.some.inj (hgo.symm.trans hstep)
      have hsame : BitVec.ofNat 8 (nic.nextPkt (ring nic.frame) + 255) = nic.boundary := hsame
      rw [hsame]
      refine ih ((if_neg hne).trans (if_pos hagrees)) ?_
      exact hsame
    · exact nicRx_mismatch _ hne hnot

theorem nicRx_of_reached {fuel : Nat} (hrun : Relation.ReflTransGen
      (fun a b : Snic => a.rxStep ring rxPage = some b) nic nic')
    (hend : nicRx ring rxPage fuel nic = some t) :
    ∃ fuel', nicRx ring rxPage fuel' nic' = some t := by
  induction hrun with
  | refl => exact ⟨fuel, hend⟩
  | tail _ hstep ih =>
    obtain ⟨fuel', hfuel⟩ := ih
    cases fuel' with
    | zero => cases hfuel
    | succ fuel' =>
      rw [nicRx, hstep] at hfuel
      exact ⟨fuel', hfuel⟩

/-- **The receive loop ends** at the current page, after at most as many rounds as the ring has pages, and
    each round on the way moves the boundary, just if the headers lead to the current page. -/
theorem nicRx_ends (nic : Snic) (ring : Nat → NicHeader) (rxPage : Nat) :
    ((∃ t, nicRx ring rxPage (nic.numpages + 1) nic = some t ∧ t.frame = rxPage) ∧
      ∀ u v, Relation.ReflTransGen (fun a b : Snic => a.rxStep ring rxPage = some b) nic u →
        u.rxStep ring rxPage = some v → v.boundary ≠ u.boundary) ↔
      nic.Leads ring rxPage nic.numpages nic.frame := by
  rw [← nicRx_iff]
  refine ⟨And.left, fun hend => ⟨hend, fun u v hrun hstep hsame => ?_⟩⟩
  obtain ⟨t, hrx, -⟩ := hend
  obtain ⟨fuel, hfuel⟩ := nicRx_of_reached hrun hrx
  cases (nicRx_same_boundary fuel hstep hsame).symm.trans hfuel

/-- A card that has the first page of the ring to read. -/
def card : Snic := ⟨true, 0x4B, 0x4C, []⟩

/-- Frames of one page each, up to the last page. -/
theorem nicRx_ends_pages : ∃ t,
    nicRx (fun page => ⟨1, .ofNat 8 (page + 1), 64⟩) 0xBF 117 card = some t ∧ t.frame = 0xBF :=
  ((nicRx_ends card _ 0xBF).mpr (by decide +kernel)).1

/-- **A header that does not agree** keeps the loop at its page. -/
theorem nicRx_stuck : card.rxStep (fun _ => ⟨1, 0, 64⟩) 0x50 = some card ∧
    ∀ fuel, nicRx (fun _ => ⟨1, 0, 64⟩) 0x50 fuel card = none :=
  ⟨rfl, fun fuel => nicRx_mismatch fuel (by decide) (by decide)⟩

end Snic

end AtomOs.Net
