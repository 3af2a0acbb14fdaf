import AtomOs.Lib.Ring
import AtomOs.Lib.Run

/-!
# The keyboard queues

Every process has a circular buffer for the keys that arrive while it has the focus. `input_insert`
stores at the tail of the focused process's buffer, `kbd_getchar` and `kbd_read` take from the head
of the caller's, and `insertkb_char` is meant to put one key back in front.

What they are for is `KbdQueues`: one queue a process. **`kbd_reads_in_order`** compares the two
machines, in every run whose steps meet `KbdOpOk`. Without it they differ in two ways.
`insertkb_char` stores at the old head and then moves the head to the cell in front of it, so that
the next reader gets what was left in that cell, and the key stored has replaced the first one that
was waiting (`put_back_key_lost`). And both readers index their own buffer with the head of the
focused process.
-/

namespace AtomOs

open Lib

/-! ## The buffers -/

def kbBufSize : Nat := 256

/-- `struct input_info` without its lock and event. -/
structure InputInfo where
  inputBuf : Nat → BitVec 16
  kbhead : Nat
  kbtail : Nat

/-- The list of processes, as `change_kbd_focus` walks it. -/
structure ProcList (P : Type) where
  procNext : P → Option P
  usedProcesses : Option P

/-- The buffer of every process, and `kbd_focus`. -/
structure KbdState (P : Type) where
  inputinf : P → InputInfo
  kbdFocus : P

section model

variable {P : Type} [DecidableEq P]

def KbdState.setInput (s : KbdState P) (p : P) (i : InputInfo) : KbdState P :=
  { s with inputinf := fun x => if x = p then i else s.inputinf x }

/-- The process behind `p` in the list; the first one behind the last. -/
def ProcList.after (procs : ProcList P) (p : P) : Option P :=
  match procs.procNext p with
  | some p1 => some p1
  | none => procs.usedProcesses

/-- `change_kbd_focus`. It does not return when there are no processes. -/
def changeKbdFocus (procs : ProcList P) (s : KbdState P) : Option (KbdState P) :=
  (procs.after s.kbdFocus).map fun p1 => { s with kbdFocus := p1 }

/-- What `input_insert` does to the buffer of the focused process. -/
def InputInfo.insert (i : InputInfo) (scanAscii : BitVec 16) : InputInfo :=
  if (i.kbtail + 1) % kbBufSize ≠ i.kbhead then
    { i with
      inputBuf := fun x => if x = i.kbtail then scanAscii else i.inputBuf x
      kbtail := (i.kbtail + 1) % kbBufSize }
  else i

/-- `input_insert`. Alt+a changes the focus, and another code is kept for the debugger. -/
def inputInsert (procs : ProcList P) (scanAscii : BitVec 16) (s : KbdState P) :
    Option (KbdState P) :=
  if scanAscii = 0x1E00#16 then changeKbdFocus procs s
  else if scanAscii = 0x1E01#16 then some s
  else some (s.setInput s.kbdFocus ((s.inputinf s.kbdFocus).insert scanAscii))

/-- The code that `insertkb_char` makes of a character. -/
def scanAscii (c : Int) : BitVec 16 :=
  if c < 32 then BitVec.ofInt 16 c <<< 8 else BitVec.ofInt 16 c ||| BitVec.ofInt 16 c <<< 8

/-- The head that `insertkb_char` moves to. -/
def InputInfo.frontHead (i : InputInfo) : Nat :=
  if i.kbhead = 0 then kbBufSize - 1 else i.kbhead - 1

def insertkbChar (c : Int) (s : KbdState P) : Int × KbdState P :=
  let i := s.inputinf s.kbdFocus
  let kbhead := i.frontHead
  if i.kbtail ≠ kbhead then
    (c, s.setInput s.kbdFocus
      { i with inputBuf := fun x => if x = i.kbhead then scanAscii c else i.inputBuf x
               kbhead := kbhead })
  else (-1, s)

/-- The head of `p`'s buffer moves on. -/
def KbdState.advance (s : KbdState P) (p : P) : KbdState P :=
  let i := s.inputinf p
  s.setInput p { i with kbhead := (i.kbhead + 1) % kbBufSize }

/-- `kbd_getchar` in the process `p`. A caller that finds nothing sleeps until a key has come: it
    does not return in this state. -/
def kbdGetchar (p : P) (s : KbdState P) : Option (BitVec 16 × KbdState P) :=
  let i := s.inputinf p
  if i.kbtail = i.kbhead then none
  else some (i.inputBuf (s.inputinf s.kbdFocus).kbhead, s.advance p)

def charOf (code : BitVec 16) : BitVec 8 := code.truncate 8

/-- The loop of `kbd_read`, for at most so many characters. -/
def kbdReadLoop (p : P) : Nat → KbdState P → List (BitVec 8) × KbdState P
  | 0, s => ([], s)
  | n + 1, s =>
    let i := s.inputinf p
    if i.kbtail ≠ i.kbhead then
      let r := kbdReadLoop p n (s.advance p)
      (charOf (i.inputBuf (s.inputinf s.kbdFocus).kbhead) :: r.1, r.2)
    else ([], s)

/-- `kbd_read` in the process `p`, with the characters it stored. -/
def kbdRead (p : P) (nbytes : Int) (s : KbdState P) : Option (List (BitVec 8) × KbdState P) :=
  let i := s.inputinf p
  if i.kbtail = i.kbhead then none else some (kbdReadLoop p nbytes.toNat s)

/-! ## Runs -/

inductive KbdOp (P : Type)
  | insert (code : BitVec 16)
  | focus (p : P)
  /-- The focused process calls `insertkb_char`. -/
  | pushBack (c : Int)
  | getchar (p : P)
  | read (p : P) (nbytes : Int)

inductive KbdAnswer
  | done
  | ret (r : Int)
  | code (c : BitVec 16)
  | chars (l : List (BitVec 8))
  deriving DecidableEq

def kbdStep (procs : ProcList P) (s : KbdState P) : KbdOp P → Option (KbdAnswer × KbdState P)
  | .insert code => (inputInsert procs code s).map fun t => (.done, t)
  | .focus p => some (.done, { s with kbdFocus := p })
  | .pushBack c => some (.ret (insertkbChar c s).1, (insertkbChar c s).2)
  | .getchar p => (kbdGetchar p s).map fun r => (.code r.1, r.2)
  | .read p nbytes => (kbdRead p nbytes s).map fun r => (.chars r.1, r.2)

/-! ## What they are for -/

/-- A queue of codes for every process, and who has the focus. -/
structure KbdQueues (P : Type) where
  waiting : P → List (BitVec 16)
  focus : P

def KbdQueues.set (q : KbdQueues P) (p : P) (l : List (BitVec 16)) : KbdQueues P :=
  { q with waiting := fun x => if x = p then l else q.waiting x }

/-- The queues, of at most 255 keys each. A key goes to the end of the focused process's queue or,
    when it is put back, to its front; readers take from the front of their own. -/
def queueStep (procs : ProcList P) (q : KbdQueues P) : KbdOp P → Option (KbdAnswer × KbdQueues P)
  | .insert code =>
    if code = 0x1E00#16 then (procs.after q.focus).map fun p => (.done, { q with focus := p })
    else if code = 0x1E01#16 then some (.done, q)
    else if (q.waiting q.focus).length < 255 then
      some (.done, q.set q.focus (q.waiting q.focus ++ [code]))
    else some (.done, q)
  | .focus p => some (.done, { q with focus := p })
  | .pushBack c =>
    if (q.waiting q.focus).length < 255 then
      some (.ret c, q.set q.focus (scanAscii c :: q.waiting q.focus))
    else some (.ret (-1), q)
  | .getchar p =>
    match q.waiting p with
    | [] => none
    | code :: l => some (.code code, q.set p l)
  | .read p nbytes =>
    if q.waiting p = [] then none
    else some (.chars (((q.waiting p).take nbytes.toNat).map charOf),
      q.set p ((q.waiting p).drop nbytes.toNat))

/-- When a step does what it is for. A key is put back into a full buffer, or is found already in
    the cell in front of the head, and in the cell at the head unless nothing is waiting. A reader
    has the focus, or its head happens to be that of the focused process and it takes no more than
    one key. -/
def KbdOpOk (s : KbdState P) : KbdOp P → Prop
  | .insert _ => True
  | .focus _ => True
  | .pushBack c =>
    let i := s.inputinf s.kbdFocus
    i.kbtail = i.frontHead ∨ i.inputBuf i.frontHead = scanAscii c ∧
      (i.kbtail = i.kbhead ∨ i.inputBuf i.kbhead = scanAscii c)
  | .getchar p => p = s.kbdFocus ∨ (s.inputinf p).kbhead = (s.inputinf s.kbdFocus).kbhead
  | .read p nbytes => p = s.kbdFocus ∨ nbytes ≤ 0 ∨
      (s.inputinf p).kbhead = (s.inputinf s.kbdFocus).kbhead ∧
        (nbytes ≤ 1 ∨ (s.inputinf p).kbtail = ((s.inputinf p).kbhead + 1) % kbBufSize)

instance (s : KbdState P) (op : KbdOp P) : Decidable (KbdOpOk s op) := by
  cases op <;> unfold KbdOpOk <;> infer_instance

end model

/-! ## The buffers hold the queues -/

structure InputHolds (i : InputInfo) (l : List (BitVec 16)) : Prop where
  head_lt : i.kbhead < kbBufSize
  tail_lt : i.kbtail < kbBufSize
  ring : RingHolds i.inputBuf kbBufSize i.kbhead i.kbtail l

variable {i : InputInfo} {l : List (BitVec 16)}

theorem InputHolds.nil_iff (h : InputHolds i l) : l = [] ↔ i.kbtail = i.kbhead :=
  h.ring.nil_iff.trans eq_comm

theorem InputHolds.full_iff (h : InputHolds i l) :
    (i.kbtail + 1) % kbBufSize = i.kbhead ↔ ¬ l.length < 255 := by
  have hlen := h.ring.length_eq h.head_lt h.tail_lt
  have htail := h.tail_lt
  rw [h.ring.full_iff h.head_lt h.tail_lt]
  unfold kbBufSize at *
  split at hlen <;> omega

theorem InputHolds.insert (h : InputHolds i l) (code : BitVec 16) :
    InputHolds (i.insert code) (if l.length < 255 then l ++ [code] else l) := by
  unfold InputInfo.insert
  by_cases hroom : l.length < 255
  · have hne : (i.kbtail + 1) % kbBufSize ≠ i.kbhead := fun he => h.full_iff.mp he hroom
    rw [if_pos hroom, if_pos hne]
    exact ⟨h.head_lt, succ_mod_lt h.tail_lt, h.ring.push h.head_lt h.tail_lt hne⟩
  · rw [if_neg hroom, if_neg (not_not.mpr (h.full_iff.mpr hroom))]
    exact h

theorem frontHead_lt (h : i.kbhead < kbBufSize) : i.frontHead < kbBufSize := by
  unfold InputInfo.frontHead kbBufSize at *
  split <;> omega

theorem frontHead_succ (h : i.kbhead < kbBufSize) : (i.frontHead + 1) % kbBufSize = i.kbhead := by
  unfold InputInfo.frontHead kbBufSize at *
  split <;> omega

theorem InputHolds.front_iff (h : InputHolds i l) : i.kbtail = i.frontHead ↔ ¬ l.length < 255 := by
  rw [← h.full_iff]
  constructor
  · intro he
    rw [he]
    exact frontHead_succ h.head_lt
  · intro he
    exact succ_mod_inj h.tail_lt (frontHead_lt h.head_lt) (he.trans (frontHead_succ h.head_lt).symm)

variable {code : BitVec 16}

/-- Moving the head to the cell in front of it puts that cell's code in front of the others, and
    the store at the old head must be one that changes nothing. -/
theorem InputHolds.pushFront (h : InputHolds i l)
    (hroom : i.kbtail ≠ i.frontHead) (hcell : i.inputBuf i.frontHead = code)
    (hfirst : i.kbtail = i.kbhead ∨ i.inputBuf i.kbhead = code) :
    InputHolds { i with inputBuf := fun x => if x = i.kbhead then code else i.inputBuf x
                        kbhead := i.frontHead } (code :: l) := by
  refine ⟨frontHead_lt h.head_lt, h.tail_lt, hroom.symm, ?_, ?_⟩
  · show (if _ then _ else _) = _
    split
    · rfl
    · exact hcell
  · rw [frontHead_succ h.head_lt]
    refine h.ring.congr h.head_lt fun x _ hx => ?_
    show (if _ then _ else _) = _
    split
    · rename_i he
      rcases hfirst with hempty | hsame
      · exact absurd (he.trans hempty.symm) hx
      · rw [he, hsame]
    · rfl

theorem InputHolds.pop (h : InputHolds i (code :: l)) :
    InputHolds { i with kbhead := (i.kbhead + 1) % kbBufSize } l ∧ i.inputBuf i.kbhead = code := by
  obtain ⟨hh, ht, -, hcode, hrest⟩ := h
  exact ⟨⟨succ_mod_lt hh, ht, hrest⟩, hcode⟩

section refinement

variable {P : Type} [DecidableEq P] {s : KbdState P} {q : KbdQueues P} {p : P}

/-- Every buffer holds its queue, and the focus is the same. -/
structure KbdHolds (s : KbdState P) (q : KbdQueues P) : Prop where
  focus : s.kbdFocus = q.focus
  input : ∀ p, InputHolds (s.inputinf p) (q.waiting p)

theorem KbdHolds.set (h : KbdHolds s q) (hi : InputHolds i l) :
    KbdHolds (s.setInput p i) (q.set p l) := by
  refine ⟨h.focus, fun x => ?_⟩
  unfold KbdState.setInput KbdQueues.set
  by_cases hx : x = p
  · simp only [if_pos hx]
    exact hi
  · simp only [if_neg hx]
    exact h.input x

omit [DecidableEq P] in
theorem KbdHolds.refocus (h : KbdHolds s q) (p : P) :
    KbdHolds { s with kbdFocus := p } { q with focus := p } := ⟨rfl, h.input⟩

theorem KbdQueues.set_same (q : KbdQueues P) (p : P) (l : List (BitVec 16)) :
    (q.set p l).waiting p = l := if_pos rfl

theorem KbdQueues.set_set (q : KbdQueues P) (p : P) (l l' : List (BitVec 16)) :
    (q.set p l).set p l' = q.set p l' := by
  unfold KbdQueues.set
  congr 1
  funext x
  by_cases hx : x = p
  · rw [if_pos hx, if_pos hx]
  · rw [if_neg hx, if_neg hx]
    exact if_neg hx

theorem KbdQueues.set_self (q : KbdQueues P) (p : P) : q.set p (q.waiting p) = q := by
  unfold KbdQueues.set
  have : (fun x => if x = p then q.waiting p else q.waiting x) = q.waiting := by
    funext x
    split
    · rename_i hx
      rw [hx]
    · rfl
  rw [this]

/-- A reader that has the focus, or whose head is that of the focused process, takes its first
    code. -/
theorem KbdHolds.first (h : KbdHolds s q) (hq : q.waiting p = code :: l)
    (hp : p = s.kbdFocus ∨ (s.inputinf p).kbhead = (s.inputinf s.kbdFocus).kbhead) :
    (s.inputinf p).inputBuf (s.inputinf s.kbdFocus).kbhead = code ∧
      KbdHolds (s.advance p) (q.set p l) := by
  have hi := h.input p
  rw [hq] at hi
  obtain ⟨hpop, hcode⟩ := hi.pop
  refine ⟨?_, h.set hpop⟩
  rcases hp with rfl | hp
  · exact hcode
  · rw [← hp]
    exact hcode

/-- The loop of `kbd_read`. Only the focused process may go round it twice. -/
theorem KbdHolds.readLoop : ∀ (n : Nat) {s : KbdState P} {q : KbdQueues P}, KbdHolds s q →
    (p = s.kbdFocus ∨ n = 0 ∨ q.waiting p = [] ∨
      (s.inputinf p).kbhead = (s.inputinf s.kbdFocus).kbhead ∧
        (n ≤ 1 ∨ (q.waiting p).length ≤ 1)) →
    (kbdReadLoop p n s).1 = ((q.waiting p).take n).map charOf ∧
      KbdHolds (kbdReadLoop p n s).2 (q.set p ((q.waiting p).drop n))
  | 0, s, q, h, _ => by
    refine ⟨rfl, ?_⟩
    rw [List.drop_zero, q.set_self]
    exact h
  | n + 1, s, q, h, hp => by
    cases hq : q.waiting p with
    | nil =>
      have hempty := (h.input p).nil_iff.mp hq
      unfold kbdReadLoop
      simp only [hempty, ne_eq, not_true_eq_false, if_false]
      refine ⟨rfl, ?_⟩
      rw [List.drop_nil, ← hq, q.set_self]
      exact h
    | cons code l =>
      have hsome : (s.inputinf p).kbtail ≠ (s.inputinf p).kbhead := fun he =>
        absurd ((h.input p).nil_iff.mpr he) (by simp [hq])
      have hhead : p = s.kbdFocus ∨
          (s.inputinf p).kbhead = (s.inputinf s.kbdFocus).kbhead := by
        rcases hp with hp | hp | hp | hp
        · exact .inl hp
        · exact absurd hp (by simp)
        · exact absurd hp (by simp [hq])
        · exact .inr hp.1
      obtain ⟨hcode, hadv⟩ := h.first hq hhead
      have hrest : p = (s.advance p).kbdFocus ∨ n = 0 ∨ (q.set p l).waiting p = [] ∨
          ((s.advance p).inputinf p).kbhead =
              ((s.advance p).inputinf (s.advance p).kbdFocus).kbhead ∧
            (n ≤ 1 ∨ ((q.set p l).waiting p).length ≤ 1) := by
        rw [q.set_same]
        rcases hp with hp | hp | hp | ⟨-, hp | hp⟩
        · exact .inl hp
        · exact absurd hp (by simp)
        · exact absurd hp (by simp [hq])
        · exact .inr (.inl (by omega))
        · rw [hq, List.length_cons] at hp
          exact .inr (.inr (.inl (List.length_eq_zero_iff.mp (by omega))))
      obtain ⟨hchars, hholds⟩ := KbdHolds.readLoop n hadv hrest
      rw [q.set_same] at hchars hholds
      rw [q.set_set] at hholds
      unfold kbdReadLoop
      simp only [if_pos hsome]
      refine ⟨?_, hholds⟩
      rw [hchars, hcode]
      rfl

theorem InputHolds.single (h : InputHolds i l) (ht : i.kbtail = (i.kbhead + 1) % kbBufSize) :
    l.length ≤ 1 := by
  rw [h.ring.length_eq h.head_lt h.tail_lt, ht]
  unfold kbBufSize at *
  split <;> omega

/-- **One step of the keyboard** is a step of the queues. -/
theorem KbdHolds.step (procs : ProcList P) (h : KbdHolds s q) {op : KbdOp P} (hok : KbdOpOk s op) :
    Option.Rel (fun r p => r.1 = p.1 ∧ KbdHolds r.2 p.2) (kbdStep procs s op)
      (queueStep procs q op) := by
  cases op with
  | insert code =>
    unfold kbdStep queueStep inputInsert
    simp only
    split
    · unfold changeKbdFocus
      rw [h.focus, Option.map_map]
      cases procs.after q.focus with
      | none => exact .none
      | some p => exact .some ⟨rfl, h.refocus p⟩
    split
    · exact .some ⟨rfl, h⟩
    have hi := (h.input s.kbdFocus).insert code
    rw [h.focus] at hi ⊢
    split at hi
    · rename_i hroom
      rw [if_pos hroom]
      exact .some ⟨rfl, h.set hi⟩
    rename_i hroom
    rw [if_neg hroom]
    have hset : KbdHolds _ (q.set q.focus (q.waiting q.focus)) := h.set (p := q.focus) hi
    rw [q.set_self] at hset
    exact .some ⟨rfl, hset⟩
  | focus p => exact .some ⟨rfl, h.refocus p⟩
  | pushBack c =>
    have hi := h.input s.kbdFocus
    have hfront := hi.front_iff
    unfold kbdStep queueStep insertkbChar
    unfold KbdOpOk at hok
    rw [h.focus] at hi hfront hok ⊢
    by_cases hroom : (q.waiting q.focus).length < 255
    · have hne : (s.inputinf q.focus).kbtail ≠ (s.inputinf q.focus).frontHead := fun he =>
        hfront.mp he hroom
      simp only [if_pos hroom, if_pos hne]
      obtain ⟨hcell, hfirst⟩ := hok.resolve_left hne
      exact .some ⟨rfl, h.set (hi.pushFront hne hcell hfirst)⟩
    · simp only [if_neg hroom, if_neg (not_not.mpr (hfront.mpr hroom))]
      exact .some ⟨rfl, h⟩
  | getchar p =>
    unfold kbdStep queueStep kbdGetchar
    cases hq : q.waiting p with
    | nil =>
      simp only [hq, if_pos ((h.input p).nil_iff.mp hq)]
      exact .none
    | cons code l =>
      have hsome : (s.inputinf p).kbtail ≠ (s.inputinf p).kbhead := fun he =>
        absurd ((h.input p).nil_iff.mpr he) (by simp [hq])
      obtain ⟨hcode, hadv⟩ := h.first hq hok
      simp only [hq, if_neg hsome]
      exact .some ⟨congrArg KbdAnswer.code hcode, hadv⟩
  | read p nbytes =>
    unfold kbdStep queueStep kbdRead
    by_cases hq : q.waiting p = []
    · simp only [if_pos hq, if_pos ((h.input p).nil_iff.mp hq)]
      exact .none
    have hsome : (s.inputinf p).kbtail ≠ (s.inputinf p).kbhead := fun he =>
      hq ((h.input p).nil_iff.mpr he)
    obtain ⟨hchars, hholds⟩ := h.readLoop nbytes.toNat (p := p) (by
      rcases hok with hp | hn | ⟨hhead, hn | hone⟩
      · exact .inl hp
      · exact .inr (.inl (by omega))
      · exact .inr (.inr (.inr ⟨hhead, .inl (by omega)⟩))
      · exact .inr (.inr (.inr ⟨hhead, .inr ((h.input p).single hone)⟩)))
    simp only [if_neg hq, if_neg hsome]
    exact .some ⟨congrArg KbdAnswer.chars hchars, hholds⟩

end refinement

theorem charOf_scanAscii {c : Int} (h32 : 32 ≤ c) (h256 : c < 256) :
    ((charOf (scanAscii c)).toNat : Int) = c := by
  obtain ⟨n, rfl⟩ := Int.eq_ofNat_of_zero_le (by omega : 0 ≤ c)
  have hn : n < 256 := by omega
  have hbit : ∀ m < 256, 32 ≤ m → (charOf (scanAscii (m : Nat))).toNat = m := by decide +kernel
  exact congrArg _ (hbit n hn (by omega))

/-- **The keyboard buffers are queues.** From empty buffers, in every run of key arrivals, changes
    of focus, keys put back and reads by any processes, each step as `KbdOpOk` says, every caller
    gets what the queues give: the codes that arrived while it had the focus and fewer than 255
    were waiting, in their order and each once, after those it has put back. A caller waits exactly
    when its queue is empty. What was put back for a printable character is that character. -/
theorem kbd_reads_in_order {P : Type} [DecidableEq P] (procs : ProcList P) (s : KbdState P)
    (hempty : ∀ p, (s.inputinf p).kbhead < kbBufSize ∧
      (s.inputinf p).kbtail = (s.inputinf p).kbhead)
    (ops : List (KbdOp P)) (hok : Allowed KbdOpOk (kbdStep procs) s ops) :
    (runAnswers (kbdStep procs) s ops).map Prod.fst =
        (runAnswers (queueStep procs) ⟨fun _ => [], s.kbdFocus⟩ ops).map Prod.fst ∧
      ∀ c : Int, 32 ≤ c → c < 256 → ((charOf (scanAscii c)).toNat : Int) = c := by
  refine ⟨?_, fun c h32 h256 => charOf_scanAscii h32 h256⟩
  have hinit : KbdHolds s ⟨fun _ => [], s.kbdFocus⟩ := by
    refine ⟨rfl, fun p => ?_⟩
    obtain ⟨hlt, heq⟩ := hempty p
    exact ⟨hlt, heq ▸ hlt, heq.symm⟩
  have hrel := hok.simulates (fun h hop => h.step procs hop) hinit
  generalize runAnswers (kbdStep procs) s ops = x at hrel ⊢
  generalize runAnswers (queueStep procs) ⟨fun _ => [], s.kbdFocus⟩ ops = y at hrel ⊢
  cases hrel with
  | none => rfl
  | some hrel => exact congrArg some hrel.1

/-- Two processes with empty buffers, the first with the focus. -/
def twoKeyboards : KbdState Bool := ⟨fun _ => ⟨fun _ => 0#16, 0, 0⟩, false⟩

/-- The list of the two. -/
def twoProcs : ProcList Bool := ⟨fun p => if p then none else some true, some false⟩

/-- Keys for both processes, a focus change by Alt+a, and reads of both kinds. -/
def twoReaders : List (KbdOp Bool) :=
  [.insert 0x1E61#16, .insert 0x3062#16, .getchar false, .insert 0x1E00#16, .insert 0x2E63#16,
    .read true 5, .focus false, .read false 3]

theorem kbd_reads_in_order_two : Allowed KbdOpOk (kbdStep twoProcs) twoKeyboards twoReaders ∧
      (runAnswers (kbdStep twoProcs) twoKeyboards twoReaders).map Prod.fst =
        some [.done, .done, .code 0x1E61#16, .done, .done, .chars [0x63#8], .done,
          .chars [0x62#8]] := by
  have hok : Allowed KbdOpOk (kbdStep twoProcs) twoKeyboards twoReaders := by decide +kernel
  refine ⟨hok, ?_⟩
  rw [(kbd_reads_in_order twoProcs twoKeyboards (fun _ => ⟨Nat.zero_lt_succ 255, rfl⟩) twoReaders hok).1]
  decide +kernel

/-- **A key put back is lost.** With one key waiting, another is put back; the next reader gets what
    the buffer was initialised with, and the one after it the key put back in place of the key that
    was waiting. -/
theorem put_back_key_lost : (runAnswers (kbdStep twoProcs) twoKeyboards
        [.insert 0x1E61#16, .pushBack 98, .getchar false, .getchar false]).map Prod.fst =
      some [.done, .ret 98, .code 0#16, .code 0x6262#16] ∧
    (runAnswers (queueStep twoProcs) ⟨fun _ => [], false⟩
        [.insert 0x1E61#16, .pushBack 98, .getchar false, .getchar false]).map Prod.fst =
      some [.done, .ret 98, .code 0x6262#16, .code 0x1E61#16] := by
  constructor <;> decide +kernel

end AtomOs
