import AtomOs.Lib.DList
import AtomOs.Lib.Delta
import AtomOs.Lib.Run
import AtomOs.Lib.Word

/-!
# The timer list

Running timers are in one doubly linked list, `timers`. The `timer_count` of a timer is how much
longer it runs than the timer in front of it, so that the tick has only the first one to lower.
`starttimer` goes down the list to the timer's place, `stoptimer` takes it out wherever it is, and
a round of `timerthread` takes the timers that have run out from the front and calls their handlers.

The functions are modelled on the pointers themselves. A count is a 32-bit `long`: every assignment
comes back through `i32`.
-/

namespace AtomOs

open Lib

/-- The global variables of the timer list, and the fields of every `struct timerobject`. `H` is
    what a timer is to do when it runs out: its handler, the handler's parameter and the thread
    that started it. -/
structure TimerList (H : Type) where
  timers : Option Addr
  timerCount : Addr → Int
  timerNext : Addr → Option Addr
  timerPrev : Addr → Option Addr
  timerHandler : Addr → H
  timeoutflag : Bool

variable {H : Type}

def TimerList.setCount (s : TimerList H) (t : Addr) (c : Int) : TimerList H :=
  { s with timerCount := fun x => if x = t then i32 c else s.timerCount x }

/-- The loop of `insert_timerobj`: `t1` and `t2` when it ends, and the list with the count of `tobj`
    lowered. -/
def insertWalk (tobj : Addr) : Nat → Option Addr → Option Addr → TimerList H →
    Option (Option Addr × Option Addr × TimerList H)
  | _, none, t2, s => some (none, t2, s)
  | 0, some _, _, _ => none
  | fuel + 1, some t1, t2, s =>
    if s.timerCount t1 ≤ s.timerCount tobj then
      insertWalk tobj fuel (s.timerNext t1) (some t1)
        (s.setCount tobj (s.timerCount tobj - s.timerCount t1))
    else some (some t1, t2, s)

/-- A count is changed by `c`, if there is such a timer. -/
def TimerList.addCount (s : TimerList H) (c : Int) : Option Addr → TimerList H
  | none => s
  | some t => s.setCount t (s.timerCount t + c)

def insertTimerobj (tobj : Addr) (s : TimerList H) : Option (TimerList H) :=
  match s.timers with
  | none => some { s with timers := some tobj }
  | some head =>
    if s.timerCount head > s.timerCount tobj then
      some { s.setCount head (s.timerCount head - s.timerCount tobj) with
        timerNext := store s.timerNext (some tobj) s.timers
        timerPrev := store s.timerPrev s.timers (some tobj)
        timers := some tobj }
    else
      match insertWalk tobj walkFuel s.timers none s with
      | none => none
      | some (t1, t2, s) =>
        some { s.addCount (-s.timerCount tobj) t1 with
          timerNext := store (store s.timerNext (some tobj) t1) t2 (some tobj)
          timerPrev := store (store s.timerPrev (some tobj) t2) t1 (some tobj) }

def removeTimerobj (tobj : Addr) (s : TimerList H) : TimerList H :=
  { s.addCount (s.timerCount tobj) (s.timerNext tobj) with
    timers := if s.timerPrev tobj = none then s.timerNext tobj else s.timers
    timerNext :=
      store (store s.timerNext (s.timerPrev tobj) (s.timerNext tobj)) (some tobj) none
    timerPrev :=
      store (store s.timerPrev (s.timerNext tobj) (s.timerPrev tobj)) (some tobj) none }

/-- The search of `starttimer` and `stoptimer`: is the timer in the list from here on? -/
def queuedFrom (s : TimerList H) (tobj : Addr) : Nat → Option Addr → Option Bool
  | _, none => some false
  | 0, some _ => none
  | fuel + 1, some t1 => if t1 = tobj then some true else queuedFrom s tobj fuel (s.timerNext t1)

def queued (s : TimerList H) (tobj : Addr) : Option Bool := queuedFrom s tobj walkFuel s.timers

/-- What `starttimer` assigns before it takes the lock. -/
def initTimer (tobj : Addr) (msec : Nat) (h : H) (s : TimerList H) : TimerList H :=
  { s.setCount tobj msec with
    timerHandler := fun x => if x = tobj then h else s.timerHandler x
    timerNext := store s.timerNext (some tobj) none
    timerPrev := store s.timerPrev (some tobj) none }

/-- `starttimer`. The search is there in a `DEBUG` kernel, as this one is. -/
def starttimer (tobj : Addr) (msec : Nat) (h : H) (s : TimerList H) : Option (Int × TimerList H) :=
  let s := initTimer tobj msec h s
  match queued s tobj with
  | none => none
  | some true => some (-1, s)
  | some false => (insertTimerobj tobj s).map fun s => (0, s)

def stoptimer (tobj : Addr) (s : TimerList H) : Option (Int × TimerList H) :=
  match queued s tobj with
  | none => none
  | some found =>
    let s := if found then removeTimerobj tobj s else s
    some (if found then 0 else -1,
      { s.setCount tobj (-1) with
        timerNext := store s.timerNext (some tobj) none
        timerPrev := store s.timerPrev (some tobj) none })

/-- The part of `timer_handler` that is about timers. -/
def timerTick (s : TimerList H) : TimerList H :=
  match s.timers with
  | none => s
  | some t =>
    let s := s.setCount t (s.timerCount t - 20)
    if s.timerCount t ≤ 0 then { s with timeoutflag := true } else s

/-- What the loop of `timerthread` does to a timer that has run out, the first of the list, and to
    the one behind it. -/
def expireOne (t1 : Addr) (s : TimerList H) : TimerList H :=
  let t2 := s.timerNext t1
  { (s.addCount (s.timerCount t1) t2).setCount t1 (-1) with
    timerNext := store s.timerNext (some t1) none
    timerPrev := store (store s.timerPrev t2 none) (some t1) none }

/-- The loop of `timerthread` over the timers that have run out: where it stops, and the timers
    with what they are to do. -/
def expireLoop : Nat → Option Addr → TimerList H →
    Option (List (Addr × H) × Option Addr × TimerList H)
  | _, none, s => some ([], none, s)
  | 0, some _, _ => none
  | fuel + 1, some t1, s =>
    if s.timerCount t1 ≤ 0 then
      (expireLoop fuel (s.timerNext t1) (expireOne t1 s)).map fun r =>
        ((t1, s.timerHandler t1) :: r.1, r.2)
    else some ([], some t1, s)

/-- A round of `timerthread`, as far as timers go. -/
def timerRound (s : TimerList H) : Option (List (Addr × H) × TimerList H) :=
  if s.timeoutflag then
    (expireLoop walkFuel s.timers { s with timeoutflag := false }).map fun r =>
      (r.1, { r.2.2 with timers := r.2.1 })
  else some ([], s)

/-- How long a timer has still to run: the sum of the counts from the head up to it. -/
def remainingFrom (s : TimerList H) (tobj : Addr) : Nat → Int → Option Addr → Option Int
  | _, _, none => none
  | 0, _, some _ => none
  | fuel + 1, sum, some t1 =>
    if t1 = tobj then some (sum + s.timerCount t1)
    else remainingFrom s tobj fuel (sum + s.timerCount t1) (s.timerNext t1)

def remaining (s : TimerList H) (tobj : Addr) : Option Int :=
  remainingFrom s tobj walkFuel 0 s.timers

end AtomOs
