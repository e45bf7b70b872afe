import Mathlib
import OpusSysV.Lib.Run
import OpusSysV.Lib.Word

/-!
# The callout table: `timeout`, `untimeout`, `clock` and `timein` of `os/clock.c`

The table keeps the time of each entry as the number of ticks more than the entry
before it, so that the clock has to count down one entry only.  A function that is due
waits, with its time at zero, until `timein` runs and calls it.

* `Callouts`: the entries, and the time field of the terminator behind them, which the
  routines change like any other;
* the routines, and `Callouts.step`, any interleaving of them: `timein` is cut into its
  passes, since a function it calls may use the table and lets the clock in;
* `Timers`: the same timeouts with absolute times, in the order in which they expire.

`Callouts.calls` is not in the source: it notes the functions `timein` called.
-/

namespace Os

open Lib

/-- `struct callo` with a function, which is never null. -/
structure Callo where
  time : ℤ
  id : ℤ
  arg : ℕ
  func : ℕ
  deriving DecidableEq, Repr

/-- The table: `callout[0]` on, the time field of the first entry without a function, the
size `v.v_call` and `timeid`. -/
structure Callouts where
  callout : List Callo
  last : ℤ
  vCall : ℕ
  timeid : ℤ
  calls : List (ℕ × ℕ)
  deriving DecidableEq, Repr

/-- The loops of `timeout` from an entry on, with `t` ticks to go: the new entry goes
behind those that are due no later, and the next one counts from it. -/
def insertCallo (new : Callo) (t : ℤ) : List Callo → ℤ → List Callo × ℤ
  | [], last => ([{ new with time := t }], long (last - t))
  | p :: rest, last =>
    if p.time ≤ t then
      let r := insertCallo new (long (t - p.time)) rest last
      (p :: r.1, r.2)
    else ({ new with time := t } :: { p with time := long (p.time - t) } :: rest, last)

/-- The search of `untimeout` and the removal: the next entry takes over the time. -/
def removeCallo (id : ℤ) : List Callo → ℤ → List Callo × ℤ
  | [], last => ([], last)
  | p :: rest, last =>
    if p.id = id then
      match rest with
      | [] => ([], long (last + p.time))
      | q :: rest => ({ q with time := long (q.time + p.time) } :: rest, last)
    else
      let r := removeCallo id rest last
      (p :: r.1, r.2)

/-- The second loop of `clock` from an entry on, with `tdole` ticks to dole out. -/
def dole (tdole : ℤ) : List Callo → ℤ → List Callo × ℤ
  | [], last => ([], long (last - tdole))
  | p :: rest, last =>
    if p.time < tdole then
      let r := dole (long (tdole - p.time)) rest last
      ({ p with time := 0 } :: r.1, r.2)
    else ({ p with time := long (p.time - tdole) } :: rest, last)

/-- The first loop of `clock`, past the entries that are due, and the second. -/
def tick (ticks : ℤ) : List Callo → ℤ → List Callo × ℤ
  | [], last => dole ticks [] last
  | p :: rest, last =>
    if p.time ≤ 0 then
      let r := tick ticks rest last
      (p :: r.1, r.2)
    else dole ticks (p :: rest) last

namespace Callouts

/-- Store the entries and the time field of the terminator. -/
def store (s : Callouts) (r : List Callo × ℤ) : Callouts := { s with callout := r.1, last := r.2 }

/-- `timeout(fun, arg, tim)`; `none` is the panic "Timeout table overflow". -/
def timeout (s : Callouts) (func arg : ℕ) (tim : ℤ) : Option Callouts :=
  if s.vCall ≤ s.callout.length + 1 then none
  else
    let id := long (s.timeid + 1)
    some { s.store (insertCallo ⟨tim, id, arg, func⟩ tim s.callout s.last) with timeid := id }

/-- `untimeout(id)`. -/
def untimeout (s : Callouts) (id : ℤ) : Callouts := s.store (removeCallo id s.callout s.last)

/-- `clock` with this many ticks: "if any callout active, update first non-zero time". -/
def clock (s : Callouts) (ticks : ℤ) : Callouts :=
  if s.callout = [] then s else s.store (tick ticks s.callout s.last)

/-- A pass of `timein`, on entry or when a function it called has returned: the first
entry is taken off and called if it is due. -/
def timein (s : Callouts) : Callouts :=
  match s.callout with
  | [] => s
  | p :: rest =>
    if p.time ≤ 0 then { s with callout := rest, calls := s.calls ++ [(p.func, p.arg)] } else s

end Callouts

/-- What happens to the table.  Delays are non-negative, ticks positive `int`s. -/
inductive CalloutEvent
  | timeout (func arg tim : ℕ)
  | untimeout (id : ℤ)
  | clock (ticks : ℕ)
  | timein
  deriving DecidableEq, Repr

/-- One event. -/
def Callouts.step (s : Callouts) : CalloutEvent → Option Callouts
  | .timeout func arg tim => if tim < 2 ^ 31 then s.timeout func arg tim else none
  | .untimeout id => some (s.untimeout id)
  | .clock ticks => if 0 < ticks ∧ ticks < 2 ^ 31 then some (s.clock ticks) else none
  | .timein => some s.timein

/-! ## Timeouts with absolute times -/

/-- The `seq`-th timeout: what it was given, and the tick at which it was made. -/
structure Timer where
  id : ℤ
  arg : ℕ
  func : ℕ
  start : ℕ
  delay : ℕ
  seq : ℕ
  deriving DecidableEq, Repr

/-- The tick at which the delay has elapsed. -/
def Timer.due (e : Timer) : ℕ := e.start + e.delay

/-- The order of expiry, ties in the order of insertion. -/
def Timer.Before (e f : Timer) : Prop := e.due < f.due ∨ e.due = f.due ∧ e.seq < f.seq

/-- The ticks that have elapsed, the number of timeouts that were made, those pending in
the order in which they expire, and those called, in order. -/
structure Timers where
  now : ℕ
  made : ℕ
  pending : List Timer
  called : List Timer

/-- A new timeout goes behind those due no later. -/
def place (e : Timer) : List Timer → List Timer
  | [] => [e]
  | f :: rest => if f.due ≤ e.due then f :: place e rest else e :: f :: rest

/-- What an event does: a timeout is made, with the next id; one with the given id is
withdrawn; time goes on; the first pending one is called if it is due. -/
def Timers.step (A : Timers) : CalloutEvent → Timers
  | .timeout func arg tim =>
    let e : Timer := ⟨long (A.made + 1), arg, func, A.now, tim, A.made⟩
    { A with made := A.made + 1, pending := place e A.pending }
  | .untimeout id => { A with pending := A.pending.eraseP fun e => e.id = id }
  | .clock ticks => { A with now := A.now + ticks }
  | .timein =>
    match A.pending with
    | [] => A
    | e :: rest =>
      if e.due ≤ A.now then { A with pending := rest, called := A.called ++ [e] } else A

end Os
