import OpusSysV.Lib.DList
import OpusSysV.Lib.Run
import Mathlib

/-!
# The event list of `cron`

Events wait in a list of notices ordered by time.  Keys divide it into sublists of at most `NLIM`
notices, and the index divides the keys into intervals of time, each of which ends with a dummy
notice that has a key of its own.

* `El` — the memory: notices, keys and index elements at addresses, field by field, and the
  parameters set by `el_init`.
* `el_init`, `el_add`, `el_remove`, `el_first` — the routines.  They fail where a null pointer is
  followed, and a loop fails when it passes more cells than there are.
* `Sys.step` — a sequence of calls, with what `el_first` returned.
* `Queue` — what the list is for: a queue ordered by time.
-/

namespace Cmd.Elm

open Lib

/-! ## Memory -/

def INFINITY : ℤ := 2147483647

/-- Arithmetic on `time_t`, a signed word. -/
def time_t (t : ℤ) : ℤ := (t + 2 ^ 31) % 2 ^ 32 - 2 ^ 31

/-- The fields of `struct notice`, at each address. -/
structure Notices where
  time : ℕ → ℤ
  id : ℕ → ℤ
  event : ℕ → ℕ
  isdummy : ℕ → Bool
  key : ℕ → Option ℕ
  left : ℕ → Option ℕ
  right : ℕ → Option ℕ

/-- The fields of `struct key`. -/
structure Keys where
  time : ℕ → ℤ
  numnote : ℕ → ℤ
  notice : ℕ → ℕ
  left : ℕ → Option ℕ
  right : ℕ → Option ℕ

/-- The fields of `struct index`. -/
structure Indices where
  key : ℕ → ℕ
  right : ℕ → Option ℕ

/-- The parameters, `current`, `index`, and the memory; `xmalloc` gives the addresses from `avail`
on. -/
structure El where
  DU : ℤ
  LB : ℤ
  DT : ℤ
  NLIM : ℤ
  current : Option ℕ
  index : Option ℕ
  notice : Notices
  key : Keys
  ind : Indices
  avail : ℕ

namespace El

/-- Before `el_init`. -/
def zero : El :=
  ⟨0, 0, 0, 0, none, none, ⟨fun _ => 0, fun _ => 0, fun _ => 0, fun _ => false, fun _ => none,
    fun _ => none, fun _ => none⟩, ⟨fun _ => 0, fun _ => 0, fun _ => 0, fun _ => none,
    fun _ => none⟩, ⟨fun _ => 0, fun _ => none⟩, 0⟩

open Function

/-- The most cells that a loop passes. -/
def cells (s : El) : ℕ := s.avail

/-! ## `el_init` -/

/-- A dummy notice at address `n` and a dummy key at `k`, behind `prev`; nothing is behind them
yet. -/
def dummy (s : El) (t : ℤ) (n k : ℕ) (prev : Option (ℕ × ℕ)) : El :=
  { s with
    notice.time := update s.notice.time n t
    notice.isdummy := update s.notice.isdummy n true
    notice.key := update s.notice.key n (some k)
    notice.left := update s.notice.left n (prev.map Prod.fst)
    notice.right := match prev with
      | some (nprev, _) => update (update s.notice.right nprev (some n)) n none
      | none => update s.notice.right n none
    key.time := update s.key.time k t
    key.numnote := update s.key.numnote k 1
    key.notice := update s.key.notice k n
    key.left := update s.key.left k (prev.map Prod.snd)
    key.right := match prev with
      | some (_, kprev) => update (update s.key.right kprev (some k)) k none
      | none => update s.key.right k none }

/-- An index element at address `i` for key `k`, behind `indprev`. -/
def newIndex (s : El) (i k : ℕ) (indprev : Option ℕ) : El :=
  { s with
    ind.key := update s.ind.key i k
    ind.right := match indprev with
      | some p => update (update s.ind.right p (some i)) i none
      | none => update s.ind.right i none
    index := match indprev with
      | some _ => s.index
      | none => some i }

/-- An interval up to `t` in new memory: a dummy notice, its key and its index element. -/
def interval (s : El) (t : ℤ) (nprev kprev : ℕ) (indprev : Option ℕ) : El :=
  { (s.dummy t s.avail (s.avail + 1) (some (nprev, kprev))).newIndex (s.avail + 2) (s.avail + 1)
      indprev with avail := s.avail + 3 }

/-- The loop over the intervals of width `DT` behind time `t`, and the last one. -/
def intervals : ℕ → El → ℤ → ℕ → ℕ → Option ℕ → El
  | 0, s, _, nprev, kprev, indprev => s.interval INFINITY nprev kprev indprev
  | i + 1, s, t, nprev, kprev, indprev =>
    let t := time_t (t + s.DT)
    intervals i (s.interval t nprev kprev indprev) t s.avail (s.avail + 1) (some (s.avail + 2))

/-- `el_init(du, lb, dt, nlim)`. -/
def el_init (s : El) (du lb dt nlim : ℤ) : El :=
  if du < 1 ∨ dt < 1 ∨ nlim < 1 then s
  else
    let n := s.avail
    let k := s.avail + 1
    let s := { s with DU := du + 1, LB := lb, DT := dt, NLIM := nlim }
    let s := { s.dummy lb n k none with avail := s.avail + 2 }
    { intervals du.toNat s lb n k none with current := none }

/-! ## `el_add` -/

/-- The sublist of `k` is full, and is split: the first part gets the new key `k2`. -/
def splitKey (s : El) (k : ℕ) : Option (ℕ × El) :=
  (steps s.notice.left (s.NLIM / 2).toNat (some (s.key.notice k))).bind fun n2 =>
    let k2 := s.avail
    (linkBefore s.key.right s.key.left k2 k).map fun (right, left) =>
      (k2, { s with
        key.numnote := update (update s.key.numnote k (s.NLIM / 2)) k2 (s.NLIM - s.NLIM / 2)
        key.time := update s.key.time k2 (s.notice.time n2)
        key.notice := update s.key.notice k2 n2
        key.left := left
        key.right := right
        notice.key := update s.notice.key n2 (some k2)
        avail := s.avail + 1 })

/-- A new notice for the event. -/
def newNotice (s : El) (event : ℕ) (time id : ℤ) : El :=
  { s with
    notice.time := update s.notice.time s.avail time
    notice.id := update s.notice.id s.avail id
    notice.event := update s.notice.event s.avail event
    notice.isdummy := update s.notice.isdummy s.avail false
    notice.key := update s.notice.key s.avail none
    avail := s.avail + 1 }

/-- The key of the sublist for `time`: first the interval, then from its key to the left. -/
def findKey (s : El) (time : ℤ) : Option ℕ :=
  (seek s.ind.right (fun i => s.key.time (s.ind.key i) ≤ time) s.cells s.index).bind fun i =>
    (seek s.key.left (fun k => time < s.key.time k) s.cells (s.key.left (s.ind.key i))).bind
      s.key.right

/-- Put notice `n` into the sublist of `k`. -/
def insertNotice (s : El) (n k : ℕ) : Option El :=
  let time := s.notice.time n
  let s := { s with key.numnote := update s.key.numnote k (s.key.numnote k + 1) }
  (seek s.notice.left (fun m => time < s.notice.time m) s.cells (some (s.key.notice k))).bind fun n2 =>
    (linkAfter s.notice.right s.notice.left n n2).map fun (right, left) =>
      let s := { s with notice.right := right, notice.left := left }
      if s.current.all fun c => time < s.notice.time c then { s with current := some n } else s

/-- `el_add(event, time, id)`. -/
def el_add (s : El) (event : ℕ) (time id : ℤ) : Option El :=
  if s.index = none ∨ time < s.LB then some s
  else
    let n := s.avail
    let s := s.newNotice event time id
    (s.findKey time).bind fun k =>
      if s.key.numnote k = s.NLIM then
        (s.splitKey k).bind fun (k2, s) => s.insertNotice n (if time < s.key.time k2 then k2 else k)
      else s.insertNotice n k

/-! ## `el_remove` -/

/-- Take key `k` out of the list of keys. -/
def unlinkKey (s : El) (k : ℕ) : Option El :=
  (unlink s.key.right s.key.left k).map fun (right, left) =>
    { s with key.right := right, key.left := left }

/-- Take notice `n` out of the list of notices. -/
def unlinkNotice (s : El) (n : ℕ) : Option El :=
  (unlink s.notice.right s.notice.left n).map fun (right, left) =>
    { s with notice.right := right, notice.left := left }

/-- The sublist of `k` becomes part of the one behind it, of `kr`. -/
def mergeKey (s : El) (k kr : ℕ) : Option El :=
  (s.key.left k).map fun l =>
    { s with
      notice.key := update s.notice.key (s.key.notice k) none
      key.numnote := update s.key.numnote kr (s.key.numnote kr + s.key.numnote k)
      key.right := update s.key.right l (some kr)
      key.left := update s.key.left kr (some l) }

/-- Notice `n` with key `k` is the last of several: the one before becomes the last. -/
def moveLast (s : El) (n k : ℕ) : Option El :=
  (s.notice.left n).map fun l =>
    { s with
      notice.key := update s.notice.key l (some k)
      key.time := update s.key.time k (s.notice.time l)
      key.notice := update s.key.notice k l }

/-- The sublist of `k` is merged with the one to the left, or else the one to the right, when it can
be. -/
def merge (s : El) (k : ℕ) : Option El :=
  (s.key.left k).bind fun kl =>
    if ¬ s.notice.isdummy (s.key.notice kl) ∧ s.key.numnote kl + s.key.numnote k ≤ s.NLIM then
      s.mergeKey kl k
    else if s.notice.isdummy (s.key.notice k) then some s
    else (s.key.right k).bind fun kr =>
      if s.key.numnote kr + s.key.numnote k ≤ s.NLIM then s.mergeKey k kr else some s

/-- One notice less in the sublist of `k`. -/
def shrink (s : El) (k : ℕ) : Option El :=
  merge { s with key.numnote := update s.key.numnote k (s.key.numnote k - 1) } k

/-- The keys without notice `n`. -/
def dropFromKey (s : El) (n : ℕ) : Option El :=
  match s.notice.key n with
  | some k =>
    if s.key.numnote k = 1 then s.unlinkKey k else (s.moveLast n k).bind fun s => s.shrink k
  | none =>
    (seek s.notice.right (fun m => s.notice.key m = none) s.cells (some n)).bind fun m =>
      (s.notice.key m).bind s.shrink

/-- The loop of `el_remove` from notice `n` on; after one removal it ends if `flag` is set. -/
def removeLoop (id : ℤ) (flag : Bool) : ℕ → El → Option ℕ → Option El
  | 0, _, _ => none
  | m + 1, s, n =>
    (skip s.notice.right (fun n => s.notice.isdummy n ∨ s.notice.id n ≠ id) s.cells n).bind fun
    | none => some s
    | some n =>
      (s.dropFromKey n).bind fun s => (s.unlinkNotice n).bind fun s =>
        if flag then some s else removeLoop id flag m s (s.notice.right n)

/-- The end of `el_remove`: the first event, from the first key on.  The test for a null pointer
comes after its use. -/
def resetCurrent (s : El) : Option El :=
  s.index.bind fun i =>
    (seek s.key.left (fun k => (s.key.left k).isSome) s.cells (s.key.left (s.ind.key i))).bind
    fun k =>
      (seek s.notice.right s.notice.isdummy s.cells (s.notice.right (s.key.notice k))).map fun n =>
        { s with current := some n }

/-- `el_remove(id, flag)`. -/
def el_remove (s : El) (id : ℤ) (flag : Bool) : Option El :=
  if s.index = none ∨ s.current = none then some s
  else (removeLoop id flag (s.cells + 1) s s.current).bind resetCurrent

/-! ## `el_first` -/

/-- What was taken out of the first interval ends a new one at `next_int`, between index elements `i`
and `last`: in the sublist of `k`, before notice `n`, with `ctr` notices from there on. -/
def newInterval (s : El) (fi fk fn i last k n : ℕ) (ctr next_int : ℤ) : Option El :=
  let s := { s with
    ind.right := update (update s.ind.right fi (some last)) i (some fi)
    key.time := update s.key.time fk next_int
    key.numnote := update (update s.key.numnote fk (s.key.numnote k - ctr + 1)) k ctr
    notice.time := update s.notice.time fn next_int }
  (linkBefore s.key.right s.key.left fk k).bind fun (kright, kleft) =>
    (linkBefore s.notice.right s.notice.left fn n).map fun (right, left) =>
      { s with key.right := kright, key.left := kleft, notice.right := right, notice.left := left }

/-- The number of notices up to the first one to the left of `n` that is before time `t`, and this
one. -/
def countBack (left : ℕ → Option ℕ) (time : ℕ → ℤ) (t : ℤ) : ℕ → ℤ → Option ℕ → Option (ℤ × ℕ)
  | _, _, none => none
  | 0, _, some _ => none
  | m + 1, ctr, some n =>
    if t ≤ time n then countBack left time t m (ctr + 1) (left n) else some (ctr, n)

/-- One turn of the loop that shifts the intervals, whose first one ends with notice `fn`. -/
def shift (s : El) (fi : ℕ) : Option El :=
  let fk := s.ind.key fi
  let fn := s.key.notice fk
  (s.unlinkNotice fn).bind fun s => (s.unlinkKey fk).bind fun s =>
    let s := { s with index := s.ind.right fi }
    -- the next to last element of the index
    (seek s.ind.right (fun i => ((s.ind.right i).bind s.ind.right).isSome) s.cells s.index).bind
    fun i => (s.ind.right i).bind fun last =>
      let next_int := time_t (s.key.time (s.ind.key i) + s.DT)
      (seek s.key.right (fun k => s.key.time k < next_int) s.cells (some (s.ind.key i))).bind
      fun k =>
        (countBack s.notice.left s.notice.time next_int s.cells 1
          (s.notice.left (s.key.notice k))).bind fun (ctr, m) =>
          (s.notice.right m).bind fun n => s.newInterval fi fk fn i last k n ctr next_int

/-- The loop that shifts the intervals up to that of the first event `c`; with two intervals the
first one is made to end later. -/
def shifts : ℕ → El → ℕ → Option El
  | 0, _, _ => none
  | m + 1, s, c =>
    s.index.bind fun fi =>
      let k := s.ind.key fi
      if s.key.time k < s.notice.time c then
        if s.DU = 2 then
          shifts m { s with
            key.time := update s.key.time k (time_t (s.key.time k + s.DT))
            notice.time := update s.notice.time (s.key.notice k)
              (time_t (s.notice.time (s.key.notice k) + s.DT)) } c
        else (s.shift fi).bind fun s => shifts m s c
      else some s

/-- Remove the first event `c`. -/
def removeFirst (s : El) (c : ℕ) : Option El :=
  (s.unlinkNotice c).bind fun s =>
    (seek s.notice.right (fun m => s.notice.key m = none) s.cells (some c)).bind fun m =>
      (s.notice.key m).bind fun k =>
        let s := { s with key.numnote := update s.key.numnote k (s.key.numnote k - 1) }
        (if s.key.numnote k = 0 then s.unlinkKey k else some s).bind fun s =>
          (skip s.notice.right s.notice.isdummy s.cells (s.notice.right c)).map fun fn =>
            { s with current := fn }

/-- `el_first()`; the intervals are shifted at most once for each unit of time. -/
def el_first (s : El) : Option (Option ℕ × El) :=
  match s.index, s.current with
  | some _, some c =>
    (shifts ((INFINITY - s.LB).toNat + 1) s c).bind fun s =>
      (s.removeFirst c).map fun t => (some (s.notice.event c), t)
  | _, _ => some (none, s)

end El

/-! ## Calls -/

inductive Call
  | el_add (event : ℕ) (time id : ℤ)
  | el_remove (id : ℤ) (flag : Bool)
  | el_first
  deriving DecidableEq, Repr

/-- The event list, and what `el_first` has returned. -/
structure Sys where
  el : El
  out : List (Option ℕ)

def Sys.step (s : Sys) : Call → Option Sys
  | .el_add event time id => (s.el.el_add event time id).map fun el => { s with el := el }
  | .el_remove id flag => (s.el.el_remove id flag).map fun el => { s with el := el }
  | .el_first => s.el.el_first.map fun (event, el) => ⟨el, s.out ++ [event]⟩

/-- After `el_init(8, lb, dt, nlim)`. -/
def Sys.start (lb dt nlim : ℤ) : Sys := ⟨El.zero.el_init 8 lb dt nlim, []⟩

/-! ## Queues -/

/-- An event that was added. -/
structure Event where
  time : ℤ
  id : ℤ
  event : ℕ
  deriving DecidableEq, Repr

/-- The events by time, and what was returned. -/
structure Queue where
  events : List Event
  out : List (Option ℕ)

namespace Queue

/-- Behind all events that are not later. -/
def add (e : Event) (q : List Event) : List Event :=
  q.takeWhile (fun x => x.time ≤ e.time) ++ e :: q.dropWhile fun x => x.time ≤ e.time

/-- The first event with the identifier, or all of them. -/
def remove (id : ℤ) (flag : Bool) (q : List Event) : List Event :=
  if flag then q.eraseP fun x => x.id = id else q.filter fun x => x.id ≠ id

def step (q : Queue) : Call → Option Queue
  | .el_add event time id => some { q with events := add ⟨time, id, event⟩ q.events }
  | .el_remove id flag => some { q with events := remove id flag q.events }
  | .el_first => some ⟨q.events.tail, q.out ++ [q.events.head?.map Event.event]⟩

end Queue

end Cmd.Elm
