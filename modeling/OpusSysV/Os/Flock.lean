import Mathlib
import OpusSysV.Lib.Word

/-!
# Record locks: `os/flock.c`

The record locks of a file are a list ordered by starting position.  A call of
`sys_reclock` that sets or removes a lock asks `blocked` whether another owner's
lock is in the way and where updating has to begin, and `flckadj` then adjusts the
list in one scan: it releases what the request overlays, takes same-type locks it
overlays or adjoins into the request, and inserts the request at the end.

The list is modelled as a Lean list; a pointer into it (`insrtp`) is the number of
locks up to and including the one pointed to, zero for `NULL`.  Locks are taken from
and returned to the free list `frlock`, which all files share: its length is an
argument of the call.
-/

namespace Os

open Lib

/-- `l_type`; anything but the three lock types is `invalid`. -/
inductive LockType
  | rdlck
  | wrlck
  | unlck
  | invalid
  deriving DecidableEq, Repr

/-- `l_pid` and `l_sysid`. -/
structure Owner where
  pid : ℤ
  sysid : ℤ
  deriving DecidableEq, Repr

/-- `MAXEND`. -/
def MAXEND : ℤ := 0o17777777777

/-- The lock asked for, with `l_end` in place of `l_len`. -/
structure Flock where
  lType : LockType
  lStart : ℤ
  lEnd : ℤ
  deriving DecidableEq, Repr

/-- `struct filock`: a lock of the list, with the sleepers' flag. -/
structure Filock where
  set : Flock
  owner : Owner
  wakeflg : ℕ
  deriving DecidableEq, Repr

/-! ## Regions -/

/-- Where the request starts or ends relative to an existing lock. -/
inductive Region
  | before
  | start
  | middle
  | atEnd
  | after
  deriving DecidableEq, Repr

/-- The end type computed by `regflck`. -/
def regflckEnd (ld : Flock) (flp : Filock) : Region :=
  if ld.lEnd < flp.set.lEnd then
    if ld.lEnd = flp.set.lStart - 1 then .start
    else if ld.lEnd < flp.set.lStart then .before
    else .middle
  else if ld.lEnd = flp.set.lEnd then .atEnd
  else .after

/-- `regflck(ld, flp)`. -/
def regflck (ld : Flock) (flp : Filock) : Region × Region :=
  if ld.lStart > flp.set.lStart then
    if ld.lStart - 1 = flp.set.lEnd then (.atEnd, .after)
    else if ld.lStart > flp.set.lEnd then (.after, .after)
    else (.middle, regflckEnd ld flp)
  else if ld.lStart = flp.set.lStart then (.start, regflckEnd ld flp)
  else (.before, regflckEnd ld flp)

/-! ## `flckadj` -/

/-- `new->set = *lckdat` with the owner, as `insflck` fills in a lock. -/
def newLock (me : Owner) (lckdat : Flock) : Filock := ⟨lckdat, me, 0⟩

/-- The walks of `flckadj` for the place of a lock: past the locks that start before it. -/
def insertWalk (new : Filock) : List Filock → List Filock
  | [] => [new]
  | f :: rest =>
    if f.set.lStart < new.set.lStart then f :: insertWalk new rest else new :: f :: rest

/-- The insertion of the request, starting from `insrtp`. -/
def insertFrom (new : Filock) : ℕ → List Filock → List Filock
  | 0, l => new :: l
  | _ + 1, [] => [new]
  | 1, f :: rest =>
    if f.set.lStart < new.set.lStart then f :: insertWalk new rest else f :: new :: rest
  | k + 2, f :: rest => f :: insertFrom new (k + 1) rest

/-- What is carried through the scan of `flckadj`: the request, `insrtp`, and the number
of locks on `frlock`. -/
structure Scan where
  ld : Flock
  insrtp : ℕ
  frlock : ℕ
  deriving DecidableEq, Repr

/-- What one turn of the scan does with the lock `flp`: go on, with `flp` kept as it is
then or deleted; stop, with the locks that take the place of `flp` and the rest; or
return from `flckadj`. -/
inductive Turn
  | goOn (kept : Option Filock) (sc : Scan)
  | stop (locks : List Filock) (sc : Scan)
  | ret0
  | enolck
  deriving DecidableEq, Repr

/-- The turn of `flckadj` at a lock `flp` of the caller; `idx` locks come before it and
`rest` after it. -/
def turn (me : Owner) (sc : Scan) (idx : ℕ) (flp : Filock) (rest : List Filock) : Turn :=
  let ld := sc.ld
  let same := ld.lType = flp.set.lType
  -- `delflck(lck_list, flp)` puts the lock on `frlock`
  let freed := { sc with frlock := sc.frlock + 1 }
  -- the piece after the end of the request
  let td : Flock := { flp.set with lStart := ld.lEnd + 1 }
  -- the piece before the request, after `WAKEUP(flp)`
  let cut : Filock := { flp with set := { flp.set with lEnd := ld.lStart - 1 }, wakeflg := 0 }
  match regflck ld flp with
  | (.before, .before) => .stop (flp :: rest) sc
  | (.before, .start) =>
    if same then .stop rest { freed with ld := { ld with lEnd := flp.set.lEnd } }
    else .stop (flp :: rest) sc
  | (.start, .atEnd) => if same then .ret0 else .goOn none { freed with insrtp := idx }
  | (.start, .after) => .goOn none { freed with insrtp := idx }
  | (.before, .atEnd) => if same then .stop rest freed else .goOn none freed
  | (.before, .after) => .goOn none freed
  | (.start, .middle) =>
    if same then .ret0
    else if sc.frlock = 0 then .enolck
    else .stop (insertWalk (newLock me td) rest) { sc with insrtp := idx }
  | (.middle, .middle) =>
    if same then .ret0
    else if sc.frlock = 0 then .enolck
    else .stop (cut :: insertWalk (newLock me td) rest)
      { sc with frlock := sc.frlock - 1, insrtp := idx + 1 }
  | (.before, .middle) =>
    if same then .stop rest { freed with ld := { ld with lEnd := flp.set.lEnd } }
    else if sc.frlock = 0 then .enolck
    else .stop (insertWalk (newLock me td) rest) sc
  | (.middle, .atEnd) =>
    if same then .ret0 else .goOn (some cut) { sc with insrtp := idx + 1 }
  | (.middle, .after) =>
    if same then .goOn none { freed with ld := { ld with lStart := flp.set.lStart }, insrtp := idx }
    else .goOn (some cut) { sc with insrtp := idx + 1 }
  | (.atEnd, .after) =>
    if same then .goOn none { freed with ld := { ld with lStart := flp.set.lStart }, insrtp := idx }
    else .goOn (some flp) sc
  | (.after, .after) => .goOn (some flp) { sc with insrtp := idx + 1 }
  | _ => .goOn (some flp) sc

/-- How the scan ends: with the locks from its start on and what it carried, by a return
0 in the middle with those locks, or by `ENOLCK`, which leaves the list half done. -/
inductive Scanned
  | fell (locks : List Filock) (sc : Scan)
  | ret0 (locks : List Filock)
  | enolck
  deriving DecidableEq, Repr

/-- Put the locks in front that the scan has passed. -/
def Scanned.push (kept : List Filock) : Scanned → Scanned
  | .fell locks sc => .fell (kept ++ locks) sc
  | .ret0 locks => .ret0 (kept ++ locks)
  | .enolck => .enolck

/-- The scan of `flckadj` from a lock on, `idx` locks coming before it. -/
def scan (me : Owner) : Scan → ℕ → List Filock → Scanned
  | sc, _, [] => .fell [] sc
  | sc, idx, flp :: rest =>
    if flp.owner = me then
      match turn me sc idx flp rest with
      | .goOn kept sc => (scan me sc (idx + kept.toList.length) rest).push kept.toList
      | .stop locks sc => .fell locks sc
      | .ret0 => .ret0 (flp :: rest)
      | .enolck => .enolck
    else (scan me sc (idx + 1) rest).push [flp]

/-- `flckadj(lck_list, insrtp, ld)`: the new list, or `none` for `ENOLCK`. -/
def flckadj (me : Owner) (frlock : ℕ) (list : List Filock) (insrtp : ℕ) (ld : Flock) :
    Option (List Filock) :=
  let front := list.take (insrtp - 1)
  match scan me ⟨ld, insrtp, frlock⟩ (insrtp - 1) (list.drop (insrtp - 1)) with
  | .enolck => none
  | .ret0 locks => some (front ++ locks)
  | .fell locks sc =>
    if sc.ld.lType = .unlck then some (front ++ locks)
    else if sc.frlock = 0 then none
    else some (insertFrom (newLock me sc.ld) sc.insrtp (front ++ locks))

/-! ## `blocked` -/

/-- Whether a lock of another owner is in the way of a request of type `lType`. -/
def conflicts (f : Filock) (lType : LockType) : Bool :=
  f.set.lType = .wrlck ∨ (f.set.lType = .rdlck ∧ lType = .wrlck)

/-- The first loop of `blocked`, which has passed `k` locks: the lock in the way, or the
new `insrt` and the locks left. -/
def blockedLow (me : Owner) (lckdat : Flock) : ℕ → List Filock → Filock ⊕ (ℕ × List Filock)
  | k, [] => .inr (k, [])
  | k, f :: rest =>
    if f.set.lStart < lckdat.lStart then
      if f.owner = me then
        if lckdat.lStart - 1 ≤ f.set.lEnd then .inr (k + 1, f :: rest)
        else blockedLow me lckdat (k + 1) rest
      else if lckdat.lStart ≤ f.set.lEnd ∧ conflicts f lckdat.lType then .inl f
      else blockedLow me lckdat (k + 1) rest
    else .inr (k, f :: rest)

/-- The second loop of `blocked`. -/
def blockedHigh (me : Owner) (lckdat : Flock) : List Filock → Option Filock
  | [] => none
  | f :: rest =>
    if lckdat.lEnd < f.set.lStart then none
    else if lckdat.lStart ≤ f.set.lEnd ∧ f.owner ≠ me ∧ conflicts f lckdat.lType then some f
    else blockedHigh me lckdat rest

/-- `blocked(flp, lckdat, insrt)`: the lock in the way, or `insrt`. -/
def blocked (me : Owner) (list : List Filock) (lckdat : Flock) : Filock ⊕ ℕ :=
  match blockedLow me lckdat 0 list with
  | .inl f => .inl f
  | .inr (insrt, rest) =>
    match blockedHigh me lckdat rest with
    | some f => .inl f
    | none => .inr insrt

/-! ## `sys_reclock` and `sys_cleanlocks` -/

/-- `struct flock` as the caller passes it. -/
structure FlockArg where
  lType : LockType
  lWhence : ℤ
  lStart : Long
  lLen : Long
  deriving DecidableEq, Repr

/-- The first part of `sys_reclock`: `convoff` to the beginning of the file, and `l_end`
from `l_len`; `none` for `EINVAL`. -/
def lockRange (iSize offset : Long) (arg : FlockArg) : Option (ℤ × ℤ) :=
  let lStart : ℤ :=
    if arg.lWhence = 1 then long (arg.lStart + offset)
    else if arg.lWhence = 2 then long (arg.lStart + iSize)
    else arg.lStart
  let lEnd := if arg.lLen.1 = 0 then MAXEND else long (arg.lLen + (lStart - 1))
  if ¬ (arg.lWhence = 0 ∨ arg.lWhence = 1 ∨ arg.lWhence = 2) then none
  else if lStart < 0 then none
  else if arg.lLen.1 < 0 then none
  else if lStart > lEnd then none
  else some (lStart, lEnd)

/-- What a call comes with besides its argument: the caller, the size of the file, its
offset, the open modes `FREAD` and `FWRITE`, and the locks left on `frlock`. -/
structure LockCall where
  me : Owner
  iSize : Long
  offset : Long
  fread : Bool
  fwrite : Bool
  frlock : ℕ
  deriving DecidableEq, Repr

/-- `sys_reclock` with `SETFLCK`, when it returns 0: the new list.  With `SLPFLCK` a call
that is blocked sleeps and starts again with the same request, so that it returns 0 by
a last turn like this one. -/
def reclock (c : LockCall) (arg : FlockArg) (list : List Filock) : Option (List Filock) :=
  if (arg.lType = .rdlck ∧ ¬ c.fread) ∨ (arg.lType = .wrlck ∧ ¬ c.fwrite) then none
  else
    match lockRange c.iSize c.offset arg with
    | none => none
    | some (lStart, lEnd) =>
      let lckdat : Flock := ⟨arg.lType, lStart, lEnd⟩
      match arg.lType with
      | .invalid => none
      | .unlck => flckadj c.me c.frlock list (if list = [] then 0 else 1) lckdat
      | _ =>
        match blocked c.me list lckdat with
        | .inl _ => none
        | .inr insrt => flckadj c.me c.frlock list insrt lckdat

/-- Whether `sys_cleanlocks` by `me` deletes the locks of `o`. -/
def cleans (me : Owner) (ignPid : Bool) (o : Owner) : Bool :=
  (o.pid = me.pid ∨ ignPid) ∧ o.sysid = me.sysid

/-- `sys_cleanlocks(ip, flag)`, with `IGN_PID` or `USE_PID`. -/
def cleanlocks (me : Owner) (ignPid : Bool) (list : List Filock) : List Filock :=
  list.filter fun f => !cleans me ignPid f.owner

/-- The calls on the locks of one file that succeed. -/
inductive LockEvent
  | reclock (c : LockCall) (arg : FlockArg)
  | cleanlocks (me : Owner) (ignPid : Bool)
  deriving DecidableEq, Repr

/-- One call. -/
def lockStep (list : List Filock) : LockEvent → Option (List Filock)
  | .reclock c arg => reclock c arg list
  | .cleanlocks me ignPid => some (cleanlocks me ignPid list)

end Os
