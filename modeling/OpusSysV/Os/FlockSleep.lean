import OpusSysV.Lib.Run
import OpusSysV.Os.Flock

/-!
# Sleeping lock requests: `sys_reclock` with `SLPFLCK`

A request that is blocked sleeps on the address of the first lock in its way, and its
process enters the list `sleeplcks` with the owner of that lock.  Whoever deletes or
shortens the lock wakes the sleepers, if the flag of the lock says that there are any;
each takes its entry off the list when it runs again, and starts over.  Before it
sleeps, `deadflck` follows the entries to see whether they lead back to the caller.

* `Rec` and `Adj`: locks with their addresses, so that `flckadj` can be followed lock by
  lock; `flckadj_forget` says that without them it is the `flckadj` of `Os.Flock`.
* `LockSys.turn`, a turn of the loop of `sys_reclock`, and `LockSys.step`, any
  interleaving of calls, wakeups and signals.

A process is named by `p_epid` and `p_sysid`.
-/

namespace Os

open Lib Function

/-- A lock of a list, with its address in `flox[]`. -/
structure Rec where
  addr : ℕ
  lock : Filock
  deriving DecidableEq, Repr

/-- What is carried through `flckadj`: the request, `insrtp`, the addresses on the free
list `frlock`, and the addresses woken up. -/
structure Adj where
  ld : Flock
  insrtp : ℕ
  frlock : List ℕ
  woken : List ℕ
  deriving DecidableEq, Repr

namespace Adj

/-- `WAKEUP(ptr)`. -/
def wakeup (sc : Adj) (ptr : Rec) : Adj :=
  if ptr.lock.wakeflg ≠ 0 then { sc with woken := ptr.addr :: sc.woken } else sc

/-- `delflck(lck_list, fl)`, as far as the free list and the sleepers go. -/
def delflck (sc : Adj) (fl : Rec) : Adj :=
  { sc.wakeup fl with frlock := fl.addr :: sc.frlock }

end Adj

namespace Rec

/-- The walks of `flckadj` for the place of a lock. -/
def insertWalk (new : Rec) : List Rec → List Rec
  | [] => [new]
  | f :: rest =>
    if f.lock.set.lStart < new.lock.set.lStart then f :: insertWalk new rest else new :: f :: rest

/-- The insertion of the request, starting from `insrtp`. -/
def insertFrom (new : Rec) : ℕ → List Rec → List Rec
  | 0, l => new :: l
  | _ + 1, [] => [new]
  | 1, f :: rest =>
    if f.lock.set.lStart < new.lock.set.lStart then f :: insertWalk new rest else f :: new :: rest
  | k + 2, f :: rest => f :: insertFrom new (k + 1) rest

/-- What one turn of the scan does, as `Os.Turn`. -/
inductive Turn
  | goOn (kept : Option Rec) (sc : Adj)
  | stop (locks : List Rec) (sc : Adj)
  | ret0
  | enolck

/-- The turn of `flckadj` at a lock `flp` of the caller. -/
def turn (me : Owner) (sc : Adj) (idx : ℕ) (flp : Rec) (rest : List Rec) : Turn :=
  let ld := sc.ld
  let same := ld.lType = flp.lock.set.lType
  let freed := sc.delflck flp
  let td : Flock := { flp.lock.set with lStart := ld.lEnd + 1 }
  let cut : Rec := ⟨flp.addr,
    { flp.lock with set := { flp.lock.set with lEnd := ld.lStart - 1 }, wakeflg := 0 }⟩
  match regflck ld flp.lock with
  | (.before, .before) => .stop (flp :: rest) sc
  | (.before, .start) =>
    if same then .stop rest { freed with ld := { ld with lEnd := flp.lock.set.lEnd } }
    else .stop (flp :: rest) sc
  | (.start, .atEnd) => if same then .ret0 else .goOn none { freed with insrtp := idx }
  | (.start, .after) => .goOn none { freed with insrtp := idx }
  | (.before, .atEnd) => if same then .stop rest freed else .goOn none freed
  | (.before, .after) => .goOn none freed
  | (.start, .middle) =>
    if same then .ret0
    else
      match sc.frlock with
      | [] => .enolck
      | a :: fr =>
        .stop (insertWalk ⟨a, newLock me td⟩ rest)
          { { sc with frlock := fr }.delflck flp with insrtp := idx }
  | (.middle, .middle) =>
    if same then .ret0
    else
      match sc.frlock with
      | [] => .enolck
      | a :: fr =>
        .stop (cut :: insertWalk ⟨a, newLock me td⟩ rest)
          { sc.wakeup flp with frlock := fr, insrtp := idx + 1 }
  | (.before, .middle) =>
    if same then .stop rest { freed with ld := { ld with lEnd := flp.lock.set.lEnd } }
    else
      match sc.frlock with
      | [] => .enolck
      | a :: fr => .stop (insertWalk ⟨a, newLock me td⟩ rest) ({ sc with frlock := fr }.delflck flp)
  | (.middle, .atEnd) =>
    if same then .ret0 else .goOn (some cut) { sc.wakeup flp with insrtp := idx + 1 }
  | (.middle, .after) =>
    if same then
      .goOn none { freed with ld := { ld with lStart := flp.lock.set.lStart }, insrtp := idx }
    else .goOn (some cut) { sc.wakeup flp with insrtp := idx + 1 }
  | (.atEnd, .after) =>
    if same then
      .goOn none { freed with ld := { ld with lStart := flp.lock.set.lStart }, insrtp := idx }
    else .goOn (some flp) sc
  | (.after, .after) => .goOn (some flp) { sc with insrtp := idx + 1 }
  | _ => .goOn (some flp) sc

/-- How the scan ends: the locks from its start on and what it carried, and whether it
fell through, returned 0 or `ENOLCK`. -/
inductive Ended
  | fell
  | ret0
  | enolck
  deriving DecidableEq, Repr

/-- The scan of `flckadj` from a lock on, `idx` locks coming before it. -/
def scan (me : Owner) : Adj → ℕ → List Rec → Ended × List Rec × Adj
  | sc, _, [] => (.fell, [], sc)
  | sc, idx, flp :: rest =>
    if flp.lock.owner = me then
      match turn me sc idx flp rest with
      | .goOn kept sc =>
        let r := scan me sc (idx + kept.toList.length) rest
        (r.1, kept.toList ++ r.2.1, r.2.2)
      | .stop locks sc => (.fell, locks, sc)
      | .ret0 => (.ret0, flp :: rest, sc)
      | .enolck => (.enolck, flp :: rest, sc)
    else
      let r := scan me sc (idx + 1) rest
      (r.1, flp :: r.2.1, r.2.2)

/-- `flckadj(lck_list, insrtp, ld)`: whether it returns 0 (else `ENOLCK`), the list and
what it carried. -/
def flckadj (me : Owner) (frlock : List ℕ) (list : List Rec) (insrtp : ℕ) (ld : Flock) :
    Bool × List Rec × Adj :=
  let front := list.take (insrtp - 1)
  match scan me ⟨ld, insrtp, frlock, []⟩ (insrtp - 1) (list.drop (insrtp - 1)) with
  | (.enolck, locks, sc) => (false, front ++ locks, sc)
  | (.ret0, locks, sc) => (true, front ++ locks, sc)
  | (.fell, locks, sc) =>
    if sc.ld.lType = .unlck then (true, front ++ locks, sc)
    else
      match sc.frlock with
      | [] => (false, front ++ locks, sc)
      | a :: fr =>
        (true, insertFrom ⟨a, newLock me sc.ld⟩ sc.insrtp (front ++ locks), { sc with frlock := fr })

/-- The first loop of `blocked`. -/
def blockedLow (me : Owner) (lckdat : Flock) : ℕ → List Rec → Rec ⊕ (ℕ × List Rec)
  | k, [] => .inr (k, [])
  | k, f :: rest =>
    if f.lock.set.lStart < lckdat.lStart then
      if f.lock.owner = me then
        if lckdat.lStart - 1 ≤ f.lock.set.lEnd then .inr (k + 1, f :: rest)
        else blockedLow me lckdat (k + 1) rest
      else if lckdat.lStart ≤ f.lock.set.lEnd ∧ conflicts f.lock lckdat.lType then .inl f
      else blockedLow me lckdat (k + 1) rest
    else .inr (k, f :: rest)

/-- The second loop of `blocked`. -/
def blockedHigh (me : Owner) (lckdat : Flock) : List Rec → Option Rec
  | [] => none
  | f :: rest =>
    if lckdat.lEnd < f.lock.set.lStart then none
    else if lckdat.lStart ≤ f.lock.set.lEnd ∧ f.lock.owner ≠ me ∧ conflicts f.lock lckdat.lType then
      some f
    else blockedHigh me lckdat rest

/-- `blocked(flp, lckdat, insrt)`: the lock in the way, or `insrt`. -/
def blocked (me : Owner) (list : List Rec) (lckdat : Flock) : Rec ⊕ ℕ :=
  match blockedLow me lckdat 0 list with
  | .inl f => .inl f
  | .inr (insrt, rest) =>
    match blockedHigh me lckdat rest with
    | some f => .inl f
    | none => .inr insrt

end Rec

/-! ## The system -/

/-- An entry of `sleeplcks`: its address, the request, who sleeps, and `stat.blk`. -/
structure Sleeper where
  addr : ℕ
  set : Flock
  owner : Owner
  blk : Owner
  deriving DecidableEq, Repr

/-- A call of `sys_reclock` that went to sleep: the file, the request, whether it is
`SETFLCK`, and its entry of `sleeplcks` while it has one. -/
structure Pending where
  ip : ℕ
  ld : Flock
  setflck : Bool
  sf : Option ℕ
  deriving DecidableEq, Repr

/-- The locks of each file, the free list, the list of sleepers, who sleeps on which
address, and the calls that went to sleep and have not returned. -/
structure LockSys where
  files : ℕ → List Rec
  frlock : List ℕ
  sleeplcks : List Sleeper
  slp : Owner → Option ℕ
  call : Owner → Option Pending

/-- `flckinit()`, with `flckinfo.recs` locks. -/
def LockSys.init (recs : ℕ) : LockSys :=
  ⟨fun _ => [], (List.range recs).reverse, [], fun _ => none, fun _ => none⟩

/-- What `sys_reclock` returns, or that it sleeps; `hangs` when `deadflck` does not end. -/
inductive LockRet
  | ok | EBADF | EINVAL | EAGAIN | EDEADLK | ENOLCK | EBUSY | EINTR | sleeps | hangs
  deriving DecidableEq, Repr

namespace LockSys

/-- `wakeup(chan)` for each of these addresses. -/
def wakeAll (s : LockSys) (woken : List ℕ) : LockSys :=
  { s with slp := fun p => if ∃ a ∈ woken, s.slp p = some a then none else s.slp p }

/-- Store the list of a file, the free list and the wakeups. -/
def store (s : LockSys) (ip : ℕ) (list : List Rec) (sc : Adj) : LockSys :=
  { s with files := update s.files ip list, frlock := sc.frlock }.wakeAll sc.woken

/-- The loop of `deadflck`, with a bound on its turns. -/
def deadflck (s : LockSys) (me : Owner) : ℕ → Owner → Option Bool
  | 0, _ => none
  | n + 1, blck =>
    if blck = me then some true
    else
      match s.sleeplcks.find? fun sf => sf.owner = blck with
      | none => some false
      | some sf => deadflck s me n sf.blk

/-- `retval = flckadj(lock_list, insrt, lckdat)`. -/
def adjust (s : LockSys) (me : Owner) (ip insrt : ℕ) (ld : Flock) : LockRet × LockSys :=
  let r := Rec.flckadj me s.frlock (s.files ip) insrt ld
  (if r.1 then .ok else .ENOLCK, s.store ip r.2.1 r.2.2)

/-- `found->stat.wakeflg++`, an `int`. -/
def bump (list : List Rec) (found : Rec) : List Rec :=
  list.map fun r =>
    if r.addr = found.addr then
      { r with lock := { r.lock with wakeflg := (r.lock.wakeflg + 1) % 2 ^ 32 } }
    else r

/-- "do deadlock detection here", and what follows: the request sleeps on `found`. -/
def wait (s : LockSys) (me : Owner) (ip : ℕ) (ld : Flock) (setflck server : Bool) (found : Rec) :
    LockRet × LockSys :=
  match s.deadflck me (s.sleeplcks.length + 1) found.lock.owner with
  | none => (.hangs, s)
  | some true => (.EDEADLK, s)
  | some false =>
    match s.frlock with
    | [] => (.ENOLCK, s)
    | a :: fr =>
      -- a server takes its entry off again
      if server then (.EBUSY, s)
      else (.sleeps, { s with
        files := update s.files ip (bump (s.files ip) found)
        frlock := fr
        sleeplcks := ⟨a, ld, me, found.lock.owner⟩ :: s.sleeplcks
        slp := update s.slp me (some found.addr)
        call := update s.call me (some ⟨ip, ld, setflck, some a⟩) })

/-- A turn of the loop of `sys_reclock`, up to its return or its `SLEEP`. -/
def turn (s : LockSys) (me : Owner) (ip : ℕ) (ld : Flock) (setflck slpflck server : Bool) :
    LockRet × LockSys :=
  match ld.lType with
  | .invalid => (.EINVAL, s)
  | .unlck =>
    if setflck then s.adjust me ip (if s.files ip = [] then 0 else 1) ld else (.ok, s)
  | _ =>
    match Rec.blocked me (s.files ip) ld with
    | .inr insrt => if setflck then s.adjust me ip insrt ld else (.ok, s)
    | .inl found =>
      if slpflck then s.wait me ip ld setflck server found
      else if setflck then (.EAGAIN, s)
      else (.ok, s)

/-- A call of `sys_reclock`: `cmd` has `SETFLCK` and `SLPFLCK`; a server that runs the
read or write of a client is told not to sleep. -/
def reclock (s : LockSys) (me : Owner) (ip : ℕ) (iSize offset : Long) (fread fwrite : Bool)
    (arg : FlockArg) (setflck slpflck server : Bool) : LockRet × LockSys :=
  if setflck ∧ ((arg.lType = .rdlck ∧ ¬ fread) ∨ (arg.lType = .wrlck ∧ ¬ fwrite)) then (.EBADF, s)
  else
    match lockRange iSize offset arg with
    | none => (.EINVAL, s)
    | some (lStart, lEnd) => s.turn me ip ⟨arg.lType, lStart, lEnd⟩ setflck slpflck server

/-- `delflck(&sleeplcks, sf)` after the `SLEEP`; `stat.blk` has been cleared. -/
def unlinkSleeper (s : LockSys) (sf : ℕ) : LockSys :=
  { s with
    sleeplcks := s.sleeplcks.eraseP fun e => e.addr = sf
    frlock := sf :: s.frlock }

/-- `sys_cleanlocks(ip, flag)`. -/
def cleanlocks (s : LockSys) (me : Owner) (ip : ℕ) (ignPid : Bool) : LockSys :=
  let out := (s.files ip).filter fun r => cleans me ignPid r.lock.owner
  let sc := out.foldl (fun sc r => sc.delflck r) ⟨⟨.unlck, 0, 0⟩, 0, s.frlock, []⟩
  s.store ip ((s.files ip).filter fun r => !cleans me ignPid r.lock.owner) sc

end LockSys

/-- What the processes do.  A process woken up takes its entry off the list when it runs
(`wake`) and goes on when it has the inode again (`retry`); a signal may come before or
after the wakeup. -/
inductive SleepEvent
  | reclock (me : Owner) (ip : ℕ) (iSize offset : Long) (fread fwrite : Bool) (arg : FlockArg)
      (setflck slpflck server : Bool)
  | wake (me : Owner)
  | retry (me : Owner)
  | interrupt (me : Owner)
  | cleanlocks (me : Owner) (ip : ℕ) (ignPid : Bool)

/-- The call of `me` returns, unless it sleeps again. -/
def LockSys.finish (r : LockRet × LockSys) (me : Owner) : LockRet × LockSys :=
  if r.1 = .sleeps then r else (r.1, { r.2 with call := update r.2.call me none })

/-- One event, and what the call returns when it does. -/
def LockSys.run (s : LockSys) : SleepEvent → Option (LockRet × LockSys)
  | .reclock me ip iSize offset fread fwrite arg setflck slpflck server =>
    if s.call me = none then
      some (s.reclock me ip iSize offset fread fwrite arg setflck slpflck server)
    else none
  | .wake me =>
    match s.call me with
    | some ⟨ip, ld, setflck, some sf⟩ =>
      if s.slp me = none then
        some (.sleeps, { s.unlinkSleeper sf with
          call := update s.call me (some ⟨ip, ld, setflck, none⟩) })
      else none
    | _ => none
  | .retry me =>
    match s.call me with
    | some ⟨ip, ld, setflck, none⟩ => some (LockSys.finish (s.turn me ip ld setflck true false) me)
    | _ => none
  | .interrupt me =>
    match s.call me with
    | some ⟨_, _, _, some sf⟩ =>
      some (.EINTR, { s.unlinkSleeper sf with
        slp := update s.slp me none
        call := update s.call me none })
    | _ => none
  | .cleanlocks me ip ignPid => if s.call me = none then some (.ok, s.cleanlocks me ip ignPid) else none

/-- One event. -/
def LockSys.step (s : LockSys) (e : SleepEvent) : Option LockSys := (s.run e).map Prod.snd

end Os
