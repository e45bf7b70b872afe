import OpusSysV.Lib.Run
import Mathlib

/-!
# Stream ioctls

A process that sends an ioctl down a stream waits twice: until no other ioctl is outstanding, and
until its own is acknowledged.  Both waits end on a wakeup, a signal or a timeout.

* `Pc` — where a process is in `strdoioctl`: between two places where others can run.
* `Sys` — the fields of the stream head that `strdoioctl` uses, the callout table, the processes, and
  what became of the replies.
* `loop1`, `control`, `loop2`, `wake1`, `wake2` — the parts of `strdoioctl`.
* `Event`, `Sys.step` — the turns of processes, the replies and errors that `strrput` gets, the clock.
-/

namespace Io.Ioc

open Function

/-! ## Data -/

def EINTR : ℤ := 4
def ENXIO : ℤ := 6
def EAGAIN : ℤ := 11
def EFAULT : ℤ := 14
def EINVAL : ℤ := 22
def ETIME : ℤ := 62

/-- Unsigned words and shorts. -/
def uint (n : ℕ) : ℕ := n % 2 ^ 32

def ushort (n : ℕ) : ℕ := n % 2 ^ 16

/-- The argument of `I_STR`. -/
structure Strioctl where
  ic_cmd : ℤ
  ic_timout : ℤ
  ic_len : ℤ
  deriving DecidableEq, Repr

/-- What an ioctl message carries. -/
structure Iocblk where
  ioc_cmd : ℤ
  ioc_id : ℕ
  ioc_count : ℤ
  ioc_error : ℤ
  ioc_rval : ℤ
  deriving DecidableEq, Repr

inductive MsgType
  | M_IOCACK
  | M_IOCNAK
  deriving DecidableEq, Repr

/-- A reply at its address. -/
structure Mblk where
  addr : ℕ
  db_type : MsgType
  iocblk : Iocblk
  deriving DecidableEq, Repr

/-- How a call came to its end. -/
inductive How
  /-- before there was a request: its length, its memory or its data -/
  | refused
  | timeout
  | signal
  /-- `STRHUP`, `STRERR` or `STPLEX` -/
  | stream
  | reply (bp : Mblk)
  deriving DecidableEq, Repr

/-- What a call leaves: the error and value for the user, and the length for `I_STR`; `ioc_id` is
the identifier of the request that was sent. -/
structure Ret where
  u_error : ℤ
  u_rval1 : ℤ
  ic_len : ℤ
  ioc_id : Option ℕ
  how : How
  deriving DecidableEq, Repr

/-- The functions on the callout table. -/
inductive Fn
  | str2time
  | str3time
  deriving DecidableEq, Repr

/-- Where a process is.  `asleep` is false from the wakeup on until it runs. -/
inductive Pc
  | none
  /-- gets memory for the request, and copies the data in -/
  | entry (strioc : Strioctl)
  /-- in the loop on `IOCWAIT` -/
  | wait (strioc : Strioctl) (asleep : Bool) (id : ℕ)
  /-- has sent its request -/
  | sent (strioc : Strioctl) (ioc_id : ℕ)
  /-- in the loop on `sd_iocblk` -/
  | reply (strioc : Strioctl) (asleep : Bool) (id : Option ℕ) (ioc_id : ℕ)
  /-- has taken a reply -/
  | got (strioc : Strioctl) (ioc_id : ℕ) (bp : Mblk)
  | ret (r : Ret)
  deriving DecidableEq, Repr

namespace Pc

/-- `wakeup(&stp->sd_iocwait)`. -/
def wake1 : Pc → Pc
  | wait strioc _ id => wait strioc false id
  | x => x

/-- `wakeup(stp)`. -/
def wake2 : Pc → Pc
  | reply strioc _ id ioc_id => reply strioc false id ioc_id
  | x => x

end Pc

/-- The stream head, `ioc_id`, the callout table and the processes.  Replies get the addresses from 0
on, `arrived` of them; `freed` are those given to `freemsg`, and `taken` those that a process took as
its reply. -/
structure Sys where
  IOCWAIT : Bool
  STR2TIME : Bool
  STR3TIME : Bool
  STRHUP : Bool
  STRERR : Bool
  STPLEX : Bool
  sd_error : ℤ
  sd_iocblk : Option Mblk
  sd_iocid : ℕ
  sd_iocwait : ℕ
  strmsgsz : ℤ
  ioc_id : ℕ
  callout : List (ℕ × Fn)
  timeid : ℕ
  pc : ℕ → Pc
  sent : List Iocblk
  arrived : ℕ
  freed : List ℕ
  taken : List (ℕ × ℕ)

namespace Sys

/-- After `stropen`. -/
def start (strmsgsz : ℤ) : Sys :=
  ⟨false, false, false, false, false, false, 0, none, 0, 0, strmsgsz, 0, [], 0, fun _ => .none, [], 0,
    [], []⟩

def wakeup1 (s : Sys) : Sys := { s with pc := fun p => (s.pc p).wake1 }

def wakeup2 (s : Sys) : Sys := { s with pc := fun p => (s.pc p).wake2 }

def timeout (s : Sys) (f : Fn) : ℕ × Sys :=
  (s.timeid, { s with callout := (s.timeid, f) :: s.callout, timeid := s.timeid + 1 })

def untimeout (s : Sys) (id : ℕ) : Sys :=
  { s with callout := s.callout.filter fun x => x.1 ≠ id }

def freemsg (s : Sys) (bp : Mblk) : Sys := { s with freed := bp.addr :: s.freed }

/-- The process returns. -/
def ret (s : Sys) (p : ℕ) (r : Ret) : Sys := { s with pc := update s.pc p (.ret r) }

/-- The error for a stream that is linked or has failed. -/
def error (s : Sys) : ℤ := if s.STPLEX then EINVAL else s.sd_error

/-! ## `strdoioctl` -/

/-- `if (!stp->sd_iocwait) stp->sd_flag &= ~STR2TIME`. -/
def clear2 (s : Sys) : Sys := if s.sd_iocwait = 0 then { s with STR2TIME := false } else s

/-- `stp->sd_iocwait--`. -/
def leave1 (s : Sys) : Sys := { s with sd_iocwait := ushort (s.sd_iocwait + 65535) }

/-- The process gives up in the first loop. -/
def fail1 (s : Sys) (p : ℕ) (strioc : Strioctl) (id : ℕ) (u_error : ℤ) (how : How) : Sys :=
  (s.clear2.untimeout id).ret p ⟨u_error, 0, strioc.ic_len, none, how⟩

/-- A reply that was left is freed. -/
def clearBlk (s : Sys) : Sys :=
  match s.sd_iocblk with
  | some bp => { s.freemsg bp with sd_iocblk := none }
  | none => s

/-- The process has control of the ioctl mechanism, and sends its request. -/
def control (s : Sys) (p : ℕ) (strioc : Strioctl) (id : ℕ) : Sys :=
  let s := (s.untimeout id).clear2.clearBlk
  let i := uint (s.ioc_id + 1)
  { s with
    IOCWAIT := true
    ioc_id := i
    sd_iocid := i
    sent := s.sent ++ [⟨strioc.ic_cmd, i, strioc.ic_len, 0, 0⟩]
    pc := update s.pc p (.sent strioc i) }

/-- The head of the first loop. -/
def loop1 (s : Sys) (p : ℕ) (strioc : Strioctl) (id : ℕ) : Sys :=
  if s.IOCWAIT then
    { s with
      sd_iocwait := ushort (s.sd_iocwait + 1)
      pc := update s.pc p (.wait strioc true id) }
  else s.control p strioc id

/-- Behind the sleep in the first loop; `intr` says that it was ended by a signal. -/
def wake1 (s : Sys) (p : ℕ) (strioc : Strioctl) (id : ℕ) (intr : Bool) : Sys :=
  if intr ∨ s.STR2TIME = false then
    s.leave1.fail1 p strioc id (if s.STR2TIME then EINTR else ETIME)
      (if s.STR2TIME then .signal else .timeout)
  else if s.STRHUP ∨ s.STRERR ∨ s.STPLEX then s.leave1.fail1 p strioc id s.error .stream
  else s.leave1.loop1 p strioc id

/-- From `splstr` on: the first timer, and the first loop. -/
def enter (s : Sys) (p : ℕ) (strioc : Strioctl) : Sys :=
  let (id, s) := { s with STR2TIME := true }.timeout .str2time
  s.loop1 p strioc id

/-- `if (strioc->ic_timout >= 0) untimeout(id)`. -/
def untimeout3 (s : Sys) : Option ℕ → Sys
  | some id => s.untimeout id
  | none => s

/-- The process gives up in the second loop; the next ones may go on. -/
def fail2 (s : Sys) (p : ℕ) (strioc : Strioctl) (id : Option ℕ) (ioc_id : ℕ) (u_error : ℤ)
    (how : How) : Sys :=
  let s := ({ s with STR3TIME := false, IOCWAIT := false }.clearBlk).untimeout3 id
  (s.ret p ⟨u_error, 0, strioc.ic_len, some ioc_id, how⟩).wakeup1

/-- The process takes its reply. -/
def take (s : Sys) (p : ℕ) (strioc : Strioctl) (id : Option ℕ) (ioc_id : ℕ) (bp : Mblk) : Sys :=
  let s := { s with sd_iocblk := none, STR3TIME := false, IOCWAIT := false }.untimeout3 id
  { s with
    pc := update s.pc p (.got strioc ioc_id bp)
    taken := (bp.addr, p) :: s.taken }.wakeup1

/-- The head of the second loop. -/
def loop2 (s : Sys) (p : ℕ) (strioc : Strioctl) (id : Option ℕ) (ioc_id : ℕ) : Sys :=
  match s.sd_iocblk with
  | none =>
    if s.STRERR ∨ s.STPLEX then s.fail2 p strioc id ioc_id s.error .stream
    else { s with pc := update s.pc p (.reply strioc true id ioc_id) }
  | some bp => s.take p strioc id ioc_id bp

/-- Behind the sleep in the second loop. -/
def wake2 (s : Sys) (p : ℕ) (strioc : Strioctl) (id : Option ℕ) (ioc_id : ℕ) (intr : Bool) : Sys :=
  if intr ∨ s.STR3TIME = false then
    s.fail2 p strioc id ioc_id (if s.STR3TIME then EINTR else ETIME)
      (if s.STR3TIME then .signal else .timeout)
  else s.loop2 p strioc id ioc_id

/-- Behind the put procedure: the second timer, and the second loop. -/
def await (s : Sys) (p : ℕ) (strioc : Strioctl) (ioc_id : ℕ) : Sys :=
  if 0 ≤ strioc.ic_timout then
    let (id, s) := s.timeout .str3time
    { s with STR3TIME := true }.loop2 p strioc (some id) ioc_id
  else { s with STR3TIME := true }.loop2 p strioc none ioc_id

/-- What a reply says; `copied` tells whether its data could be copied out. -/
def result (strioc : Strioctl) (ioc_id : ℕ) (bp : Mblk) (copied : Bool) : Ret :=
  let b := bp.iocblk
  match bp.db_type with
  | .M_IOCACK =>
    if b.ioc_error ≠ 0 then ⟨b.ioc_error, 0, strioc.ic_len, some ioc_id, .reply bp⟩
    else if b.ioc_count ≠ 0 ∧ copied = false then
      ⟨EFAULT, b.ioc_rval, strioc.ic_len, some ioc_id, .reply bp⟩
    else ⟨0, b.ioc_rval, b.ioc_count, some ioc_id, .reply bp⟩
  | .M_IOCNAK =>
    ⟨if b.ioc_error ≠ 0 then b.ioc_error else EINVAL, 0, strioc.ic_len, some ioc_id, .reply bp⟩

/-! ## The stream head and the clock -/

/-- `strrput` with `M_IOCACK` or `M_IOCNAK`. -/
def strrput (s : Sys) (db_type : MsgType) (iocblk : Iocblk) : Sys :=
  let bp : Mblk := ⟨s.arrived, db_type, iocblk⟩
  let s := { s with arrived := s.arrived + 1 }
  if s.IOCWAIT = false ∨ s.sd_iocblk.isSome ∨ s.sd_iocid ≠ iocblk.ioc_id then s.freemsg bp
  else { s with sd_iocblk := some bp }.wakeup2

def str2time (s : Sys) : Sys :=
  if s.STR2TIME then { s.wakeup1 with STR2TIME := false } else s

def str3time (s : Sys) : Sys :=
  if s.STR3TIME then { s.wakeup2 with STR3TIME := false } else s

end Sys

/-! ## Interleavings -/

/-- What can go wrong before there is a request. -/
inductive Fault
  /-- `bufcall` fails -/
  | bufcall
  /-- a signal while there is no memory -/
  | signal
  /-- no memory for the data -/
  | allocb
  /-- the data cannot be copied in -/
  | copyin
  deriving DecidableEq, Repr

inductive Event
  | call (p : ℕ) (strioc : Strioctl)
  | fail (p : ℕ) (fault : Fault)
  | enter (p : ℕ)
  /-- a process in one of the loops runs; a signal may have come -/
  | run (p : ℕ) (intr : Bool)
  /-- the put procedure downstream has returned -/
  | await (p : ℕ)
  /-- the reply is copied out and freed -/
  | finish (p : ℕ) (copied : Bool)
  | strrput (db_type : MsgType) (iocblk : Iocblk)
  /-- `M_ERROR` -/
  | error (n : ℤ)
  | hangup
  /-- `I_LINK` and `I_UNLINK` of this stream below a multiplexor -/
  | link
  | unlink
  /-- `munlink` clears `STRERR` -/
  | clearErr
  /-- a timer goes off -/
  | clock (id : ℕ)
  /-- an ioctl on another stream -/
  | other
  deriving DecidableEq, Repr

namespace Sys

def faultRet (strioc : Strioctl) : Fault → Ret
  | .bufcall => ⟨EAGAIN, 0, strioc.ic_len, none, .refused⟩
  | .signal => ⟨EINTR, 0, strioc.ic_len, none, .signal⟩
  | .allocb => ⟨EAGAIN, 0, strioc.ic_len, none, .refused⟩
  | .copyin => ⟨EFAULT, 0, strioc.ic_len, none, .refused⟩

/-- One turn.  From `splstr` to the next sleep nothing else runs; the `wakeup` just behind `splx` is
taken with what is before it. -/
def step (s : Sys) : Event → Option Sys
  | .call p strioc =>
    match s.pc p with
    | .none | .ret _ =>
      if strioc.ic_len < 0 ∨ strioc.ic_len > s.strmsgsz then
        some (s.ret p ⟨EINVAL, 0, strioc.ic_len, none, .refused⟩)
      else some { s with pc := update s.pc p (.entry strioc) }
    | _ => none
  | .fail p fault =>
    match s.pc p with
    | .entry strioc => some (s.ret p (faultRet strioc fault))
    | _ => none
  | .enter p =>
    match s.pc p with
    | .entry strioc => some (s.enter p strioc)
    | _ => none
  | .run p intr =>
    match s.pc p with
    | .wait strioc asleep id => if asleep && !intr then none else some (s.wake1 p strioc id intr)
    | .reply strioc asleep id ioc_id =>
      if asleep && !intr then none else some (s.wake2 p strioc id ioc_id intr)
    | _ => none
  | .await p =>
    match s.pc p with
    | .sent strioc ioc_id => some (s.await p strioc ioc_id)
    | _ => none
  | .finish p copied =>
    match s.pc p with
    | .got strioc ioc_id bp => some ((s.freemsg bp).ret p (result strioc ioc_id bp copied))
    | _ => none
  | .strrput db_type iocblk => if s.STPLEX then none else some (s.strrput db_type iocblk)
  | .error n =>
    if s.STPLEX then none
    else if n = 0 then some s
    else some { s.wakeup2 with STRERR := true, sd_error := n }
  | .hangup => if s.STPLEX then none else some { s.wakeup2 with STRHUP := true, sd_error := ENXIO }
  | .link => some { s.wakeup2 with STPLEX := true }
  | .unlink => some { s with STPLEX := false }
  | .clearErr => some { s with STRERR := false }
  | .clock id =>
    match s.callout.find? fun x => x.1 = id with
    | some (_, .str2time) => some (s.untimeout id).str2time
    | some (_, .str3time) => some (s.untimeout id).str3time
    | none => none
  | .other => some { s with ioc_id := uint (s.ioc_id + 1) }

end Sys

end Io.Ioc
