import OpusSysV.Lib.Run
import OpusSysV.Lib.Word
import OpusSysV.Os.Malloc

/-!
# Message queues: `io/msg.c`

The message headers `msgh[]` are linked on a free list (`msgfp`) or on the queue they
were sent to; the texts lie in segments of a pool that the map `msgmap` hands out.  A
queue is locked (`msglock`) while a process copies to or from user space, and unlocked
while it sleeps for something.

* `msgconv`, `msgfree` — the routines shared by the calls.
* `msgsnd…`, `msgrcv…`, `msgctl…` — the calls, cut at the places where they may sleep.
* `MsgState.run` — one event: a call is made, a process runs on, a signal arrives, a
  queue is created.  What the environment decides (permissions, faults, what is copied
  in) is part of the event.

A queue and a header are their indices, a pointer is an optional index.  A process that
finds a queue locked does not run until the lock is free.  `serial` numbers the messages
in the order they are sent, `delivered` lists those returned to a receiver, and `lost` counts
the warnings "mfree map overflow".
-/

namespace Io

open Lib Function

/-- `struct msginfo`.  `msg_ts` is a `short` and `msg_qnum` a `ushort`; `msgseg` must be below
32768; a map has an entry for its size and one that ends it. -/
structure MsgInfo where
  msgmap : ℕ
  msgmax : ℕ
  msgmnb : ℕ
  msgmni : ℕ
  msgssz : ℕ
  msgtql : ℕ
  msgseg : ℕ
  map_ge : 2 ≤ msgmap
  map_lt : msgmap < Os.wordSize
  max_lt : msgmax < 32768
  mni_pos : 0 < msgmni
  ssz_pos : 0 < msgssz
  tql_pos : 0 < msgtql
  tql_lt : msgtql < 65536
  seg_lt : msgseg < 32768

/-- The values that `config.h` gives. -/
def MsgInfo.config : MsgInfo where
  msgmap := 100
  msgmax := 2048
  msgmnb := 4096
  msgmni := 50
  msgssz := 8
  msgtql := 40
  msgseg := 1024
  map_ge := by decide
  map_lt := by norm_num [Os.wordSize]
  max_lt := by decide
  mni_pos := by decide
  ssz_pos := by decide
  tql_pos := by decide
  tql_lt := by decide
  seg_lt := by decide

/-- `btoq(X)`. -/
def MsgInfo.btoq (cfg : MsgInfo) (x : ℕ) : ℕ := (x + cfg.msgssz - 1) / cfg.msgssz

/-- What a process sleeps on: `qp`, `&qp->msg_qnum`, `&msgfp` and `msgmap`. -/
inductive MsgChan
  | room (qp : ℕ)
  | qnum (qp : ℕ)
  | msgfp
  | msgmap
  deriving DecidableEq, Repr

/-- The arguments of `msgsnd`. -/
structure SndArgs where
  msqid : ℤ
  msgsz : ℤ
  nowait : Bool
  deriving DecidableEq

/-- The arguments of `msgrcv`. -/
structure RcvArgs where
  msqid : ℤ
  msgsz : ℤ
  msgtyp : Long
  noerror : Bool
  nowait : Bool
  deriving DecidableEq

/-- `cmd` of `msgctl`. -/
inductive MsgCmd
  | rmid
  | set
  | stat
  | other
  deriving DecidableEq, Repr

/-- Where a process is.  The places named `…Type`, `…Move` and `ctlCopy` are in a copy, with
the queue `qp` locked; at `getres` and `findmsg` it has not locked the queue, and it may be
there after a sleep on a channel. -/
inductive MsgProc
  | idle
  | sndStart (a : SndArgs)
  | sndType (a : SndArgs) (qp : ℕ)
  | getres (a : SndArgs) (qp : ℕ) (type : ℤ) (slept : Option MsgChan)
  | sndIntr (a : SndArgs) (qp : ℕ) (room : Bool)
  | sndMove (a : SndArgs) (qp : ℕ) (type : ℤ) (mp spot : ℕ)
  | rcvStart (a : RcvArgs)
  | findmsg (a : RcvArgs) (qp : ℕ) (slept : Bool)
  | rcvMove (a : RcvArgs) (qp smp : ℕ) (spmp : Option ℕ)
  | ctlStart (msqid : ℤ) (cmd : MsgCmd)
  | ctlCopy (qp : ℕ) (set : Bool)

/-- The queue identifier at the places before `msgconv`. -/
def MsgProc.conv : MsgProc → Option ℤ
  | .sndStart a => some a.msqid
  | .getres a _ _ _ => some a.msqid
  | .sndIntr a _ _ => some a.msqid
  | .rcvStart a => some a.msqid
  | .findmsg a _ _ => some a.msqid
  | .ctlStart msqid _ => some msqid
  | _ => none

/-- The headers, the queues, the locks, the map and the processes. -/
structure MsgState where
  -- `msgh[]`
  msgNext : ℕ → Option ℕ
  msgType : ℕ → ℤ
  msgTs : ℕ → ℤ
  msgSpot : ℕ → ℤ
  msgfp : Option ℕ
  -- `msgque[]`; `IPC_ALLOC`, `MSG_RWAIT` and `MSG_WWAIT` are bits of `msg_perm.mode`
  ipcAlloc : ℕ → Bool
  msgRwait : ℕ → Bool
  msgWwait : ℕ → Bool
  seq : ℕ → ℕ
  msgFirst : ℕ → Option ℕ
  msgLast : ℕ → Option ℕ
  msgCbytes : ℕ → ℕ
  msgQnum : ℕ → ℕ
  msgQbytes : ℕ → ℕ
  msglock : ℕ → Bool
  msgmap : Os.RMap
  proc : ℕ → MsgProc
  slp : ℕ → Option MsgChan
  serial : ℕ → ℕ
  sent : ℕ
  delivered : List ℕ
  lost : ℕ

/-- What a call returns. -/
inductive MsgRet
  | ok (rval : ℤ)
  | EINVAL | EACCES | EPERM | EFAULT | EIDRM | EAGAIN | EINTR | E2BIG | ENOMSG
  deriving DecidableEq, Repr

namespace MsgState

/-! ## Pieces -/

def setNext (s : MsgState) (mp : ℕ) (x : Option ℕ) : MsgState :=
  { s with msgNext := update s.msgNext mp x }

def setFirst (s : MsgState) (qp : ℕ) (x : Option ℕ) : MsgState :=
  { s with msgFirst := update s.msgFirst qp x }

def setLast (s : MsgState) (qp : ℕ) (x : Option ℕ) : MsgState :=
  { s with msgLast := update s.msgLast qp x }

def setCbytes (s : MsgState) (qp : ℕ) (x : ℤ) : MsgState :=
  { s with msgCbytes := update s.msgCbytes qp (ushort x) }

def setQnum (s : MsgState) (qp : ℕ) (x : ℤ) : MsgState :=
  { s with msgQnum := update s.msgQnum qp (ushort x) }

def setRwait (s : MsgState) (qp : ℕ) (x : Bool) : MsgState :=
  { s with msgRwait := update s.msgRwait qp x }

def setWwait (s : MsgState) (qp : ℕ) (x : Bool) : MsgState :=
  { s with msgWwait := update s.msgWwait qp x }

/-- `*lockp = x`. -/
def setLock (s : MsgState) (qp : ℕ) (x : Bool) : MsgState :=
  { s with msglock := update s.msglock qp x }

def setProc (s : MsgState) (p : ℕ) (x : MsgProc) : MsgState :=
  { s with proc := update s.proc p x }

/-- `wakeup(chan)`, if `b`. -/
def wakeup (s : MsgState) (ch : MsgChan) (b : Bool) : MsgState :=
  { s with slp := fun p => if b ∧ s.slp p = some ch then none else s.slp p }

/-- `sleep(chan, …)`. -/
def sleep (s : MsgState) (p : ℕ) (ch : MsgChan) : MsgState :=
  { s with slp := update s.slp p (some ch) }

/-- What `msgconv` returns, or that it finds the queue locked. -/
inductive Conv
  | busy
  | einval
  | qp (qp : ℕ)

/-- `msgconv(id)`, up to the locking of the queue it returns. -/
def msgconv (cfg : MsgInfo) (s : MsgState) (id : ℤ) : Conv :=
  if id < 0 then .einval
  else
    let qp := id.toNat % cfg.msgmni
    if s.msglock qp then .busy
    else if ¬ s.ipcAlloc qp ∨ id.toNat / cfg.msgmni ≠ s.seq qp then .einval
    else .qp qp

/-- The header is put on the free list. -/
def freeHeader (s : MsgState) (mp : ℕ) : MsgState :=
  { (s.setNext mp s.msgfp).wakeup .msgfp (s.msgfp = none) with msgfp := some mp }

/-- `mfree(msgmap, size, a)`: the map and the sleepers on it, or the warning. -/
def mfree (s : MsgState) (size a : ℕ) : Option MsgState :=
  (Os.mfree s.msgmap size a).map fun r =>
    { s.wakeup .msgmap (r.2 = .freed true) with
      msgmap := r.1
      lost := s.lost + if r.2 = .overflow then 1 else 0 }

/-- The search of `msgfree` for the message before `mp`; `none` is the panic. -/
def findPrev (s : MsgState) (mp : ℕ) : ℕ → Option ℕ → Option ℕ
  | _, none => none
  | 0, _ => none
  | n + 1, some pmp => if s.msgNext pmp = some mp then some pmp else findPrev s mp n (s.msgNext pmp)

/-- A stale `pmp` is computed again. -/
def fixPrev (cfg : MsgInfo) (s : MsgState) (qp : ℕ) (pmp : Option ℕ) (mp : ℕ) :
    Option (Option ℕ) :=
  if (pmp = none ∧ s.msgFirst qp ≠ some mp) ∨ (∃ z, pmp = some z ∧ s.msgNext z ≠ some mp) then
    if s.msgFirst qp = some mp then some none
    else (findPrev s mp cfg.msgtql (s.msgFirst qp)).map some
  else some pmp

/-- `mp` is unlinked from the queue. -/
def unlink (s : MsgState) (qp : ℕ) (pmp : Option ℕ) (mp : ℕ) : MsgState :=
  { s with
    msgFirst := if pmp = none then update s.msgFirst qp (s.msgNext mp) else s.msgFirst
    msgNext :=
      match pmp with
      | none => s.msgNext
      | some z => update s.msgNext z (s.msgNext mp)
    msgLast := if s.msgNext mp = none then update s.msgLast qp pmp else s.msgLast }

/-- `if (mode & MSG_WWAIT) { mode &= ~MSG_WWAIT; wakeup(qp); }` -/
def wakeWriters (s : MsgState) (qp : ℕ) : MsgState :=
  (s.setWwait qp false).wakeup (.room qp) (s.msgWwait qp)

/-- `msgfree(qp, pmp, mp)`. -/
def msgfree (cfg : MsgInfo) (s : MsgState) (qp : ℕ) (pmp : Option ℕ) (mp : ℕ) : Option MsgState :=
  (s.fixPrev cfg qp pmp mp).bind fun pmp =>
    let s := ((s.unlink qp pmp mp).setQnum qp (s.msgQnum qp - 1)).wakeWriters qp
    let freed :=
      if s.msgTs mp ≠ 0 then s.mfree (cfg.btoq (s.msgTs mp).toNat) (s.msgSpot mp + 1).toNat
      else some s
    freed.map fun s => s.freeHeader mp

/-- `while (qp->msg_first) msgfree(qp, NULL, qp->msg_first);` -/
def freeAll (cfg : MsgInfo) (qp : ℕ) : ℕ → MsgState → Option MsgState
  | 0, s => if s.msgFirst qp = none then some s else none
  | n + 1, s =>
    match s.msgFirst qp with
    | none => some s
    | some mp => (s.msgfree cfg qp none mp).bind (freeAll cfg qp n)

/-! ## `msgsnd` -/

/-- The environment of a step: permissions, what is copied in, and whether a copy faults. -/
structure MsgEnv where
  access : Bool
  suser : Bool
  fault : Bool
  type : Long
  qbytes : Fin 65536

/-- Nothing goes wrong, and the message has type 1. -/
def MsgEnv.plain : MsgEnv := ⟨true, false, false, ⟨1, by norm_num⟩, 0⟩

/-- What an event does: what the call returns, if it does, and the next state. -/
abbrev Ran := Option (Option MsgRet × MsgState)

/-- The call of `p` returns, with the lock of `qp` given back. -/
def out (s : MsgState) (p qp : ℕ) (r : MsgRet) : Ran :=
  some (some r, (s.setLock qp false).setProc p .idle)

/-- The call of `p` returns; no lock is held. -/
def ret (s : MsgState) (p : ℕ) (r : MsgRet) : Ran := some (some r, s.setProc p .idle)

/-- The process goes on from a place. -/
def goTo (s : MsgState) (p : ℕ) (x : MsgProc) : Ran := some (none, s.setProc p x)

/-- From the start of `msgsnd` to the copy of the message type. -/
def msgsndStart (cfg : MsgInfo) (s : MsgState) (p : ℕ) (env : MsgEnv) (a : SndArgs) : Ran :=
  match s.msgconv cfg a.msqid with
  | .busy => none
  | .einval => s.ret p .EINVAL
  | .qp qp =>
    if ¬ env.access then s.out p qp .EACCES
    else if a.msgsz < 0 ∨ a.msgsz > cfg.msgmax then s.out p qp .EINVAL
    else (s.setLock qp true).goTo p (.sndType a qp)

/-- The copy of the message type, up to `getres`. -/
def msgsndType (s : MsgState) (p : ℕ) (env : MsgEnv) (a : SndArgs) (qp : ℕ) : Ran :=
  if env.fault then s.out p qp .EFAULT
  else if env.type.1 < 1 then s.out p qp .EINVAL
  else (s.setLock qp false).goTo p (.getres a qp env.type none)

/-- The lock is given back and the process sleeps, to go on at `getres`. -/
def sndSleep (s : MsgState) (p : ℕ) (a : SndArgs) (qp : ℕ) (type : ℤ) (ch : MsgChan) : Ran :=
  ((s.setLock qp false).sleep p ch).goTo p (.getres a qp type (some ch))

/-- From `getres` to the copy of the text. -/
def msgsndGetres (cfg : MsgInfo) (s : MsgState) (p : ℕ) (a : SndArgs) (qp : ℕ) (type : ℤ) : Ran :=
  match s.msgconv cfg a.msqid with
  | .busy => none
  | .einval => s.ret p .EIDRM
  | .qp qp1 =>
    if qp1 ≠ qp then s.out p qp1 .EIDRM
    else if a.msgsz + s.msgCbytes qp > s.msgQbytes qp then
      if a.nowait then s.out p qp .EAGAIN
      else (s.setWwait qp true).sndSleep p a qp type (.room qp)
    else
      match s.msgfp with
      | none => if a.nowait then s.out p qp .EAGAIN else s.sndSleep p a qp type .msgfp
      | some mp =>
        let s := { s with msgfp := s.msgNext mp }
        if a.msgsz = 0 then (s.setLock qp true).goTo p (.sndMove a qp type mp 0)
        else
          match Os.malloc s.msgmap (cfg.btoq a.msgsz.toNat) with
          | none => none
          | some (spot, map) =>
            let s := { s with msgmap := map }
            if spot ≠ 0 then (s.setLock qp true).goTo p (.sndMove a qp type mp spot)
            else if a.nowait then (s.freeHeader mp).out p qp .EAGAIN
            else
              let s := { s with msgmap := { map with mapwant := (map.mapwant + 1) % Os.wordSize } }
              (s.freeHeader mp).sndSleep p a qp type .msgmap

/-- The message is put on the queue. -/
def enqueue (s : MsgState) (qp : ℕ) (cnt type spot : ℤ) (mp : ℕ) : MsgState :=
  let next := update s.msgNext mp none
  { (s.setQnum qp (s.msgQnum qp + 1)).setCbytes qp (s.msgCbytes qp + cnt) with
    msgType := update s.msgType mp type
    msgTs := update s.msgTs mp (short cnt)
    msgSpot := update s.msgSpot mp (short spot)
    msgNext :=
      match s.msgLast qp with
      | none => next
      | some z => update next z (some mp)
    msgFirst := if s.msgLast qp = none then update s.msgFirst qp (some mp) else s.msgFirst
    msgLast := update s.msgLast qp (some mp)
    serial := update s.serial mp s.sent
    sent := s.sent + 1 }

/-- `if (mode & MSG_RWAIT) { mode &= ~MSG_RWAIT; wakeup(&qp->msg_qnum); }` -/
def wakeReaders (s : MsgState) (qp : ℕ) : MsgState :=
  (s.setRwait qp false).wakeup (.qnum qp) (s.msgRwait qp)

/-- The copy of the text, and the rest of `msgsnd`. -/
def msgsndMove (cfg : MsgInfo) (s : MsgState) (p : ℕ) (env : MsgEnv) (a : SndArgs) (qp : ℕ)
    (type : ℤ) (mp spot : ℕ) : Ran :=
  if a.msgsz ≠ 0 ∧ env.fault then
    (s.mfree (cfg.btoq a.msgsz.toNat) spot).bind fun s => (s.freeHeader mp).out p qp .EFAULT
  else
    let s := s.enqueue qp a.msgsz type (if a.msgsz ≠ 0 then (spot : ℤ) - 1 else -1) mp
    (s.wakeReaders qp).out p qp (.ok 0)

/-- After a signal. -/
def msgsndIntr (cfg : MsgInfo) (s : MsgState) (p : ℕ) (a : SndArgs) (qp : ℕ) (room : Bool) : Ran :=
  match s.msgconv cfg a.msqid with
  | .busy => none
  | .einval => s.ret p .EINTR
  | .qp qp1 =>
    if qp1 ≠ qp then s.out p qp1 .EINTR
    else if room then ((s.setWwait qp false).wakeup (.room qp) true).out p qp .EINTR
    else s.out p qp .EINTR

/-! ## `msgrcv` -/

/-- The loop of `msgrcv` from a message `mp` on: `smp` and `spmp` at its end. -/
def search (s : MsgState) (msgtyp : ℤ) :
    ℕ → Option ℕ → Option ℕ → Option ℕ → Option ℕ → Option (Option ℕ × Option ℕ)
  | _, _, none, smp, spmp => some (smp, spmp)
  | 0, _, some _, _, _ => none
  | n + 1, pmp, some mp, smp, spmp =>
    if msgtyp > 0 then
      if msgtyp ≠ s.msgType mp then search s msgtyp n (some mp) (s.msgNext mp) smp spmp
      else some (some mp, pmp)
    else if s.msgType mp ≤ long (-msgtyp) then
      if ∃ best, smp = some best ∧ s.msgType best ≤ s.msgType mp then
        search s msgtyp n (some mp) (s.msgNext mp) smp spmp
      else search s msgtyp n (some mp) (s.msgNext mp) (some mp) pmp
    else search s msgtyp n (some mp) (s.msgNext mp) smp spmp

/-- `smp` and `spmp` for a queue. -/
def select (cfg : MsgInfo) (s : MsgState) (msgtyp : ℤ) (qp : ℕ) : Option (Option ℕ × Option ℕ) :=
  if msgtyp = 0 then some (s.msgFirst qp, none)
  else s.search msgtyp cfg.msgtql none (s.msgFirst qp) none none

/-- From the start of `msgrcv` to `findmsg`. -/
def msgrcvStart (cfg : MsgInfo) (s : MsgState) (p : ℕ) (env : MsgEnv) (a : RcvArgs) : Ran :=
  match s.msgconv cfg a.msqid with
  | .busy => none
  | .einval => s.ret p .EINVAL
  | .qp qp =>
    if ¬ env.access then s.out p qp .EACCES
    else if a.msgsz < 0 then s.out p qp .EINVAL
    else (s.setLock qp false).goTo p (.findmsg a qp false)

/-- From `findmsg` to the copies to the user. -/
def msgrcvFind (cfg : MsgInfo) (s : MsgState) (p : ℕ) (a : RcvArgs) (qp : ℕ) : Ran :=
  match s.msgconv cfg a.msqid with
  | .busy => none
  | .einval => s.ret p .EIDRM
  | .qp qp1 =>
    if qp1 ≠ qp then s.out p qp1 .EIDRM
    else
      match s.select cfg a.msgtyp qp with
      | none => none
      | some (some smp, spmp) =>
        if a.msgsz < s.msgTs smp ∧ ¬ a.noerror then s.out p qp .E2BIG
        else (s.setLock qp true).goTo p (.rcvMove a qp smp spmp)
      | some (none, _) =>
        if a.nowait then s.out p qp .ENOMSG
        else (((s.setRwait qp true).setLock qp false).sleep p (.qnum qp)).goTo p (.findmsg a qp true)

/-- The copies, and the rest of `msgrcv`. -/
def msgrcvMove (cfg : MsgInfo) (s : MsgState) (p : ℕ) (env : MsgEnv) (a : RcvArgs) (qp smp : ℕ)
    (spmp : Option ℕ) : Ran :=
  if env.fault then s.out p qp .EFAULT
  else
    let sz := if a.msgsz < s.msgTs smp then a.msgsz else s.msgTs smp
    let s := s.setCbytes qp (s.msgCbytes qp - s.msgTs smp)
    (s.msgfree cfg qp spmp smp).bind fun t =>
      { t with delivered := s.serial smp :: s.delivered }.out p qp (.ok sz)

/-! ## `msgctl` -/

/-- `IPC_RMID`. -/
def rmid (cfg : MsgInfo) (s : MsgState) (p : ℕ) (msqid : ℤ) (qp : ℕ) : Ran :=
  (freeAll cfg qp cfg.msgtql s).bind fun s =>
    let s := (s.setCbytes qp 0).wakeReaders qp
    -- `mode = 0`
    { s.wakeWriters qp with
      ipcAlloc := update s.ipcAlloc qp false
      seq := update s.seq qp
        (if long (msqid + cfg.msgmni) < 0 then 0 else (s.seq qp + 1) % 65536) }.out p qp (.ok 0)

/-- From the start of `msgctl`; `access` is the check of `uid` or of read permission. -/
def msgctlStart (cfg : MsgInfo) (s : MsgState) (p : ℕ) (env : MsgEnv) (msqid : ℤ) (cmd : MsgCmd) :
    Ran :=
  match s.msgconv cfg msqid with
  | .busy => none
  | .einval => s.ret p .EINVAL
  | .qp qp =>
    match cmd with
    | .rmid => if ¬ env.access then s.out p qp .EPERM else s.rmid cfg p msqid qp
    | .set =>
      if ¬ env.access then s.out p qp .EPERM
      else (s.setLock qp true).goTo p (.ctlCopy qp true)
    | .stat =>
      if ¬ env.access then s.out p qp .EACCES
      else (s.setLock qp true).goTo p (.ctlCopy qp false)
    | .other => s.out p qp .EINVAL

/-- The copy of `IPC_SET` or of `IPC_STAT`, and the rest of `msgctl`. -/
def msgctlCopy (s : MsgState) (p : ℕ) (env : MsgEnv) (qp : ℕ) (set : Bool) : Ran :=
  if env.fault then s.out p qp .EFAULT
  else if ¬ set then s.out p qp (.ok 0)
  else if env.qbytes.1 > s.msgQbytes qp ∧ ¬ env.suser then s.out p qp .EPERM
  else { s with msgQbytes := update s.msgQbytes qp env.qbytes.1 }.out p qp (.ok 0)

/-! ## Events -/

/-- The calls. -/
inductive MsgCall
  | msgsnd (a : SndArgs)
  | msgrcv (a : RcvArgs)
  | msgctl (msqid : ℤ) (cmd : MsgCmd)

/-- Where a call starts. -/
def MsgCall.start : MsgCall → MsgProc
  | .msgsnd a => .sndStart a
  | .msgrcv a => .rcvStart a
  | .msgctl msqid cmd => .ctlStart msqid cmd

/-- What happens next: a call, a process running on, a signal to one that sleeps or to one
that waits for a lock, a new queue. -/
inductive MsgEvent
  | call (p : ℕ) (c : MsgCall)
  | go (p : ℕ) (env : MsgEnv)
  | signal (p : ℕ)
  | lockSignal (p : ℕ)
  | msgget (qp : ℕ)

/-- A process runs on from the place where it is. -/
def go (cfg : MsgInfo) (s : MsgState) (p : ℕ) (env : MsgEnv) : Ran :=
  match s.proc p with
  | .idle => none
  | .sndStart a => s.msgsndStart cfg p env a
  | .sndType a qp => s.msgsndType p env a qp
  | .getres a qp type _ => s.msgsndGetres cfg p a qp type
  | .sndIntr a qp room => s.msgsndIntr cfg p a qp room
  | .sndMove a qp type mp spot => s.msgsndMove cfg p env a qp type mp spot
  | .rcvStart a => s.msgrcvStart cfg p env a
  | .findmsg a qp _ => s.msgrcvFind cfg p a qp
  | .rcvMove a qp smp spmp => s.msgrcvMove cfg p env a qp smp spmp
  | .ctlStart msqid cmd => s.msgctlStart cfg p env msqid cmd
  | .ctlCopy qp set => s.msgctlCopy p env qp set

/-- A signal ends a sleep, also one that a wakeup has ended before the process runs. -/
def signal (s : MsgState) (p : ℕ) : Ran :=
  let s' := { s with slp := update s.slp p none }
  match s.proc p with
  | .getres a qp _ (some (.room _)) => s'.goTo p (.sndIntr a qp true)
  | .getres a qp _ (some _) => s'.goTo p (.sndIntr a qp false)
  | .findmsg _ _ true => s'.ret p .EINTR
  | _ => none

/-- `sleep(lockp, PMSG)` has no `PCATCH`: a signal takes the process out of the call. -/
def lockSignal (cfg : MsgInfo) (s : MsgState) (p : ℕ) : Ran :=
  match (s.proc p).conv.map (s.msgconv cfg) with
  | some .busy => s.ret p .EINTR
  | _ => none

/-- What `msgget` does with an entry that `ipcget` found free. -/
def msgget (cfg : MsgInfo) (s : MsgState) (qp : ℕ) : MsgState :=
  let s := { (s.setRwait qp false).setWwait qp false with
    ipcAlloc := update s.ipcAlloc qp true
    msgQbytes := update s.msgQbytes qp (ushort cfg.msgmnb) }
  ((s.setFirst qp none).setLast qp none).setQnum qp 0

/-- One event. -/
def run (cfg : MsgInfo) (s : MsgState) : MsgEvent → Ran
  | .call p c =>
    match s.proc p with
    | .idle => s.goTo p c.start
    | _ => none
  | .go p env => if s.slp p = none then s.go cfg p env else none
  | .signal p => s.signal p
  | .lockSignal p => if s.slp p = none then s.lockSignal cfg p else none
  | .msgget qp =>
    if qp < cfg.msgmni ∧ ¬ s.ipcAlloc qp then some (none, s.msgget cfg qp) else none

/-- One event. -/
def step (cfg : MsgInfo) (s : MsgState) (e : MsgEvent) : Option MsgState :=
  (s.run cfg e).map Prod.snd

/-- `msginit()`. -/
def init (cfg : MsgInfo) : MsgState where
  msgNext i := if i + 1 < cfg.msgtql then some (i + 1) else none
  msgType _ := 0
  msgTs _ := 0
  msgSpot _ := 0
  msgfp := some 0
  ipcAlloc _ := false
  msgRwait _ := false
  msgWwait _ := false
  seq _ := 0
  msgFirst _ := none
  msgLast _ := none
  msgCbytes _ := 0
  msgQnum _ := 0
  msgQbytes _ := 0
  msglock _ := false
  msgmap :=
    match Os.mfree (Os.mapinit cfg.msgmap) cfg.msgseg 1 with
    | some r => r.1
    | none => Os.mapinit cfg.msgmap
  proc _ := .idle
  slp _ := none
  serial _ := 0
  sent := 0
  delivered := []
  lost := 0

end MsgState

end Io
