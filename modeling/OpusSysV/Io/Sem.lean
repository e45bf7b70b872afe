import Mathlib
import OpusSysV.Lib.Word

/-!
# Semaphores: `io/sem.c`

`semop` tries the operations of an array one after the other on the semaphores
themselves.  When one cannot be done it takes back those already done, in reverse
(`semundo`), and fails or goes to sleep on one of the two counters of the
semaphore that stopped it.  With `SEM_UNDO` an operation is also charged to the
adjust-on-exit table of the process (`semaoe`), and taking it back credits it.

The model follows the source routine by routine.  A process is named by its
`p_pid`.  The kernel does not run two of these calls at once: a process gives up
the processor only in `sleep`, so that one event of `SemState.step` is what a
process does up to the next `sleep` or to its return.

`SemState.used` is not in the source: it notes each semaphore `semop` reads or
changes, with the operation that made it do so.
-/

namespace Io

open Lib Function

/-! ## Data -/

/-- The errors set by the semaphore calls. -/
inductive SemErr
  | EACCES | EAGAIN | E2BIG | EFAULT | EFBIG | EIDRM | EINTR | EINVAL | ENOSPC | EPERM | ERANGE
  deriving DecidableEq, Repr

/-- `struct seminfo`: the configured limits.  A semaphore value is an unsigned and an
adjust-on-exit value a signed 16-bit word; as configured `semaem` is 16384. -/
structure SemInfo where
  semmni : ℕ
  semopm : ℕ
  semume : ℕ
  semvmx : ℕ
  semaem : ℕ
  semmni_pos : 0 < semmni
  semvmx_le : semvmx ≤ 65535
  semaem_le : semaem ≤ 16384

/-- `struct sem`. -/
structure Sem where
  semval : ℕ
  sempid : ℕ
  semncnt : ℕ
  semzcnt : ℕ
  deriving DecidableEq, Repr

def IPC_ALLOC : ℕ := 0o100000
def SEM_A : ℕ := 0o200
def SEM_R : ℕ := 0o400

/-- `struct ipc_perm`. -/
structure IpcPerm where
  uid : ℕ
  gid : ℕ
  cuid : ℕ
  cgid : ℕ
  mode : ℕ
  seq : ℕ
  deriving DecidableEq, Repr

/-- `u.u_uid` and `u.u_gid` of the process making a call. -/
structure Cred where
  uid : ℕ
  gid : ℕ
  deriving DecidableEq, Repr

/-- `ipcaccess(p, mode)`, true when permission is granted. -/
def ipcaccess (u : Cred) (p : IpcPerm) (mode : ℕ) : Bool :=
  if u.uid = 0 then true
  else
    let mode :=
      if u.uid ≠ p.uid ∧ u.uid ≠ p.cuid then
        if u.gid ≠ p.gid ∧ u.gid ≠ p.cgid then mode >>> 3 >>> 3 else mode >>> 3
      else mode
    mode &&& p.mode ≠ 0

/-- `struct semid_ds`; the semaphores of the set start at `sem[base]`. -/
structure SemidDs where
  perm : IpcPerm
  base : ℕ
  nsems : ℕ
  deriving DecidableEq, Repr

/-- `struct sembuf`, with the two bits of `sem_flg` that `semop` looks at. -/
structure Sembuf where
  semNum : ℕ
  semOp : ℤ
  semUndo : Bool
  ipcNowait : Bool
  num_lt : semNum < 65536
  op_short : -32768 ≤ semOp ∧ semOp < 32768
  deriving DecidableEq, Repr

/-- The permission `semop` asks for before an operation. -/
def Sembuf.access (op : Sembuf) : ℕ := if op.semOp = 0 then SEM_R else SEM_A

/-- `struct undo`. -/
structure Undo where
  unAoe : ℤ
  unNum : ℤ
  unId : ℤ
  deriving DecidableEq, Repr

/-- What a process sleeps on: the address of a counter of `sem[g]`. -/
inductive Chan
  | semncnt (g : ℕ)
  | semzcnt (g : ℕ)
  deriving DecidableEq, Repr

abbrev Proc := ℕ

/-- A call of `semop` that went to sleep: `uap->semid`, the slot of its set, the
array as it was verified, the array as it was last copied in, and where it sleeps. -/
structure SemCall where
  semid : ℤ
  slot : ℕ
  first : List Sembuf
  ops : List Sembuf
  chan : Chan
  deriving DecidableEq, Repr

/-- A use of a semaphore of a set by `semop`: the operation that names it, the size
of the set, and the array that was verified. -/
structure SemUse where
  op : Sembuf
  nsems : ℕ
  first : List Sembuf
  deriving DecidableEq, Repr

/-- The state of the facility: `sema[]`, `sem[]`, the undo tables (`none` for a null
`sem_undo[]`), the list `semunp` of the processes with undo entries, the number of
tables on `semfup`; who sleeps where; and which calls of `semop` went to sleep. -/
structure SemState where
  sema : ℕ → SemidDs
  sem : ℕ → Sem
  undo : Proc → Option (List Undo)
  semunp : List Proc
  semfup : ℕ
  slp : Proc → Option Chan
  call : Proc → Option SemCall
  used : List SemUse

namespace SemState

/-- Change one semaphore. -/
def onSem (s : SemState) (g : ℕ) (f : Sem → Sem) : SemState :=
  { s with sem := update s.sem g (f (s.sem g)) }

/-- `wakeup(chan)`. -/
def wakeup (s : SemState) (ch : Chan) : SemState :=
  { s with slp := fun p => if s.slp p = some ch then none else s.slp p }

/-- `if (semp->semncnt) { semp->semncnt = 0; wakeup(&semp->semncnt); }` -/
def wakeN (s : SemState) (g : ℕ) : SemState :=
  if (s.sem g).semncnt ≠ 0 then (s.onSem g fun x => { x with semncnt := 0 }).wakeup (.semncnt g)
  else s

/-- `if (semp->semzcnt) { semp->semzcnt = 0; wakeup(&semp->semzcnt); }` -/
def wakeZ (s : SemState) (g : ℕ) : SemState :=
  if (s.sem g).semzcnt ≠ 0 then (s.onSem g fun x => { x with semzcnt := 0 }).wakeup (.semzcnt g)
  else s

/-- `if (semp->semzcnt && !semp->semval)`, and the wakeup. -/
def wakeIfZero (s : SemState) (g : ℕ) : SemState :=
  if (s.sem g).semval = 0 then s.wakeZ g else s

/-- `semp->semval += v`. -/
def addVal (s : SemState) (g : ℕ) (v : ℤ) : SemState :=
  s.onSem g fun x => { x with semval := ushort (x.semval + v) }

/-- Note a use of a semaphore. -/
def use (s : SemState) (slot : ℕ) (first : List Sembuf) (op : Sembuf) : SemState :=
  { s with used := ⟨op, (s.sema slot).nsems, first⟩ :: s.used }

end SemState

/-! ## Adjust-on-exit tables -/

/-- The entry comes before that of semaphore `num` of the set `id`. -/
def Undo.Before (e : Undo) (id num : ℤ) : Prop := e.unId < id ∨ (e.unId = id ∧ e.unNum < num)

instance (e : Undo) (id num : ℤ) : Decidable (e.Before id num) :=
  inferInstanceAs (Decidable (_ ∨ _))

variable (cfg : SemInfo)

/-- The part of `semaoe` on the entries of a table: the search, and the new entry,
the changed one or the one that goes.  `room` says that `un_cnt < semume`. -/
def aoeEntries (room : Bool) (val id num : ℤ) : List Undo → Option SemErr × List Undo
  | [] => if room then (none, [⟨short (-val), num, id⟩]) else (some .EINVAL, [])
  | e :: rest =>
    if e.Before id num then
      ((aoeEntries room val id num rest).1, e :: (aoeEntries room val id num rest).2)
    else if e.unId = id ∧ e.unNum = num then
      if cfg.semaem < short (e.unAoe - val) ∨ short (e.unAoe - val) < -cfg.semaem then
        (some .ERANGE, { e with unAoe := short (short (e.unAoe - val) + val) } :: rest)
      else if short (e.unAoe - val) = 0 then (none, rest)
      else (none, { e with unAoe := short (e.unAoe - val) } :: rest)
    else if room then (none, ⟨short (-val), num, id⟩ :: e :: rest)
    else (some .EINVAL, e :: rest)

/-- Store the entries of a process's table; a table enters the list `semunp` with
its first entry and leaves it with its last. -/
def SemState.setEntries (s : SemState) (p : Proc) (old new : List Undo) : SemState :=
  { s with
    undo := update s.undo p (some new)
    semunp := if old = [] ∧ new ≠ [] then p :: s.semunp
      else if old ≠ [] ∧ new = [] then s.semunp.erase p
      else s.semunp }

/-- `semaoe` for a process that has a table. -/
def aoeUpdate (s : SemState) (p : Proc) (ents : List Undo) (val id num : ℤ) :
    Option SemErr × SemState :=
  let r := aoeEntries cfg (decide (ents.length < cfg.semume)) val id num ents
  (r.1, s.setEntries p ents r.2)

/-- `semaoe(val, id, num)` for the process `p`: the error it sets, if any. -/
def semaoe (s : SemState) (p : Proc) (val id num : ℤ) : Option SemErr × SemState :=
  if val = 0 then (none, s)
  else if cfg.semaem < val ∨ val < -cfg.semaem then (some .ERANGE, s)
  else
    match s.undo p with
    | some ents => aoeUpdate cfg s p ents val id num
    | none =>
      if s.semfup = 0 then (some .ENOSPC, s)
      else aoeUpdate cfg { s with semfup := s.semfup - 1 } p [] val id num

/-- `op->sem_flg & SEM_UNDO && semaoe(op->sem_op, id, op->sem_num)`. -/
def charge (s : SemState) (p : Proc) (id : ℤ) (op : Sembuf) : Option SemErr × SemState :=
  if op.semUndo then semaoe cfg s p op.semOp id (short op.semNum) else (none, s)

/-! ## `semop` -/

/-- What becomes of one operation: it is done, it fails, or it has to wait. -/
inductive Tried
  | did (s : SemState)
  | fails (e : SemErr) (s : SemState)
  | waits (ch : Chan) (s : SemState)

/-- The call whose operations are carried out: the process, `uap->semid`, the slot
of the set and the array that was verified. -/
structure SemCtx where
  p : Proc
  semid : ℤ
  slot : ℕ
  first : List Sembuf

/-- The semaphore of an operation: `sp->sem_base + op->sem_num`. -/
def SemState.semp (s : SemState) (slot : ℕ) (op : Sembuf) : ℕ := (s.sema slot).base + op.semNum

/-- The body of the loop of `semop` up to the point where an operation that cannot be
done makes it undo the others. -/
def tryOp (c : SemCtx) (op : Sembuf) (s : SemState) : Tried :=
  let g := s.semp c.slot op
  let v := (s.sem g).semval
  let s := s.use c.slot c.first op
  if 0 < op.semOp then
    if cfg.semvmx < op.semOp + v then .fails .ERANGE s
    else
      match charge cfg s c.p c.semid op with
      | (some e, s) => .fails e s
      | (none, s) => .did (((s.addVal g op.semOp).wakeN g).wakeIfZero g)
  else if op.semOp < 0 then
    if -op.semOp ≤ v then
      match charge cfg s c.p c.semid op with
      | (some e, s) => .fails e s
      | (none, s) => .did ((s.addVal g op.semOp).wakeIfZero g)
    else .waits (.semncnt g) s
  else if v ≠ 0 then .waits (.semzcnt g) s
  else .did s

/-- One turn of the loop of `semundo`. -/
def undoOp (c : SemCtx) (op : Sembuf) (s : SemState) : SemState :=
  if op.semOp = 0 then s
  else
    let s := (s.use c.slot c.first op).addVal (s.semp c.slot op) (-op.semOp)
    if op.semUndo then (semaoe cfg s c.p (short (-op.semOp)) c.semid (short op.semNum)).2 else s

/-- `semundo`, given the operations that were done, the last one first. -/
def semundo (c : SemCtx) : List Sembuf → SemState → SemState
  | [], s => s
  | op :: done, s => semundo c done (undoOp cfg c op s)

/-- How the loop of `semop` ends. -/
inductive SemopEnd
  | done
  | error (e : SemErr)
  | sleeps (ch : Chan)
  deriving DecidableEq, Repr

/-- The loop of `semop`; `done` are the operations done so far, the last one first. -/
def semopLoop (c : SemCtx) : List Sembuf → List Sembuf → SemState → SemopEnd × SemState
  | _, [], s => (.done, s)
  | done, op :: rest, s =>
    match tryOp cfg c op s with
    | .did s => semopLoop c (op :: done) rest s
    | .fails e s => (.error e, semundo cfg c done s)
    | .waits ch s =>
      (if op.ipcNowait then .error .EAGAIN else .sleeps ch, semundo cfg c done s)

/-- "Update sempid for accessed semaphores." -/
def setPids (c : SemCtx) : List Sembuf → SemState → SemState
  | [], s => s
  | op :: rest, s =>
    setPids c rest ((s.use c.slot c.first op).onSem (s.semp c.slot op) fun x =>
      { x with sempid := c.p })

/-- `semp->semncnt++` or `semp->semzcnt++`. -/
def SemState.addSleeper (s : SemState) : Chan → SemState
  | .semncnt g => s.onSem g fun x => { x with semncnt := x.semncnt + 1 }
  | .semzcnt g => s.onSem g fun x => { x with semzcnt := x.semzcnt + 1 }

/-- `semop` from the label `check` on, with the array `ops` in the holding area, up
to its return or its next `sleep`. -/
def attempt (c : SemCtx) (ops : List Sembuf) (s : SemState) : SemopEnd × SemState :=
  match semopLoop cfg c [] ops s with
  | (.done, s) => (.done, { setPids c ops s with call := update s.call c.p none })
  | (.error e, s) => (.error e, { s with call := update s.call c.p none })
  | (.sleeps ch, s) =>
    (.sleeps ch, { s.addSleeper ch with
      slp := update s.slp c.p (some ch)
      call := update s.call c.p (some ⟨c.semid, c.slot, c.first, ops, ch⟩) })

/-- `semconv(s)`: the slot of the set, if there is such a set. -/
def semconv (s : SemState) (id : ℤ) : Option ℕ :=
  if id < 0 then none
  else
    let slot := (id % cfg.semmni).toNat
    if (s.sema slot).perm.mode &&& IPC_ALLOC = 0 ∨ id / cfg.semmni ≠ (s.sema slot).perm.seq then none
    else some slot

/-- "Verify that sem #s are in range and permissions are granted." -/
def verify (u : Cred) (sp : SemidDs) : List Sembuf → Option SemErr
  | [] => none
  | op :: rest =>
    if ipcaccess u sp.perm op.access = false then some .EACCES
    else if sp.nsems ≤ op.semNum then some .EFBIG
    else verify u sp rest

/-- A new call of `semop`: `ops` is what the copy of the array brings in, `none` when
it faults. -/
def semop (p : Proc) (u : Cred) (id : ℤ) (nsops : ℕ) (ops : Option (List Sembuf)) (s : SemState) :
    SemopEnd × SemState :=
  match semconv cfg s id with
  | none => (.error .EINVAL, s)
  | some slot =>
    if cfg.semopm < nsops then (.error .E2BIG, s)
    else
      match ops with
      | none => (.error .EFAULT, s)
      | some ops =>
        match verify u (s.sema slot) ops with
        | some e => (.error e, s)
        | none => attempt cfg ⟨p, id, slot, ops⟩ ops s

/-- A call of `semop` goes on after its sleep: the set may be gone, and the array is
copied in again. -/
def resume (p : Proc) (c : SemCall) (ops : Option (List Sembuf)) (s : SemState) :
    SemopEnd × SemState :=
  let gone := { s with call := update s.call p none }
  match semconv cfg s c.semid with
  | none => (.error .EIDRM, gone)
  | some _ =>
    match ops with
    | none => (.error .EFAULT, gone)
    | some ops => attempt cfg ⟨p, c.semid, c.slot, c.first⟩ ops s

/-- The counters after a sleep was cut short by a signal:
`if ((semp->semncnt)-- <= 1) { semp->semncnt = 0; wakeup(&semp->semncnt); }`. -/
def SemState.dropSleeper (s : SemState) : Chan → SemState
  | .semncnt g =>
    if (s.sem g).semncnt ≤ 1 then
      (s.onSem g fun x => { x with semncnt := 0 }).wakeup (.semncnt g)
    else s.onSem g fun x => { x with semncnt := x.semncnt - 1 }
  | .semzcnt g =>
    if (s.sem g).semzcnt ≤ 1 then
      (s.onSem g fun x => { x with semzcnt := 0 }).wakeup (.semzcnt g)
    else s.onSem g fun x => { x with semzcnt := x.semzcnt - 1 }

/-- `semop` is interrupted in its sleep, or finds a signal when it wakes up. -/
def interrupt (p : Proc) (c : SemCall) (s : SemState) : SemopEnd × SemState :=
  let s := { s with slp := update s.slp p none, call := update s.call p none }
  (.error .EINTR, s.dropSleeper c.chan)

/-! ## `semctl` and `semexit` -/

/-- The loop of `semunrm` on the entries of one table. -/
def unrmEntries (id : ℤ) (low high : ℕ) : List Undo → List Undo
  | [] => []
  | e :: rest =>
    if id < e.unId then e :: rest
    else if e.unId < id ∨ e.unNum < low then e :: unrmEntries id low high rest
    else if (high : ℤ) < e.unNum then e :: rest
    else unrmEntries id low high rest

/-- `semunrm(id, low, high)`. -/
def semunrm (id : ℤ) (low high : ℕ) (s : SemState) : SemState :=
  let undo := fun p => if p ∈ s.semunp then (s.undo p).map (unrmEntries id low high) else s.undo p
  { s with undo := undo, semunp := s.semunp.filter fun p => undo p ≠ some [] }

/-- Set a value as `SETVAL` and `SETALL` do. -/
def SemState.setVal (s : SemState) (g v : ℕ) (p : Proc) : SemState :=
  let s := s.onSem g fun x => { x with semval := v, sempid := p }
  if v ≠ 0 then s.wakeN g else s.wakeZ g

/-- The loop of `SETALL` from `sem[g]` on. -/
def setAll (p : Proc) : List ℕ → ℕ → SemState → SemState
  | [], _, s => s
  | v :: vals, g, s => setAll p vals (g + 1) (s.setVal g v p)

/-- The loop of `IPC_RMID` over `n` semaphores from `sem[g]` on. -/
def rmAll : ℕ → ℕ → SemState → SemState
  | 0, _, s => s
  | n + 1, g, s =>
    rmAll n (g + 1) (((s.onSem g fun x => { x with semval := 0, sempid := 0 }).wakeN g).wakeZ g)

/-- Set the permission structure of a set. -/
def SemState.setPerm (s : SemState) (slot : ℕ) (perm : IpcPerm) : SemState :=
  { s with sema := update s.sema slot { s.sema slot with perm := perm } }

/-- The commands of `semctl` that change something. -/
inductive SemCmd
  | rmid
  | ipcSet (ds : Option IpcPerm)
  | setval (semnum arg : ℕ)
  | setall (vals : Option (List ℕ))
  deriving DecidableEq, Repr

/-- The checks of a command and what it does to the set in `slot`. -/
def semctlCmd (p : Proc) (u : Cred) (id : ℤ) (slot : ℕ) (s : SemState) :
    SemCmd → Option SemErr × SemState
  | .rmid =>
    let sp := s.sema slot
    if u.uid ≠ sp.perm.uid ∧ u.uid ≠ sp.perm.cuid ∧ u.uid ≠ 0 then (some .EPERM, s)
    else
      let s := rmAll sp.nsems sp.base (semunrm id 0 sp.nsems s)
      let seq := if 2 ^ 31 ≤ id + cfg.semmni then 0 else (sp.perm.seq + 1) % 65536
      (none, s.setPerm slot { sp.perm with mode := 0, seq := seq })
  | .ipcSet ds =>
    let sp := s.sema slot
    if u.uid ≠ sp.perm.uid ∧ u.uid ≠ sp.perm.cuid ∧ u.uid ≠ 0 then (some .EPERM, s)
    else
      match ds with
      | none => (some .EFAULT, s)
      | some ds =>
        let mode := (ds.mode &&& 0o777) ||| IPC_ALLOC
        (none, s.setPerm slot { sp.perm with uid := ds.uid, gid := ds.gid, mode := mode })
  | .setval semnum arg =>
    let sp := s.sema slot
    if ipcaccess u sp.perm SEM_A = false then (some .EACCES, s)
    else if sp.nsems ≤ semnum then (some .EINVAL, s)
    else if cfg.semvmx < arg then (some .ERANGE, s)
    else (none, semunrm id semnum semnum (s.setVal (sp.base + semnum) arg p))
  | .setall vals =>
    let sp := s.sema slot
    if ipcaccess u sp.perm SEM_A = false then (some .EACCES, s)
    else
      match vals with
      | none => (some .EFAULT, s)
      | some vals =>
        if ∃ v ∈ vals, cfg.semvmx < v then (some .ERANGE, s)
        else (none, setAll p vals sp.base (semunrm id 0 sp.nsems s))

/-- `semctl`. -/
def semctl (p : Proc) (u : Cred) (id : ℤ) (cmd : SemCmd) (s : SemState) : Option SemErr × SemState :=
  match semconv cfg s id with
  | none => (some .EINVAL, s)
  | some slot => semctlCmd cfg p u id slot s cmd

/-- One turn of the loop of `semexit`: the adjustment of an undo entry is applied. -/
def exitEntry (e : Undo) (s : SemState) : SemState :=
  match semconv cfg s e.unId with
  | none => s
  | some slot =>
    let g := ((s.sema slot).base + e.unNum).toNat
    let v := (s.sem g).semval + e.unAoe
    if v < 0 ∨ cfg.semvmx < v then s
    else
      let s := s.onSem g fun x => { x with semval := ushort v }
      let s := if v = 0 then s.wakeZ g else s
      if 0 < e.unAoe then s.wakeN g else s

/-- The loop of `semexit`, given the entries from the last one on. -/
def exitEntries : List Undo → SemState → SemState
  | [], s => s
  | e :: rest, s => exitEntries rest (exitEntry cfg e s)

/-- `semexit` for the process `p`. -/
def semexit (p : Proc) (s : SemState) : SemState :=
  match s.undo p with
  | none => s
  | some ents =>
    let t := if ents = [] then s
      else { exitEntries cfg ents.reverse s with semunp := s.semunp.erase p }
    { t with semfup := t.semfup + 1, undo := update t.undo p none }

/-! ## The system -/

/-- What the processes do.  Arrays and values copied in from user space are part of
the event (`none` is a fault): another process sharing the memory may have changed
them. -/
inductive SemEvent
  | semop (p : Proc) (u : Cred) (id : ℤ) (nsops : ℕ) (ops : Option (List Sembuf))
  | resume (p : Proc) (ops : Option (List Sembuf))
  | interrupt (p : Proc)
  | semctl (p : Proc) (u : Cred) (id : ℤ) (cmd : SemCmd)
  | semexit (p : Proc)
  deriving DecidableEq, Repr

/-- One event.  A process that called `semop` and sleeps does nothing else until it is
woken up (`resume`) or interrupted. -/
def SemState.step (s : SemState) : SemEvent → Option SemState
  | .semop p u id nsops ops =>
    if s.call p = none ∧ ∀ l ∈ ops, l.length = nsops then some (Io.semop cfg p u id nsops ops s).2
    else none
  | .resume p ops =>
    match s.call p with
    | none => none
    | some c =>
      if s.slp p = none ∧ ∀ l ∈ ops, l.length = c.ops.length then some (Io.resume cfg p c ops s).2
      else none
  | .interrupt p => (s.call p).map fun c => (Io.interrupt p c s).2
  | .semctl p u id cmd =>
    if s.call p = none then some (Io.semctl cfg p u id cmd s).2 else none
  | .semexit p => if s.call p = none then some (Io.semexit cfg p s) else none

end Io
