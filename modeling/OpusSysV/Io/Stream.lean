import Mathlib

/-!
# STREAMS queues: the message queue routines of `io/stream.c`

One direction of a stream is a row of queues; queue `i + 1` is the `q_next` of
queue `i` and queue `i` the `backq` of queue `i + 1`.  Messages wait on a queue
in two priority classes, weighted into the 16-bit counter `q_count`.

Flow control between the queues lives in the flag bits: a queue whose count
reaches `q_hiwat` is `QFULL`; `canput` on a full queue fails and leaves `QWANTW`
behind; the routines that take messages off (`getq`, `rmvq`, `flushq`) enable the
nearest back queue with a service procedure when the count is down to `q_lowat`.

* `Queue` and the queue halves of the routines;
* `Stream`, with the run list `qhead`, and the routines on it;
* `Call` and `Stream.step`, any sequence of calls on any queues of the stream.

`Stream.log` is not in the source: it notes which `canput` calls failed on which
queue and which queue enabled its back queue, in order, for statements about both.
-/

namespace Io

/-! ## Messages -/

/-- There are classes of data blocks. -/
instance neZero_classes : NeZero 12 := ⟨by decide⟩

/-- A message block: the fields of its data block that the queue routines read. -/
structure Mblk where
  dbType : ℕ
  dbClass : Fin 12
  deriving DecidableEq, Repr

/-- A message: a block and those on its `b_cont` chain. -/
structure Msg where
  bp : Mblk
  cont : List Mblk
  deriving DecidableEq, Repr

/-- The weight of a block of each class. -/
def bsize : Fin 12 → UInt16 := ![4, 16, 64, 100, 200, 300, 600, 1200, 2400, 4800, 9600, 19200]

def QNORM : ℕ := 0
def QPCTL : ℕ := 0o200

def M_DATA : ℕ := 0o0
def M_PROTO : ℕ := 0o1
def M_PCPROTO : ℕ := 0o203

/-- `queclass(bp)`: the priority class of a message. -/
def queclass (m : Msg) : ℕ := m.bp.dbType &&& QPCTL

/-- `datamsg(type)`. -/
def datamsg (type : ℕ) : Bool := type = M_DATA ∨ type = M_PROTO ∨ type = M_PCPROTO

/-- `for (tmp = bp; tmp; tmp = tmp->b_cont) q->q_count += bsize[…]`. -/
def addWeight (count : UInt16) (m : Msg) : UInt16 :=
  (m.bp :: m.cont).foldl (fun c b => c + bsize b.dbClass) count

/-- `for (tmp = bp; tmp; tmp = tmp->b_cont) q->q_count -= bsize[…]`. -/
def subWeight (count : UInt16) (m : Msg) : UInt16 :=
  (m.bp :: m.cont).foldl (fun c b => c - bsize b.dbClass) count

/-! ## One queue -/

/-- `struct queue`: the messages from `q_first` to `q_last`, the weighted count and
the water marks, whether the queue has a service procedure, and its flags. -/
structure Queue where
  msgs : List Msg
  count : UInt16
  hiwat : UInt16
  lowat : UInt16
  srvp : Bool
  qenab : Bool
  qwantr : Bool
  qwantw : Bool
  qfull : Bool
  qnoenb : Bool
  deriving DecidableEq, Repr

namespace Queue

/-- The end of `putq`, `putbq` and `insq`: add the weight, mark the queue full. -/
def weighIn (q : Queue) (m : Msg) : Queue :=
  let count := addWeight q.count m
  { q with count := count, qfull := q.qfull || decide (q.hiwat ≤ count) }

/-- The weight of a message taken off by `getq` or `rmvq`. -/
def weighOut (q : Queue) (m : Msg) : Queue :=
  let count := subWeight q.count m
  { q with count := count, qfull := q.qfull && !decide (count < q.hiwat) }

/-- `canenable(q) && (q->q_flag & QWANTR)`. -/
def wakes (q : Queue) : Bool := !q.qnoenb && q.qwantr

end Queue

/-- The search loop of `putq`: in front of the first message of a lower class.  The
last message is of a lower class whenever the loop is entered. -/
def putqWalk (m : Msg) : List Msg → List Msg
  | [] => [m]
  | nbp :: rest =>
    if queclass m ≤ queclass nbp then nbp :: putqWalk m rest else m :: nbp :: rest

/-- Where `putq` puts a message. -/
def putqPlace (m : Msg) (msgs : List Msg) : List Msg :=
  match msgs.getLast? with
  | none => [m]
  | some last => if queclass m ≤ queclass last then msgs ++ [m] else putqWalk m msgs

/-- The search loop of `putbq`: past the messages of a higher class. -/
def putbqWalk (m : Msg) : List Msg → List Msg
  | [] => [m]
  | [nbp] => [nbp, m]
  | nbp :: e :: rest =>
    if queclass m < queclass e then nbp :: putbqWalk m (e :: rest) else nbp :: m :: e :: rest

/-- Where `putbq` puts a message. -/
def putbqPlace (m : Msg) (msgs : List Msg) : List Msg :=
  match msgs with
  | [] => [m]
  | first :: rest =>
    if queclass first ≤ queclass m then m :: first :: rest else putbqWalk m (first :: rest)

/-- Where `insq` puts a message: before the message at position `emp`, or at the end. -/
def insqPlace (emp : Option ℕ) (m : Msg) (msgs : List Msg) : List Msg :=
  match emp with
  | none => msgs ++ [m]
  | some k => msgs.insertIdx k m

/-! ## A stream -/

/-- Entries of the log: a `canput` that failed on a queue, and a queue that enabled
its back queue. -/
inductive Note
  | refused (i : ℕ)
  | enabledBack (i j : ℕ)
  deriving DecidableEq, Repr

/-- One direction of a stream: `num` queues, the run list of enabled queues, and the
log, latest entry first. -/
structure Stream where
  num : ℕ
  queue : ℕ → Queue
  qhead : List ℕ
  log : List Note

namespace Stream

/-- Change one queue. -/
def onQueue (s : Stream) (i : ℕ) (f : Queue → Queue) : Stream :=
  { s with queue := Function.update s.queue i (f (s.queue i)) }

/-- Write an entry of the log. -/
def note (s : Stream) (n : Note) : Stream := { s with log := n :: s.log }

/-- `qenable(q)`. -/
def qenable (s : Stream) (i : ℕ) : Stream :=
  if (s.queue i).srvp ∧ ¬ (s.queue i).qenab then
    { s.onQueue i fun q => { q with qenab := true } with qhead := s.qhead ++ [i] }
  else s

/-- `for (q = backq(q); q && !q->q_qinfo->qi_srvp; q = backq(q));` -/
def backSrv (srvp : ℕ → Bool) : ℕ → Option ℕ
  | 0 => none
  | i + 1 => if srvp i then some i else backSrv srvp i

/-- The nearest back queue of `i` with a service procedure. -/
def back (s : Stream) (i : ℕ) : Option ℕ := backSrv (fun j => (s.queue j).srvp) i

/-- "find nearest back queue with service proc", `if (q) qenable(q)`. -/
def enableBack (s : Stream) (i : ℕ) : Stream :=
  match s.back i with
  | none => s
  | some j => (s.qenable j).note (.enabledBack i j)

/-- The end of `getq` and `rmvq`: a writer is waiting and the count is low enough. -/
def drained (s : Stream) (i : ℕ) : Stream :=
  if (s.queue i).count ≤ (s.queue i).lowat ∧ (s.queue i).qwantw then
    (s.onQueue i fun q => { q with qwantw := false }).enableBack i
  else s

/-- `getq(q)`. -/
def getq (s : Stream) (i : ℕ) : Option Msg × Stream :=
  match (s.queue i).msgs with
  | [] => (none, (s.onQueue i fun q => { q with qwantr := true }).drained i)
  | bp :: rest =>
    (some bp, (s.onQueue i fun q => { q.weighOut bp with msgs := rest, qwantr := false }).drained i)

/-- `rmvq(q, mp)` for the message at position `k`. -/
def rmvq (s : Stream) (i k : ℕ) : Option Stream :=
  (s.queue i).msgs[k]?.map fun mp =>
    (s.onQueue i fun q => { q.weighOut mp with msgs := q.msgs.eraseIdx k }).drained i

/-- `putq(q, bp)`. -/
def putq (s : Stream) (i : ℕ) (bp : Msg) : Stream :=
  let s := s.onQueue i fun q => { q.weighIn bp with msgs := putqPlace bp q.msgs }
  if QNORM < queclass bp ∨ (s.queue i).wakes then s.qenable i else s

/-- `putbq(q, bp)`. -/
def putbq (s : Stream) (i : ℕ) (bp : Msg) : Stream :=
  let s := s.onQueue i fun q => { q.weighIn bp with msgs := putbqPlace bp q.msgs }
  if QNORM < queclass bp ∨ (s.queue i).wakes then s.qenable i else s

/-- `insq(q, emp, mp)`. -/
def insq (s : Stream) (i : ℕ) (emp : Option ℕ) (mp : Msg) : Stream :=
  let s := s.onQueue i fun q => { q.weighIn mp with msgs := insqPlace emp mp q.msgs }
  if (s.queue i).wakes then s.qenable i else s

/-- The messages `flushq(q, flag)` puts back. -/
def kept (flag : Bool) (m : Msg) : Bool := !flag && !datamsg m.bp.dbType

/-- The loop of `flushq`. -/
def flushLoop (i : ℕ) (flag : Bool) : List Msg → Stream → Stream
  | [], s => s
  | bp :: rest, s => flushLoop i flag rest (if kept flag bp then s.putq i bp else s)

/-- `flushq(q, flag)`. -/
def flushq (s : Stream) (i : ℕ) (flag : Bool) : Stream :=
  let wantw := (s.queue i).qwantw
  let s := flushLoop i flag (s.queue i).msgs <|
    s.onQueue i fun q => { q with msgs := [], count := 0, qfull := false, qwantw := false }
  if (s.queue i).count ≤ (s.queue i).lowat ∧ wantw then s.enableBack i else s

/-- The loop of `canput`, with `left` queues after `i`. -/
def canputWalk (srvp : ℕ → Bool) : ℕ → ℕ → ℕ
  | 0, i => i
  | left + 1, i => if srvp i then i else canputWalk srvp left (i + 1)

/-- The queue that decides `canput(q)`. -/
def canputEnd (s : Stream) (i : ℕ) : ℕ :=
  canputWalk (fun j => (s.queue j).srvp) (s.num - 1 - i) i

/-- `canput(q)`. -/
def canput (s : Stream) (i : ℕ) : Bool × Stream :=
  let j := s.canputEnd i
  if (s.queue j).qfull then
    (false, (s.onQueue j fun q => { q with qwantw := true }).note (.refused j))
  else (true, s)

/-- `queuerun`: take the first queue off the run list, before its service procedure
runs (whose calls are calls like any others). -/
def queuerun (s : Stream) : Option Stream :=
  match s.qhead with
  | [] => none
  | i :: rest => some { s.onQueue i fun q => { q with qenab := false } with qhead := rest }

end Stream

/-- The calls on the queues of a stream. -/
inductive Call
  | putq (i : ℕ) (bp : Msg)
  | putbq (i : ℕ) (bp : Msg)
  | insq (i : ℕ) (emp : Option ℕ) (mp : Msg)
  | getq (i : ℕ)
  | rmvq (i k : ℕ)
  | flushq (i : ℕ) (flag : Bool)
  | canput (i : ℕ)
  | queuerun
  deriving DecidableEq, Repr

/-- One call; `none` if it is given a message that is not on the queue. -/
def Stream.step (s : Stream) : Call → Option Stream
  | .putq i bp => some (s.putq i bp)
  | .putbq i bp => some (s.putbq i bp)
  | .insq i emp mp =>
    if ∀ k ∈ emp, k < (s.queue i).msgs.length then some (s.insq i emp mp) else none
  | .getq i => some (s.getq i).2
  | .rmvq i k => s.rmvq i k
  | .flushq i flag => some (s.flushq i flag)
  | .canput i => some (s.canput i).2
  | .queuerun => s.queuerun

end Io
