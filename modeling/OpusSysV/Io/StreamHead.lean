import OpusSysV.Lib.Run
import OpusSysV.Io.Stream

/-!
# The stream head: `strrput`, `strread` and `strgetmsg` of `os/streamio.c`

`strrput` puts the messages from downstream on the read queue of the stream head, one priority
message at a time: `STRPRI` is set when it comes, and a reader that has read all of it clears
the flag.

* `strrput`, `Reader.turn` — the routines.  A call of `strread` or `strgetmsg` is a reader, whose
  turns end where it sleeps or runs the queues: when it waits, when it has taken a message off,
  and between the messages.  What it copies is its own, so that a message is copied in one turn.
* `Fate` — what a reader does in the end with a message: it puts the rest back, or frees it and
  leaves `STRPRI`, clears it, or clears `STIPRI` instead.
* `head_run` — `STRPRI` is exact, no block is lost and no other flag changes in every run in
  which no priority message is flushed, and what a reader does with `STRPRI` fits the message it
  holds; `head_lost` has runs of the other kinds.

The weights of the queue and its flow control are those of `Io.Stream`; signals, `poll` and
`select` are not described.
-/

namespace Io.Str

open Lib List Option

/-! ## Messages -/

def M_PASSFP : ℕ := 0o11
def M_SIG : ℕ := 0o13
def M_IOCTL : ℕ := 0o16
def M_SETOPTS : ℕ := 0o20
def M_IOCACK : ℕ := 0o201
def M_IOCNAK : ℕ := 0o202
def M_FLUSH : ℕ := 0o206
def M_HANGUP : ℕ := 0o211
def M_ERROR : ℕ := 0o212

/-- A block: its number, the type, `b_wptr - b_rptr`, and what is read of its data: the first
byte, `ioc_id`, and `so_flags` and `so_readopt`. -/
structure Blk where
  id : ℕ
  db_type : ℕ
  len : ℕ
  byte : ℕ
  ioc_id : ℕ
  so_flags : ℕ
  so_readopt : ℕ
  deriving DecidableEq

/-- A message, or what is left of it; `pri` says that it has come as an `M_PCPROTO` and is not in
the source. -/
structure Mesg where
  bp : Blk
  cont : List Blk
  pri : Bool
  deriving DecidableEq

/-- The blocks of a message. -/
def Mesg.blks (m : Mesg) : List Blk := m.bp :: m.cont

/-- The message of the blocks that are left of this one. -/
def Mesg.rest (m : Mesg) : List Blk → Option Mesg
  | [] => none
  | bp :: cont => some ⟨bp, cont, m.pri⟩

/-- `queclass(bp)`. -/
def queclass (m : Mesg) : ℕ := m.bp.db_type &&& QPCTL

/-- The search loop of `putq`. -/
def putqWalk (m : Mesg) : List Mesg → List Mesg
  | [] => [m]
  | nbp :: rest =>
    if queclass m ≤ queclass nbp then nbp :: putqWalk m rest else m :: nbp :: rest

/-- Where `putq` puts a message. -/
def putqPlace (m : Mesg) (queue : List Mesg) : List Mesg :=
  match queue.getLast? with
  | none => [m]
  | some last => if queclass m ≤ queclass last then queue ++ [m] else putqWalk m queue

/-- The search loop of `putbq`. -/
def putbqWalk (m : Mesg) : List Mesg → List Mesg
  | [] => [m]
  | [nbp] => [nbp, m]
  | nbp :: e :: rest =>
    if queclass m < queclass e then nbp :: putbqWalk m (e :: rest) else nbp :: m :: e :: rest

/-- Where `putbq` puts a message. -/
def putbqPlace (m : Mesg) (queue : List Mesg) : List Mesg :=
  match queue with
  | [] => [m]
  | first :: rest =>
    if queclass first ≤ queclass m then m :: first :: rest else putbqWalk m (first :: rest)

/-! ## The stream head -/

def IOCWAIT : BitVec 32 := 0o1
def RSLEEP : BitVec 32 := 0o2
def WSLEEP : BitVec 32 := 0o4
def STRPRI : BitVec 32 := 0o10
def STRHUP : BitVec 32 := 0o20
def STPLEX : BitVec 32 := 0o100
def RMSGDIS : BitVec 32 := 0o400
def RMSGNODIS : BitVec 32 := 0o1000
def STRERR : BitVec 32 := 0o2000
def OBEYWOFF : BitVec 32 := 0o20000000000
def WOFFEACH : BitVec 32 := 0o4000000000

/-- `~STIPRI`: the macro is `PZERO+3`, so that the `~` applies to `PZERO` alone. -/
def notStipri : BitVec 32 := ~~~25 + 3

/-- `flag & bit`. -/
def has (flag bit : BitVec 32) : Bool := flag &&& bit != 0

/-- The error numbers. -/
def EINTR : ℕ := 4
def ENXIO : ℕ := 6
def EAGAIN : ℕ := 11
def EFAULT : ℕ := 14
def EINVAL : ℕ := 22
def EBADMSG : ℕ := 77

/-- What a call returns: `u_error`, and `u_count` of a read, or `more`, the lengths and whether
the flags say `RS_HIPRI`, of a `getmsg`. -/
inductive Ret
  | read (u_error u_count : ℕ)
  | getmsg (u_error more : ℕ) (ctl data : Option ℤ) (hipri : Bool)
  deriving DecidableEq

/-- The arguments of a call, and the variables that it keeps from one message to the next. -/
inductive Call
  | read (u_count : ℕ) (rflg : Bool)
  | getmsg (ctl data : ℤ) (hipri : Bool)
  deriving DecidableEq

/-- Where a call is: at the top of its loop, asleep, with a message from `getq`, with one that it
copies, or at the signal messages that follow, with what it will return. -/
inductive Pc
  | top
  | asleep
  | hand (bp : Mesg)
  | copy (bp : Mesg) (flg : Bool)
  | sigs (ret : Option Ret)
  deriving DecidableEq

/-- A call of `strread` or `strgetmsg` under way; `nodelay` is `FNDELAY`. -/
structure Reader where
  call : Call
  nodelay : Bool
  pc : Pc
  deriving DecidableEq

/-- The stream head with the calls under way.  The blocks that have come, those that were freed
and those that were sent downstream, and what the calls have returned, are not in the source. -/
structure Head where
  sd_flag : BitVec 32
  sd_error : ℕ
  sd_iocid : ℕ
  sd_iocblk : Option (List Blk)
  queue : List Mesg
  readers : List Reader
  arrived : Multiset ℕ
  freed : Multiset ℕ
  sent : Multiset ℕ
  rets : List Ret

/-- The numbers of some blocks. -/
def ids (blks : List Blk) : Multiset ℕ := (blks.map Blk.id : List ℕ)

namespace Head

/-- `freemsg`. -/
def freemsg (s : Head) (blks : List Blk) : Head := { s with freed := s.freed + ids blks }

/-- `qreply`. -/
def qreply (s : Head) (blks : List Blk) : Head := { s with sent := s.sent + ids blks }

/-- A call returns. -/
def ret (s : Head) (r : Ret) : Head := { s with rets := s.rets ++ [r] }

/-- `sd_flag |= bit`. -/
def set (s : Head) (bit : BitVec 32) : Head := { s with sd_flag := s.sd_flag ||| bit }

/-- `sd_flag &= ~bit`. -/
def clr (s : Head) (bit : BitVec 32) : Head := { s with sd_flag := s.sd_flag &&& ~~~bit }

end Head

/-! ## `strrput` -/

/-- The read option of `M_SETOPTS`. -/
def readopt (flag : BitVec 32) : ℕ → BitVec 32
  | 0 => flag &&& ~~~(RMSGDIS ||| RMSGNODIS)
  | 1 => flag &&& ~~~RMSGNODIS ||| RMSGDIS
  | 2 => flag &&& ~~~RMSGDIS ||| RMSGNODIS
  | _ => flag

/-- The flags that `M_SETOPTS` sets. -/
def setopts (flag : BitVec 32) (bp : Blk) : BitVec 32 :=
  let flag := if bp.so_flags &&& 0o1 ≠ 0 then readopt flag bp.so_readopt else flag
  let flag := if bp.so_flags &&& 0o100 ≠ 0 then flag ||| OBEYWOFF else flag
  if bp.so_flags &&& 0o2000 ≠ 0 then flag ||| WOFFEACH else flag

/-- `strrput` for the messages that go on the queue. -/
def putData (s : Head) (bp : Blk) (cont : List Blk) : Head :=
  if bp.db_type = M_PCPROTO ∧ has s.sd_flag STRPRI then s.freemsg (bp :: cont)
  else
    let s := if bp.db_type = M_PCPROTO then s.set STRPRI else s
    let s := if has s.sd_flag RSLEEP then s.clr RSLEEP else s
    { s with queue := putqPlace ⟨bp, cont, decide (bp.db_type = M_PCPROTO)⟩ s.queue }

/-- `strrput(q, bp)`, without the note of what has come. -/
def rput (s : Head) (bp : Blk) (cont : List Blk) : Head :=
  if bp.db_type ∈ [M_DATA, M_PROTO, M_PCPROTO, M_PASSFP] then putData s bp cont
  else if bp.db_type = M_ERROR then
    if bp.byte ≠ 0 then { s.set STRERR with sd_error := bp.byte }.qreply (bp :: cont)
    else s.freemsg (bp :: cont)
  else if bp.db_type = M_HANGUP then { (s.freemsg (bp :: cont)).set STRHUP with sd_error := ENXIO }
  else if bp.db_type = M_SIG then
    match s.queue with
    | [] => s.freemsg (bp :: cont)
    | _ :: _ => { s with queue := putqPlace ⟨bp, cont, false⟩ s.queue }
  else if bp.db_type = M_FLUSH then
    let s := if bp.byte &&& 1 ≠ 0 then
        { s.freemsg (s.queue.flatMap Mesg.blks) with queue := [] }
      else s
    if bp.byte &&& 2 ≠ 0 then s.qreply (bp :: cont) else s.freemsg (bp :: cont)
  else if bp.db_type = M_IOCACK ∨ bp.db_type = M_IOCNAK then
    if ¬ has s.sd_flag IOCWAIT ∨ s.sd_iocblk.isSome ∨ s.sd_iocid ≠ bp.ioc_id then
      s.freemsg (bp :: cont)
    else { s with sd_iocblk := some (bp :: cont) }
  else if bp.db_type = M_SETOPTS then
    { s.freemsg (bp :: cont) with sd_flag := setopts s.sd_flag bp }
  else if bp.db_type = M_IOCTL then s.qreply (bp :: cont)
  -- `M_PCSIG` posts a signal; the others make no sense here
  else s.freemsg (bp :: cont)

/-- `strrput(q, bp)`. -/
def strrput (s : Head) (bp : Blk) (cont : List Blk) : Head :=
  rput { s with arrived := s.arrived + ids (bp :: cont) } bp cont

/-! ## Copying a message -/

/-- What has become of the blocks that were to be copied: whether a copy has faulted, the blocks
that were read and freed, the blocks left, and the room left. -/
structure Copied where
  fault : Bool
  used : List Blk
  left : List Blk
  cnt : ℕ

/-- The loops of `strread` over the blocks of a message; the copy number `fault` faults. -/
def iomoves : List Blk → ℕ → Option ℕ → Copied
  | [], cnt, _ => ⟨false, [], [], cnt⟩
  | b :: rest, cnt, fault =>
    let n := min cnt b.len
    if n ≠ 0 ∧ fault = some 0 then ⟨true, [], b :: rest, cnt⟩
    else if n = b.len then
      let c := iomoves rest (cnt - n) (if n ≠ 0 then fault.map (· - 1) else fault)
      { c with used := b :: c.used }
    else ⟨false, [], { b with len := b.len - n } :: rest, cnt - n⟩

/-- A loop of `strgetmsg` over the blocks up to the first that is not `wanted`. -/
def copyouts (wanted : Blk → Bool) : List Blk → ℕ → Option ℕ → Copied
  | [], bcnt, _ => ⟨false, [], [], bcnt⟩
  | b :: rest, bcnt, fault =>
    if wanted b then
      let n := min bcnt b.len
      if n ≠ 0 ∧ fault = some 0 then ⟨true, [], b :: rest, bcnt⟩
      else if n = b.len then
        if bcnt - n = 0 then ⟨false, [b], rest, bcnt - n⟩
        else
          let c := copyouts wanted rest (bcnt - n) (if n ≠ 0 then fault.map (· - 1) else fault)
          { c with used := b :: c.used }
      else ⟨false, [], { b with len := b.len - n } :: rest, bcnt - n⟩
    else ⟨false, [], b :: rest, bcnt⟩

/-- What becomes of what is left of a message: it is put back; it is freed and `STRPRI` is left,
or cleared; it is freed and `sd_flag` anded with `~STIPRI`, while `savemp` is forgotten. -/
inductive Fate
  | putbq (left : Mesg)
  | drop (left : List Blk)
  | clear (left : List Blk)
  | stipri (left savemp : List Blk)

/-- The blocks `used` and what is left of a message come to that. -/
def settle (s : Head) (used : List Blk) : Fate → Head
  | .putbq left => { s.freemsg used with queue := putbqPlace left s.queue }
  | .drop left => (s.freemsg used).freemsg left
  | .clear left => ((s.freemsg used).freemsg left).clr STRPRI
  | .stipri left _ =>
    { (s.freemsg used).freemsg left with sd_flag := s.sd_flag &&& notStipri }

/-- How a call goes on: it returns, or it is somewhere else. -/
inductive Next
  | ret (r : Ret)
  | go (call : Call) (pc : Pc)

/-- `strread` with the message `bp`: the blocks it has read, what it does with the rest, and how
it goes on. -/
def readMsg (flag : BitVec 32) (bp : Mesg) (u_count : ℕ) (rflg : Bool) (fault : Option ℕ) :
    List Blk × Fate × Next :=
  if bp.bp.db_type = M_DATA then
    if bp.bp.len = 0 then
      ([], if rflg then .putbq bp else .drop bp.blks, .ret (.read 0 u_count))
    else
      let c := iomoves bp.blks u_count fault
      if c.fault then (c.used, .drop c.left, .ret (.read EFAULT c.cnt))
      else
        (c.used,
          match bp.rest c.left with
          | none => .clear []
          | some left => if has flag RMSGDIS then .clear c.left else .putbq left,
          .go (.read c.cnt true) (.sigs none))
  else if bp.bp.db_type ∈ [M_PROTO, M_PCPROTO, M_PASSFP] then
    ([], .putbq bp, .ret (.read EBADMSG u_count))
  else ([], .drop bp.blks, .go (.read u_count rflg) .top)

/-- What the environment chooses in a turn: whether a sleep is interrupted, and which copies
fault, of the control part, of the data and of the flags. -/
structure Choice where
  intr : Bool
  ctlFault : Option ℕ
  dataFault : Option ℕ
  flagFault : Bool
  deriving DecidableEq

/-- `strgetmsg` with the message `bp`: the blocks it has read, what it does with the rest, and
what it returns. -/
def getmsgCopy (bp : Mesg) (ctl data : ℤ) (flg : Bool) (x : Choice) : List Blk × Fate × Ret :=
  let isCtl : Blk → Bool := fun b => b.db_type ≠ M_DATA
  let part := 0 ≤ ctl ∧ isCtl bp.bp
  let c := if part then copyouts isCtl bp.blks ctl.toNat x.ctlFault
    else ⟨false, [], bp.blks, 0⟩
  if c.fault then (c.used, .clear c.left, .getmsg EFAULT 0 none none flg)
  else
    let clen := if part then ctl - c.cnt else -1
    let savemp := c.left.takeWhile isCtl
    let rest := c.left.dropWhile isCtl
    let d := if 0 ≤ data ∧ rest ≠ [] then copyouts (fun _ => true) rest data.toNat x.dataFault
      else ⟨false, [], rest, 0⟩
    if d.fault then
      (c.used ++ d.used, .stipri d.left savemp, .getmsg EFAULT 0 (some clen) none flg)
    else
      let dlen := if 0 ≤ data ∧ rest ≠ [] then data - d.cnt else -1
      let more := (if savemp ≠ [] then 1 else 0) + (if d.left ≠ [] then 2 else 0)
      (c.used ++ d.used,
        match bp.rest (savemp ++ d.left) with
        | none => .clear []
        | some left => .putbq left,
        .getmsg (if x.flagFault then EFAULT else 0) more (some clen) (some dlen) flg)

/-! ## The readers -/

/-- The call fails with the error. -/
def Call.fail : Call → ℕ → Ret
  | .read u_count _, e => .read e u_count
  | .getmsg .., e => .getmsg e 0 none none false

/-- The error of a stream with `STRERR` or `STPLEX`. -/
def Head.error (s : Head) : ℕ := if has s.sd_flag STPLEX then EINVAL else s.sd_error

/-- `strwaitq(stp, READWAIT, u.u_fmode)` up to the sleep. -/
def strwaitq (s : Head) (r : Reader) : Head × Option Reader :=
  if r.nodelay then (s.ret (r.call.fail EAGAIN), none)
  else (s.set RSLEEP, some { r with pc := .asleep })

/-- `strwaitq` from the sleep on. -/
def woken (s : Head) (r : Reader) (x : Choice) : Head × Option Reader :=
  if x.intr then ((s.clr RSLEEP).ret (r.call.fail EINTR), none)
  else if has s.sd_flag (STRERR ||| STPLEX) then (s.ret (r.call.fail s.error), none)
  else (s, some { r with pc := .top })

/-- The loops in which a call waits for a message. -/
def waits (s : Head) (r : Reader) (x : Choice) : Head × Option Reader :=
  match r.call with
  | .read u_count rflg =>
    match s.queue with
    | bp :: rest => ({ s with queue := rest }, some { r with pc := .hand bp })
    | [] =>
      if rflg ∨ has s.sd_flag STRHUP then (s.ret (.read 0 u_count), none) else strwaitq s r
  | .getmsg _ _ hipri =>
    let none := if has s.sd_flag STRHUP then
        (s.ret (.getmsg (if x.flagFault then EFAULT else 0) 0 (some 0) (some 0) false), none)
      else strwaitq s r
    if hipri ∧ ¬ has s.sd_flag STRPRI then none
    else match s.queue with
      | bp :: rest => ({ s with queue := rest }, some { r with pc := .hand bp })
      | [] => none

/-- The end of a turn in which `strread` has settled a message. -/
def Next.turn (s : Head) (r : Reader) : Next → Head × Option Reader
  | .ret v => (s.ret v, none)
  | .go call pc => (s, some { r with call := call, pc := pc })

/-- The loop over the signal messages at the front of the queue, and what follows it. -/
def signals (s : Head) (r : Reader) (ret : Option Ret) : Head × Option Reader :=
  let done := match ret, r.call with
    | some v, _ => (s.ret v, none)
    | none, .read u_count _ =>
      if u_count = 0 ∨ has s.sd_flag (RMSGDIS ||| RMSGNODIS) then
        (s.ret (.read 0 u_count), none)
      else (s, some { r with pc := .top })
    | none, .getmsg .. => (s, none)
  match s.queue with
  | bp :: rest =>
    if bp.bp.db_type = M_SIG then ({ s.freemsg bp.blks with queue := rest }, some r) else done
  | [] => done

/-- A turn of a reader. -/
def Reader.turn (s : Head) (r : Reader) (x : Choice) : Head × Option Reader :=
  match r.pc with
  | .top => waits s r x
  | .asleep => woken s r x
  | .hand bp =>
    match r.call with
    | .read u_count rflg =>
      let (used, fate, next) := readMsg s.sd_flag bp u_count rflg x.dataFault
      next.turn (settle s used fate) r
    | .getmsg .. =>
      if bp.bp.db_type = M_PASSFP then
        ((settle s [] (.putbq bp)).ret (r.call.fail EBADMSG), none)
      else (s, some { r with pc := .copy bp (has s.sd_flag STRPRI) })
  | .copy bp flg =>
    match r.call with
    | .getmsg ctl data _ =>
      let (used, fate, ret) := getmsgCopy bp ctl data flg x
      (settle s used fate, some { r with pc := .sigs (some ret) })
    | .read .. => (s, some r)
  | .sigs ret => signals s r ret

/-- What happens at the stream head. -/
inductive HeadEvent
  | strrput (bp : Blk) (cont : List Blk)
  | strread (u_count : ℕ) (nodelay : Bool)
  | strgetmsg (ctl data : ℤ) (rflag : ℕ) (nodelay copyin : Bool)
  | run (r : Reader) (x : Choice)

/-- A call starts, unless the stream is in error. -/
def start (s : Head) (call : Call) (nodelay : Bool) : Head :=
  if has s.sd_flag (STRERR ||| STPLEX) then s.ret (call.fail s.error)
  else { s with readers := s.readers ++ [⟨call, nodelay, .top⟩] }

/-- One event; no message comes to a stream that is multiplexed. -/
def step (s : Head) : HeadEvent → Option Head
  | .strrput bp cont => if has s.sd_flag STPLEX then none else some (Str.strrput s bp cont)
  | .strread u_count nodelay => some (start s (.read u_count false) nodelay)
  | .strgetmsg ctl data rflag nodelay copyin =>
    let call := Call.getmsg ctl data (rflag &&& 1 ≠ 0)
    if has s.sd_flag (STRERR ||| STPLEX) then some (s.ret (call.fail s.error))
    else if ¬ copyin then some (s.ret (call.fail EFAULT))
    else if rflag > 1 then some (s.ret (call.fail EINVAL))
    else some (start s call nodelay)
  | .run r x =>
    if r ∈ s.readers then
      let (t, r') := r.turn { s with readers := s.readers.erase r } x
      some { t with readers := t.readers ++ r'.toList }
    else none

/-! ## What is exact -/

/-- The message that a reader holds. -/
def Reader.msg (r : Reader) : Option Mesg :=
  match r.pc with
  | .hand bp => some bp
  | .copy bp _ => some bp
  | _ => none

/-- A priority message, or what is left of one, is on the queue or read by a call. -/
def Pending (s : Head) : Prop :=
  ∃ m : Mesg, m.pri = true ∧ (m ∈ s.queue ∨ ∃ r ∈ s.readers, r.msg = some m)

/-- `STRPRI` is set while there is a priority message; while there is none, the next that comes is
put on the queue; and every block that has come is in a message there, freed, sent downstream or
kept for an `ioctl`. -/
structure Exact (s : Head) : Prop where
  strpri : has s.sd_flag STRPRI = true ↔ Pending s
  accepts : ∀ bp cont, bp.db_type = M_PCPROTO → ¬ Pending s →
    ⟨bp, cont, true⟩ ∈ (strrput s bp cont).queue
  blocks : s.arrived = ids (s.queue.flatMap Mesg.blks) +
    ids (s.readers.flatMap fun r => r.msg.elim [] Mesg.blks) + s.freed + s.sent +
      ids (s.sd_iocblk.getD [])

/-- The flags that an event may change. -/
def documented : HeadEvent → BitVec 32
  | .strrput bp _ =>
    if bp.db_type ∈ [M_DATA, M_PROTO, M_PCPROTO, M_PASSFP] then STRPRI ||| RSLEEP
    else if bp.db_type = M_ERROR then STRERR
    else if bp.db_type = M_HANGUP then STRHUP
    else if bp.db_type = M_SETOPTS then RMSGDIS ||| RMSGNODIS ||| OBEYWOFF ||| WOFFEACH
    else 0
  | .strread .. => 0
  | .strgetmsg .. => 0
  | .run r _ =>
    match r.pc with
    | .top => RSLEEP
    | .asleep => RSLEEP
    | .hand _ => STRPRI
    | .copy .. => STRPRI
    | .sigs _ => 0

/-- When a reader may do that with its message: it leaves `STRPRI` only if the message was none
of priority, it clears the flag only if the message was one, or the flag is clear; and where
`~STIPRI` is taken, nothing is forgotten and the flags that are not in it are clear. -/
def FateOk (s : Head) (bp : Mesg) : Fate → Prop
  | .putbq _ => True
  | .drop _ => bp.pri = false
  | .clear _ => bp.pri = true ∨ has s.sd_flag STRPRI = false
  | .stipri _ savemp => bp.pri = false ∧ savemp = [] ∧
      has s.sd_flag (RSLEEP ||| WSLEEP ||| STRHUP) = false

/-- When a turn of a reader keeps `STRPRI` exact. -/
def TurnOk (s : Head) (r : Reader) (x : Choice) : Prop :=
  match r.pc, r.call with
  | .hand bp, .read u_count rflg =>
    FateOk s bp (readMsg s.sd_flag bp u_count rflg x.dataFault).2.1
  | .copy bp flg, .getmsg ctl data _ => FateOk s bp (getmsgCopy bp ctl data flg x).2.1
  | .sigs _, _ => ∀ m ∈ s.queue.head?, m.bp.db_type = M_SIG → m.pri = false
  | _, _ => True

/-- When an event keeps `STRPRI` exact: no priority message is flushed, and what a reader does
with `STRPRI` fits its message. -/
def Meets (s : Head) : HeadEvent → Prop
  | .strrput bp _ => bp.db_type = M_FLUSH → bp.byte &&& 1 ≠ 0 → ∀ m ∈ s.queue, m.pri = false
  | .run r x => TurnOk s r x
  | _ => True

/-! ## Flags -/

section flags

variable {f m b : BitVec 32}

theorem and_or_of_disjoint (h : m &&& b = 0) : (f ||| m) &&& b = f &&& b := by
  ext i hi
  have hbit := congrArg (fun v => v.getLsbD i) h
  simp [hi] at hbit ⊢
  grind

theorem and_not_of_disjoint (h : m &&& b = 0) : f &&& ~~~m &&& b = f &&& b := by
  ext i hi
  have hbit := congrArg (fun v => v.getLsbD i) h
  simp [hi] at hbit ⊢
  grind

theorem has_or (h : m &&& b = 0) : has (f ||| m) b = has f b := by
  rw [has, has, and_or_of_disjoint h]

theorem has_not (h : m &&& b = 0) : has (f &&& ~~~m) b = has f b := by
  rw [has, has, and_not_of_disjoint h]

theorem has_set (h : b ≠ 0) : has (f ||| b) b = true := by
  have hand : (f ||| b) &&& b = b := by
    ext i hi
    simp
    grind
  rw [has, hand]
  simpa using h

theorem has_clr : has (f &&& ~~~b) b = false := by
  have hand : f &&& ~~~b &&& b = 0 := by
    ext i hi
    simp
  rw [has, hand]
  rfl

theorem eq_zero_of_has (h : has f b = false) : f &&& b = 0 := by
  simpa [has] using h

/-- Where the flags that are not in `~STIPRI` are clear, it changes nothing. -/
theorem and_notStipri (h : has f (RSLEEP ||| WSLEEP ||| STRHUP) = false) :
    f &&& notStipri = f := by
  have hzero := eq_zero_of_has h
  have hmask : notStipri = ~~~(RSLEEP ||| WSLEEP ||| STRHUP) := by decide
  rw [hmask]
  ext i hi
  have hbit := congrArg (fun v => v.getLsbD i) hzero
  simp [hi] at hbit ⊢
  grind

end flags

/-! ## Messages on the queue and in hand -/

section ledger

variable {M : Type*} [AddCommMonoid M] {s t : Head} {m bp : Mesg} {r : Reader}

theorem putqWalk_perm (m : Mesg) (queue : List Mesg) : (putqWalk m queue).Perm (m :: queue) := by
  induction queue with
  | nil => exact List.Perm.refl _
  | cons nbp rest ih =>
    unfold putqWalk
    split_ifs
    · exact (ih.cons nbp).trans (List.Perm.swap m nbp rest)
    · exact List.Perm.refl _

theorem putqPlace_perm (m : Mesg) (queue : List Mesg) : (putqPlace m queue).Perm (m :: queue) := by
  unfold putqPlace
  split
  · rename_i h
    rw [List.getLast?_eq_none_iff.mp h]
  · split_ifs
    · exact perm_append_singleton m queue
    · exact putqWalk_perm m queue

theorem putbqWalk_perm (m : Mesg) (queue : List Mesg) : (putbqWalk m queue).Perm (m :: queue) := by
  induction queue using putbqWalk.induct m with
  | case1 => exact List.Perm.refl _
  | case2 nbp => exact List.Perm.swap m nbp []
  | case3 nbp e rest h ih =>
    rw [putbqWalk, if_pos h]
    exact (ih.cons nbp).trans (List.Perm.swap m nbp _)
  | case4 nbp e rest h =>
    rw [putbqWalk, if_neg h]
    exact List.Perm.swap m nbp _

theorem putbqPlace_perm (m : Mesg) (queue : List Mesg) :
    (putbqPlace m queue).Perm (m :: queue) := by
  unfold putbqPlace
  split
  · exact List.Perm.refl _
  · split_ifs
    · exact List.Perm.refl _
    · exact putbqWalk_perm m _

/-- The sum of `f` over the messages of a list. -/
def onQueue (f : Mesg → M) (queue : List Mesg) : M := (queue.map f).sum

/-- `f` of the message that a reader holds. -/
def inHand (f : Mesg → M) (r : Reader) : M := r.msg.elim 0 f

/-- The sum of `f` over the messages on the queue and in the hands of readers. -/
def weigh (f : Mesg → M) (s : Head) : M :=
  onQueue f s.queue + (s.readers.map (inHand f)).sum

theorem onQueue_perm {f : Mesg → M} {queue : List Mesg} {place : List Mesg}
    (h : place.Perm (m :: queue)) : onQueue f place = f m + onQueue f queue := by
  unfold onQueue
  rw [(h.map f).sum_eq, map_cons, sum_cons]

theorem hands_erase {f : Mesg → M} {l : List Reader} (hr : r ∈ l) :
    (l.map (inHand f)).sum = inHand f r + ((l.erase r).map (inHand f)).sum := by
  rw [((perm_cons_erase hr).map (inHand f)).sum_eq, map_cons, sum_cons]

/-- One for a priority message. -/
def priOf (m : Mesg) : ℕ := if m.pri then 1 else 0

/-- The numbers of the blocks of a message. -/
def idsOf (m : Mesg) : Multiset ℕ := ids m.blks

theorem ids_append (a b : List Blk) : ids (a ++ b) = ids a + ids b := by
  simp [ids]

theorem ids_cons (b : Blk) (l : List Blk) : ids (b :: l) = {b.id} + ids l := by
  simp [ids]

/-- The ledger of the stream head, with `p` priority messages and the blocks `b` in the hands of
the routine that runs. -/
structure Ledger (s : Head) (p : ℕ) (b : Multiset ℕ) : Prop where
  strpri : weigh priOf s + p = if has s.sd_flag STRPRI then 1 else 0
  blocks : weigh idsOf s + b + s.freed + s.sent + ids (s.sd_iocblk.getD []) = s.arrived

theorem Ledger.freemsg {p : ℕ} {b : Multiset ℕ} {l : List Blk} (hs : Ledger s p (ids l + b)) :
    Ledger (s.freemsg l) p b := by
  refine ⟨hs.strpri, ?_⟩
  rw [← show _ = (s.freemsg l).arrived from hs.blocks]
  show weigh idsOf s + b + (s.freed + ids l) + s.sent + ids (s.sd_iocblk.getD []) = _
  abel

theorem Ledger.qreply {p : ℕ} {b : Multiset ℕ} {l : List Blk} (hs : Ledger s p (ids l + b)) :
    Ledger (s.qreply l) p b := by
  refine ⟨hs.strpri, ?_⟩
  rw [← show _ = (s.qreply l).arrived from hs.blocks]
  show weigh idsOf s + b + s.freed + (s.sent + ids l) + ids (s.sd_iocblk.getD []) = _
  abel

/-- Another flag is set or cleared. -/
theorem Ledger.flag {p : ℕ} {b : Multiset ℕ} {flag : BitVec 32} {e : ℕ} (hs : Ledger s p b)
    (h : has flag STRPRI = has s.sd_flag STRPRI) :
    Ledger { s with sd_flag := flag, sd_error := e } p b := by
  refine ⟨?_, hs.blocks⟩
  show weigh priOf s + p = if has flag STRPRI then 1 else 0
  rw [h]
  exact hs.strpri

/-- A message goes on the queue. -/
theorem Ledger.put {place : List Mesg} (hs : Ledger s (priOf m) (idsOf m))
    (h : place.Perm (m :: s.queue)) : Ledger { s with queue := place } 0 0 := by
  refine ⟨?_, ?_⟩
  · show onQueue priOf place + (s.readers.map (inHand priOf)).sum + 0 = _
    rw [onQueue_perm h, ← show _ = ite _ _ _ from hs.strpri]
    unfold weigh
    omega
  · show onQueue idsOf place + (s.readers.map (inHand idsOf)).sum + 0 + s.freed + s.sent +
      ids (s.sd_iocblk.getD []) = s.arrived
    rw [onQueue_perm h, ← hs.blocks]
    unfold weigh
    abel

/-- The first message is taken off the queue. -/
theorem Ledger.take {rest : List Mesg} (hs : Ledger s 0 0) (h : s.queue = m :: rest) :
    Ledger { s with queue := rest } (priOf m) (idsOf m) := by
  have hq : ∀ {N : Type} [AddCommMonoid N] (f : Mesg → N), onQueue f s.queue =
      f m + onQueue f rest := fun f => by rw [h]; exact onQueue_perm (List.Perm.refl _)
  refine ⟨?_, ?_⟩
  · show onQueue priOf rest + (s.readers.map (inHand priOf)).sum + priOf m = _
    rw [← show _ = ite _ _ _ from hs.strpri]
    unfold weigh
    rw [hq priOf]
    omega
  · show onQueue idsOf rest + (s.readers.map (inHand idsOf)).sum + idsOf m + s.freed + s.sent +
      ids (s.sd_iocblk.getD []) = s.arrived
    rw [← hs.blocks]
    unfold weigh
    rw [hq idsOf]
    abel

/-- A reader runs. -/
theorem Ledger.reader (hs : Ledger s 0 0) (hr : r ∈ s.readers) :
    Ledger { s with readers := s.readers.erase r } (inHand priOf r) (inHand idsOf r) := by
  refine ⟨?_, ?_⟩
  · show onQueue priOf s.queue + ((s.readers.erase r).map (inHand priOf)).sum + _ = _
    rw [← show _ = ite _ _ _ from hs.strpri]
    unfold weigh
    rw [hands_erase hr]
    omega
  · show onQueue idsOf s.queue + ((s.readers.erase r).map (inHand idsOf)).sum + _ + s.freed +
      s.sent + ids (s.sd_iocblk.getD []) = s.arrived
    rw [← hs.blocks]
    unfold weigh
    rw [hands_erase hr]
    abel

/-- The turn of a reader ends. -/
theorem Ledger.back (hs : Ledger s (inHand priOf r) (inHand idsOf r)) :
    Ledger { s with readers := s.readers ++ [r] } 0 0 := by
  refine ⟨?_, ?_⟩
  · show onQueue priOf s.queue + ((s.readers ++ [r]).map (inHand priOf)).sum + 0 = _
    rw [← show _ = ite _ _ _ from hs.strpri, map_append, sum_append]
    unfold weigh
    simp
    omega
  · show onQueue idsOf s.queue + ((s.readers ++ [r]).map (inHand idsOf)).sum + 0 + s.freed +
      s.sent + ids (s.sd_iocblk.getD []) = s.arrived
    rw [← hs.blocks, map_append, sum_append]
    unfold weigh
    simp
    abel

/-- A call returns. -/
theorem Ledger.ret {p : ℕ} {b : Multiset ℕ} {v : Ret} (hs : Ledger s p b) :
    Ledger (s.ret v) p b :=
  ⟨hs.strpri, hs.blocks⟩

/-! ## What a reader does with its message -/

/-- The blocks of a message that were not read. -/
def Fate.ids : Fate → Multiset ℕ
  | .putbq left => idsOf left
  | .drop left => Str.ids left
  | .clear left => Str.ids left
  | .stipri left savemp => Str.ids left + Str.ids savemp

/-- The blocks of a message are read or left, and what is put back is of its priority. -/
structure Accounts (bp : Mesg) (used : List Blk) (fate : Fate) : Prop where
  blocks : ids used + fate.ids = idsOf bp
  pri : ∀ left, fate = .putbq left → left.pri = bp.pri

theorem iomoves_ids (blks : List Blk) (cnt : ℕ) (fault : Option ℕ) :
    ids (iomoves blks cnt fault).used + ids (iomoves blks cnt fault).left = ids blks := by
  induction blks generalizing cnt fault with
  | nil => rfl
  | cons b rest ih =>
    unfold iomoves
    dsimp only
    split_ifs
    · exact zero_add (ids (b :: rest))
    · rw [ids_cons, ids_cons, add_assoc, ih]
    · rw [ids_cons, ids_cons, add_assoc, ih]
    · show ids [] + ids (_ :: rest) = ids (b :: rest)
      rw [ids_cons, ids_cons b]
      exact zero_add _

theorem copyouts_ids (wanted : Blk → Bool) (blks : List Blk) (bcnt : ℕ) (fault : Option ℕ) :
    ids (copyouts wanted blks bcnt fault).used + ids (copyouts wanted blks bcnt fault).left =
      ids blks := by
  induction blks generalizing bcnt fault with
  | nil => rfl
  | cons b rest ih =>
    unfold copyouts
    dsimp only
    split_ifs
    · exact zero_add (ids (b :: rest))
    · rw [← ids_append]
      rfl
    · rw [ids_cons, ids_cons, add_assoc, ih]
    · rw [ids_cons, ids_cons, add_assoc, ih]
    · show ids [] + ids (_ :: rest) = ids (b :: rest)
      rw [ids_cons, ids_cons b]
      exact zero_add _
    · exact zero_add (ids (b :: rest))

/-- What is left of a message is put back, or cleared if nothing is left. -/
theorem accounts_rest {used left : List Blk} (h : ids used + ids left = idsOf bp) (flag : Bool) :
    Accounts bp used (match bp.rest left with
      | none => .clear []
      | some rest => if flag then .clear left else .putbq rest) := by
  cases left with
  | nil => exact ⟨h, fun _ heq => nomatch heq⟩
  | cons b cont =>
    cases flag with
    | true => exact ⟨h, fun _ heq => nomatch heq⟩
    | false => exact ⟨h, fun _ heq => by cases heq; rfl⟩

/-- The message that a call holds after it has settled one. -/
def Next.msg : Next → Option Mesg
  | .ret _ => none
  | .go call pc => Reader.msg ⟨call, false, pc⟩

theorem readMsg_accounts (flag : BitVec 32) (bp : Mesg) (u_count : ℕ) (rflg : Bool)
    (fault : Option ℕ) :
    Accounts bp (readMsg flag bp u_count rflg fault).1 (readMsg flag bp u_count rflg fault).2.1 ∧
      (readMsg flag bp u_count rflg fault).2.2.msg = none := by
  have hids := iomoves_ids bp.blks u_count fault
  have hnone : ids [] + idsOf bp = idsOf bp := zero_add _
  unfold readMsg
  dsimp only
  split
  · by_cases hlen : bp.bp.len = 0
    · rw [if_pos hlen]
      cases rflg with
      | true => exact ⟨⟨hnone, fun _ heq => by cases heq; rfl⟩, rfl⟩
      | false => exact ⟨⟨hnone, fun _ heq => nomatch heq⟩, rfl⟩
    · rw [if_neg hlen]
      by_cases hfault : (iomoves bp.blks u_count fault).fault = true
      · rw [if_pos hfault]
        exact ⟨⟨hids, fun _ heq => nomatch heq⟩, rfl⟩
      · rw [if_neg hfault]
        exact ⟨accounts_rest hids (has flag RMSGDIS), rfl⟩
  · by_cases hproto : bp.bp.db_type ∈ [M_PROTO, M_PCPROTO, M_PASSFP]
    · rw [if_pos hproto]
      exact ⟨⟨hnone, fun _ heq => by cases heq; rfl⟩, rfl⟩
    · rw [if_neg hproto]
      exact ⟨⟨hnone, fun _ heq => nomatch heq⟩, rfl⟩

theorem getmsgCopy_accounts (bp : Mesg) (ctl data : ℤ) (flg : Bool) (x : Choice) :
    Accounts bp (getmsgCopy bp ctl data flg x).1 (getmsgCopy bp ctl data flg x).2.1 := by
  unfold getmsgCopy
  dsimp only
  -- the control part
  obtain ⟨c, hc⟩ : ∃ c, c = if 0 ≤ ctl ∧ decide (bp.bp.db_type ≠ M_DATA) = true then
      copyouts (fun b => decide (b.db_type ≠ M_DATA)) bp.blks ctl.toNat x.ctlFault
    else ⟨false, [], bp.blks, 0⟩ := ⟨_, rfl⟩
  have hcids : ids c.used + ids c.left = idsOf bp := by
    rw [hc]
    split_ifs
    · exact copyouts_ids _ _ _ _
    · exact zero_add _
  rw [← hc]
  split
  · exact ⟨hcids, fun _ heq => nomatch heq⟩
  · -- the data part
    obtain ⟨savemp, hsave⟩ : ∃ l, l = c.left.takeWhile fun b => decide (b.db_type ≠ M_DATA) :=
      ⟨_, rfl⟩
    obtain ⟨rest, hrest⟩ : ∃ l, l = c.left.dropWhile fun b => decide (b.db_type ≠ M_DATA) :=
      ⟨_, rfl⟩
    have hsplit : ids savemp + ids rest = ids c.left := by
      rw [← ids_append, hsave, hrest, takeWhile_append_dropWhile]
    rw [← hsave, ← hrest]
    obtain ⟨d, hd⟩ : ∃ d, d = if 0 ≤ data ∧ rest ≠ [] then
        copyouts (fun _ => true) rest data.toNat x.dataFault
      else ⟨false, [], rest, 0⟩ := ⟨_, rfl⟩
    have hdids : ids d.used + ids d.left = ids rest := by
      rw [hd]
      split_ifs
      · exact copyouts_ids _ _ _ _
      · exact zero_add _
    rw [← hd]
    by_cases hdf : d.fault = true
    · rw [if_pos hdf]
      refine ⟨?_, fun _ heq => nomatch heq⟩
      show ids (c.used ++ d.used) + (ids d.left + ids savemp) = idsOf bp
      rw [← hcids, ← hsplit, ← hdids, ids_append]
      abel
    · rw [if_neg hdf]
      refine accounts_rest ?_ false
      rw [← hcids, ← hsplit, ← hdids, ids_append, ids_append]
      abel

/-- The message in hand is settled. -/
theorem Ledger.settle {used : List Blk} {fate : Fate} (hs : Ledger s (priOf bp) (idsOf bp))
    (haccounts : Accounts bp used fate) (hok : FateOk s bp fate) :
    Ledger (settle s used fate) 0 0 := by
  have hblocks := haccounts.blocks
  rw [← hblocks] at hs
  cases fate with
  | putbq left =>
    have hfree : Ledger (s.freemsg used) (priOf left) (idsOf left) := by
      have hpri : priOf left = priOf bp := by rw [priOf, priOf, haccounts.pri left rfl]
      rw [hpri]
      exact hs.freemsg
    exact hfree.put (putbqPlace_perm left s.queue)
  | drop left =>
    have hpri : priOf bp = 0 := by rw [priOf, show bp.pri = false from hok]; rfl
    rw [hpri] at hs
    have hfree : Ledger (s.freemsg used) 0 (ids left + 0) := by
      rw [add_zero]
      exact hs.freemsg
    exact hfree.freemsg
  | clear left =>
    have hfree : Ledger (s.freemsg used) (priOf bp) (ids left + 0) := by
      rw [add_zero]
      exact hs.freemsg
    have hleft := hfree.freemsg
    refine ⟨?_, hleft.blocks⟩
    have hstrpri : weigh priOf s + priOf bp = if has s.sd_flag STRPRI then 1 else 0 := hs.strpri
    show weigh priOf s + 0 = if has (s.sd_flag &&& ~~~STRPRI) STRPRI then 1 else 0
    rw [has_clr, if_neg Bool.false_ne_true]
    rcases hok with hpri | hclear
    · rw [show priOf bp = 1 by rw [priOf, hpri]; rfl] at hstrpri
      split_ifs at hstrpri
      omega
    · rw [hclear, if_neg Bool.false_ne_true] at hstrpri
      omega
  | stipri left savemp =>
    obtain ⟨hpri, rfl, hflags⟩ := hok
    have hzero : priOf bp = 0 := by rw [priOf, hpri]; rfl
    rw [hzero] at hs
    have hfree : Ledger (s.freemsg used) 0 (ids left + 0) := by
      have := hs.freemsg
      rwa [show (Fate.stipri left []).ids = ids left + 0 from rfl] at this
    have hleft := hfree.freemsg
    have hsame : s.sd_flag &&& notStipri = s.sd_flag := and_notStipri hflags
    show Ledger { (s.freemsg used).freemsg left with sd_flag := s.sd_flag &&& notStipri } 0 0
    rw [hsame]
    exact hleft

/-! ## `strrput` -/

theorem ids_flatMap (queue : List Mesg) : ids (queue.flatMap Mesg.blks) = onQueue idsOf queue := by
  induction queue with
  | nil => rfl
  | cons m rest ih =>
    rw [flatMap_cons, ids_append, ih]
    rfl

theorem onQueue_pri {queue : List Mesg} (h : ∀ m ∈ queue, m.pri = false) :
    onQueue priOf queue = 0 := by
  unfold onQueue
  rw [sum_eq_zero]
  intro n hn
  obtain ⟨m, hm, rfl⟩ := mem_map.mp hn
  rw [priOf, h m hm]
  rfl

theorem Ledger.putData {b : Blk} {cont : List Blk} (hs : Ledger s 0 (ids (b :: cont))) :
    Ledger (putData s b cont) 0 0 := by
  unfold Str.putData
  by_cases hfull : b.db_type = M_PCPROTO ∧ has s.sd_flag STRPRI = true
  · rw [if_pos hfull]
    rw [← add_zero (ids (b :: cont))] at hs
    exact hs.freemsg
  · rw [if_neg hfull]
    dsimp only
    obtain ⟨m, hm⟩ : ∃ m : Mesg, m = ⟨b, cont, decide (b.db_type = M_PCPROTO)⟩ := ⟨_, rfl⟩
    rw [← hm]
    obtain ⟨u, hu⟩ : ∃ u, u = if b.db_type = M_PCPROTO then s.set STRPRI else s := ⟨_, rfl⟩
    rw [← hu]
    have hids : idsOf m = ids (b :: cont) := by rw [hm]; rfl
    have hledger : Ledger u (priOf m) (idsOf m) := by
      rw [hids, hu]
      by_cases hp : b.db_type = M_PCPROTO
      · have hclear : has s.sd_flag STRPRI = false := by
          rw [← Bool.not_eq_true]
          exact fun h => hfull ⟨hp, h⟩
        rw [if_pos hp, show priOf m = 1 by rw [hm, priOf]; simp [hp]]
        refine ⟨?_, hs.blocks⟩
        have hstrpri := hs.strpri
        rw [hclear, if_neg Bool.false_ne_true] at hstrpri
        show weigh priOf s + 1 = if has (s.sd_flag ||| STRPRI) STRPRI then 1 else 0
        rw [has_set (by decide), if_pos rfl]
        omega
      · rw [if_neg hp, show priOf m = 0 by rw [hm, priOf]; simp [hp]]
        exact hs
    have hwake : Ledger (if has u.sd_flag RSLEEP = true then u.clr RSLEEP else u) (priOf m)
        (idsOf m) := by
      split_ifs
      · exact hledger.flag (has_not (by decide))
      · exact hledger
    exact hwake.put (putqPlace_perm m _)

theorem has_setopts (flag : BitVec 32) (b : Blk) :
    has (setopts flag b) STRPRI = has flag STRPRI := by
  have hread : ∀ f, has (readopt f b.so_readopt) STRPRI = has f STRPRI := by
    intro f
    unfold readopt
    split
    · exact has_not (by decide)
    · rw [has_or (by decide), has_not (by decide)]
    · rw [has_or (by decide), has_not (by decide)]
    · rfl
  unfold setopts
  dsimp only
  have hwoff : ∀ f, has (f ||| WOFFEACH) STRPRI = has f STRPRI := fun _ => has_or (by decide)
  have hobey : ∀ f, has (f ||| OBEYWOFF) STRPRI = has f STRPRI := fun _ => has_or (by decide)
  split_ifs <;> simp only [hread, hwoff, hobey]

/-- The messages on the queue are flushed, none of which is of priority. -/
theorem Ledger.flush {b : Multiset ℕ} (hs : Ledger s 0 b) (h : ∀ m ∈ s.queue, m.pri = false) :
    Ledger { s.freemsg (s.queue.flatMap Mesg.blks) with queue := [] } 0 b := by
  refine ⟨?_, ?_⟩
  · have hstrpri := hs.strpri
    unfold weigh at hstrpri
    rw [onQueue_pri h] at hstrpri
    exact hstrpri
  · show 0 + (s.readers.map (inHand idsOf)).sum + b + (s.freed + ids (s.queue.flatMap Mesg.blks)) +
      s.sent + ids (s.sd_iocblk.getD []) = s.arrived
    rw [ids_flatMap, ← hs.blocks]
    unfold weigh
    abel

section

variable (hs : Ledger s 0 0)

include hs

theorem Ledger.strrput {b : Blk} {cont : List Blk}
    (hok : Meets s (.strrput b cont)) : Ledger (strrput s b cont) 0 0 := by
  unfold Str.strrput
  obtain ⟨u, hu⟩ : ∃ u, u = { s with arrived := s.arrived + ids (b :: cont) } := ⟨_, rfl⟩
  rw [← hu]
  have hin : Ledger u 0 (ids (b :: cont)) := by
    rw [hu]
    refine ⟨hs.strpri, ?_⟩
    show weigh idsOf s + ids (b :: cont) + s.freed + s.sent + ids (s.sd_iocblk.getD []) =
      s.arrived + ids (b :: cont)
    rw [← hs.blocks]
    abel
  have hin' : Ledger u 0 (ids (b :: cont) + 0) := by rwa [add_zero]
  have hqueue : u.queue = s.queue := by rw [hu]
  unfold rput
  split
  · exact hin.putData
  by_cases herror : b.db_type = M_ERROR
  · rw [if_pos herror]
    split_ifs
    · have hset : Ledger { u.set STRERR with sd_error := b.byte } 0 (ids (b :: cont) + 0) :=
        hin'.flag (has_or (by decide))
      exact hset.qreply
    · exact hin'.freemsg
  rw [if_neg herror]
  split
  · exact hin'.freemsg.flag (has_or (by decide))
  split
  · split
    · exact hin'.freemsg
    · exact Ledger.put (m := ⟨b, cont, false⟩) hin (putqPlace_perm _ _)
  by_cases hflush : b.db_type = M_FLUSH
  · rw [if_pos hflush]
    have hread : Ledger (if b.byte &&& 1 ≠ 0 then
        { u.freemsg (u.queue.flatMap Mesg.blks) with queue := [] } else u) 0
          (ids (b :: cont) + 0) := by
      split_ifs with hr
      · exact hin'.flush (hqueue ▸ hok hflush hr)
      · exact hin'
    dsimp only at hread ⊢
    split
    · exact hread.qreply
    · exact hread.freemsg
  rw [if_neg hflush]
  split
  · split_ifs with hno
    · exact hin'.freemsg
    · push Not at hno
      have hnone : u.sd_iocblk = none := by simpa using hno.2.1
      refine ⟨hin.strpri, ?_⟩
      have hblocks := hin.blocks
      rw [hnone] at hblocks
      show weigh idsOf u + 0 + u.freed + u.sent + ids (b :: cont) = u.arrived
      rw [← hblocks]
      show _ = weigh idsOf u + ids (b :: cont) + u.freed + u.sent + 0
      abel
  split
  · exact hin'.freemsg.flag (has_setopts _ _)
  split
  · exact hin'.qreply
  · exact hin'.freemsg

/-! ## The turns of a reader -/

/-- `f` of the message that a reader holds, if it goes on. -/
def held (f : Mesg → M) (r : Option Reader) : M := r.elim 0 (inHand f)

/-- The ledger at the end of a turn. -/
def Settled (t : Head × Option Reader) : Prop :=
  Ledger t.1 (held priOf t.2) (held idsOf t.2)

omit hs in
theorem Settled.back {t : Head × Option Reader} (h : Settled t) :
    Ledger { t.1 with readers := t.1.readers ++ t.2.toList } 0 0 := by
  obtain ⟨t, r'⟩ := t
  cases r' with
  | none =>
    dsimp only
    rw [toList_none, append_nil]
    exact h
  | some r' => exact Ledger.back h

theorem settled_strwaitq : Settled (strwaitq s r) := by
  unfold strwaitq
  split_ifs
  · exact hs.ret
  · exact hs.flag (has_or (by decide))

theorem settled_woken {x : Choice} : Settled (woken s r x) := by
  unfold woken
  split_ifs
  · exact Ledger.ret (hs.flag (has_not (by decide)))
  · exact hs.ret
  · exact hs

theorem settled_waits {x : Choice} : Settled (waits s r x) := by
  have htake : ∀ bp rest, s.queue = bp :: rest →
      Settled ({ s with queue := rest }, some { r with pc := .hand bp }) :=
    fun bp rest h => hs.take h
  unfold waits
  cases r.call with
  | read u_count rflg =>
    dsimp only
    split
    · rename_i bp rest h
      exact htake bp rest h
    · split_ifs
      · exact hs.ret
      · exact settled_strwaitq hs
  | getmsg ctl data hipri =>
    dsimp only
    have hnone : Settled (if has s.sd_flag STRHUP = true then
        (s.ret (.getmsg (if x.flagFault = true then EFAULT else 0) 0 (some 0) (some 0) false), none)
        else strwaitq s r) := by
      split_ifs
      · exact hs.ret
      · exact hs.ret
      · exact settled_strwaitq hs
    split
    · exact hnone
    · split
      · rename_i bp rest h
        exact htake bp rest h
      · exact hnone

theorem settled_signals {ret : Option Ret} (hmsg : r.msg = none)
    (hok : ∀ m ∈ s.queue.head?, m.bp.db_type = M_SIG → m.pri = false) :
    Settled (signals s r ret) := by
  have hdone : Settled (match ret, r.call with
      | some v, _ => (s.ret v, none)
      | none, .read u_count _ =>
        if u_count = 0 ∨ has s.sd_flag (RMSGDIS ||| RMSGNODIS) then
          (s.ret (.read 0 u_count), none)
        else (s, some { r with pc := .top })
      | none, .getmsg .. => (s, none)) := by
    split
    · exact hs.ret
    · split_ifs
      · exact hs.ret
      · exact hs
    · exact hs
  unfold signals
  dsimp only
  split
  · rename_i bp rest hq
    split_ifs with hsig
    · have hpri : bp.pri = false := hok bp (by rw [hq]; rfl) hsig
      have htake := hs.take hq
      rw [show priOf bp = 0 by rw [priOf, hpri]; rfl, ← add_zero (idsOf bp)] at htake
      have hfree : Ledger { s.freemsg bp.blks with queue := rest } 0 0 := htake.freemsg
      show Ledger { s.freemsg bp.blks with queue := rest } (inHand priOf r) (inHand idsOf r)
      rw [inHand, inHand, hmsg]
      exact hfree
    · exact hdone
  · exact hdone

omit hs in
theorem settled_turn {x : Choice} (hs : Ledger s (inHand priOf r) (inHand idsOf r))
    (hok : TurnOk s r x) : Settled (r.turn s x) := by
  unfold inHand Reader.msg at hs
  unfold TurnOk at hok
  unfold Reader.turn
  cases hpc : r.pc with
  | top =>
    rw [hpc] at hs
    exact settled_waits hs
  | asleep =>
    rw [hpc] at hs
    exact settled_woken hs
  | hand bp =>
    rw [hpc] at hs hok
    dsimp only at hs hok ⊢
    cases hcall : r.call with
    | read u_count rflg =>
      rw [hcall] at hok
      dsimp only at hok ⊢
      obtain ⟨haccounts, hmsg⟩ := readMsg_accounts s.sd_flag bp u_count rflg x.dataFault
      have hledger := Ledger.settle hs haccounts hok
      cases hnext : (readMsg s.sd_flag bp u_count rflg x.dataFault).2.2 with
      | ret v => exact hledger.ret
      | go call pc =>
        rw [hnext] at hmsg
        show Ledger _ (inHand priOf ⟨call, r.nodelay, pc⟩) (inHand idsOf ⟨call, r.nodelay, pc⟩)
        rw [inHand, inHand, show Reader.msg ⟨call, r.nodelay, pc⟩ = none from hmsg]
        exact hledger
    | getmsg ctl data hipri =>
      dsimp only
      split_ifs
      · exact Ledger.ret (@Ledger.settle s bp [] (.putbq bp) hs
          ⟨zero_add _, fun _ heq => by cases heq; rfl⟩ trivial)
      · exact hs
  | copy bp flg =>
    rw [hpc] at hs hok
    dsimp only at hs hok ⊢
    cases hcall : r.call with
    | read u_count rflg =>
      show Ledger s (inHand priOf r) (inHand idsOf r)
      rw [inHand, inHand, Reader.msg, hpc]
      exact hs
    | getmsg ctl data hipri =>
      rw [hcall] at hok
      exact Ledger.settle hs (getmsgCopy_accounts bp ctl data flg x) hok
  | sigs ret =>
    rw [hpc] at hs hok
    exact settled_signals hs (by rw [Reader.msg, hpc]) hok

/-! ## Every run -/

theorem Ledger.start {call : Call} {nodelay : Bool} :
    Ledger (start s call nodelay) 0 0 := by
  unfold Str.start
  split_ifs
  · exact hs.ret
  · exact Ledger.back (r := ⟨call, nodelay, .top⟩) hs

/-- What one event keeps. -/
theorem Ledger.step {e : HeadEvent} (hok : Meets s e)
    (ht : step s e = some t) : Ledger t 0 0 := by
  cases e with
  | strrput b cont =>
    unfold Str.step at ht
    dsimp only at ht
    split_ifs at ht
    cases ht
    exact hs.strrput hok
  | strread u_count nodelay =>
    cases ht
    exact hs.start
  | strgetmsg ctl data rflag nodelay copyin =>
    unfold Str.step at ht
    dsimp only at ht
    split_ifs at ht <;> cases ht
    · exact hs.ret
    · exact hs.ret
    · exact hs.start
    · exact hs.ret
  | run r x =>
    unfold Str.step at ht
    dsimp only at ht
    by_cases hr : r ∈ s.readers
    · rw [if_pos hr] at ht
      cases ht
      exact (settled_turn (x := x) (hs.reader hr) hok).back
    · rw [if_neg hr] at ht
      cases ht

omit hs in
/-- A priority message that comes while `STRPRI` is clear is put on the queue. -/
theorem mem_strrput {b : Blk} {cont : List Blk} (hb : b.db_type = M_PCPROTO)
    (hclear : has s.sd_flag STRPRI = false) : ⟨b, cont, true⟩ ∈ (strrput s b cont).queue := by
  have hmem : b.db_type ∈ [M_DATA, M_PROTO, M_PCPROTO, M_PASSFP] := by
    rw [hb]
    decide
  unfold strrput rput
  rw [if_pos hmem]
  unfold putData
  rw [if_neg fun h => by rw [hclear] at h; exact Bool.noConfusion h.2]
  dsimp only
  rw [show decide (b.db_type = M_PCPROTO) = true from decide_eq_true hb]
  exact (putqPlace_perm _ _).mem_iff.mpr mem_cons_self

theorem Ledger.pending : has s.sd_flag STRPRI = true ↔ Pending s := by
  have hstrpri := hs.strpri
  rw [add_zero] at hstrpri
  refine ⟨fun h => ?_, ?_⟩
  · rw [h, if_pos rfl] at hstrpri
    -- a message of the sum is one of priority
    by_contra hno
    unfold Pending at hno
    push Not at hno
    have hqueue : onQueue priOf s.queue = 0 := onQueue_pri fun m hm => by
      by_contra hpri
      exact (hno m (by simpa using hpri)).1 hm
    have hhands : (s.readers.map (inHand priOf)).sum = 0 := by
      refine sum_eq_zero fun n hn => ?_
      obtain ⟨r, hr, rfl⟩ := mem_map.mp hn
      unfold inHand
      cases hmsg : r.msg with
      | none => rfl
      | some m =>
        show priOf m = 0
        rw [priOf, if_neg fun hpri => (hno m hpri).2 r hr hmsg]
    unfold weigh at hstrpri
    omega
  · rintro ⟨m, hpri, hm⟩
    by_contra hclear
    rw [if_neg hclear] at hstrpri
    have hone : priOf m = 1 := by rw [priOf, if_pos hpri]
    unfold weigh at hstrpri
    rcases hm with hm | ⟨r, hr, hmsg⟩
    · have hle : priOf m ≤ onQueue priOf s.queue :=
        single_le_sum (fun _ _ => Nat.zero_le _) _ (mem_map_of_mem hm)
      omega
    · have hle : inHand priOf r ≤ (s.readers.map (inHand priOf)).sum :=
        single_le_sum (fun _ _ => Nat.zero_le _) _ (mem_map_of_mem hr)
      have heq : inHand priOf r = 1 := by
        unfold inHand
        rw [hmsg]
        exact hone
      omega

theorem Ledger.exact : Exact s := by
  refine ⟨hs.pending, fun b cont hb hno => ?_, ?_⟩
  · exact mem_strrput hb (Bool.eq_false_iff.mpr fun h => hno (hs.pending.mp h))
  · have hhands : ∀ l : List Reader,
        ids (l.flatMap fun r => r.msg.elim [] Mesg.blks) = (l.map (inHand idsOf)).sum := by
      intro l
      induction l with
      | nil => rfl
      | cons r l ih =>
        rw [flatMap_cons, ids_append, ih, map_cons, sum_cons]
        congr 1
        unfold inHand
        cases r.msg with
        | none => rfl
        | some m => rfl
    rw [← hs.blocks, ids_flatMap, hhands]
    unfold weigh
    abel

end

end ledger

/-! ## The other flags -/

section kept

variable {s t : Head} {bp : Mesg} {r : Reader} {x : Choice} {mask : BitVec 32}

/-- No flag changes but those of the mask. -/
def Kept (mask flag flag' : BitVec 32) : Prop := flag' &&& ~~~mask = flag &&& ~~~mask

theorem kept_or {f m : BitVec 32} (h : m &&& ~~~mask = 0) : Kept mask f (f ||| m) :=
  and_or_of_disjoint h

theorem kept_not {f m : BitVec 32} (h : m &&& ~~~mask = 0) : Kept mask f (f &&& ~~~m) :=
  and_not_of_disjoint h

theorem Kept.trans {f g h : BitVec 32} (h1 : Kept mask f g) (h2 : Kept mask g h) :
    Kept mask f h := Eq.trans h2 h1

theorem kept_settle {used : List Blk} {fate : Fate} (hok : FateOk s bp fate) :
    Kept STRPRI s.sd_flag (settle s used fate).sd_flag := by
  cases fate with
  | putbq left => rfl
  | drop left => rfl
  | clear left => exact kept_not (by decide)
  | stipri left savemp =>
    show Kept STRPRI s.sd_flag (s.sd_flag &&& notStipri)
    rw [and_notStipri hok.2.2]
    rfl

theorem kept_putData (b : Blk) (cont : List Blk) :
    Kept (STRPRI ||| RSLEEP) s.sd_flag (putData s b cont).sd_flag := by
  unfold putData
  split
  · rfl
  · dsimp only
    obtain ⟨u, hu⟩ : ∃ u, u = if b.db_type = M_PCPROTO then s.set STRPRI else s := ⟨_, rfl⟩
    rw [← hu]
    have hset : Kept (STRPRI ||| RSLEEP) s.sd_flag u.sd_flag := by
      rw [hu]
      split_ifs
      · exact kept_or (by decide)
      · rfl
    refine hset.trans ?_
    split_ifs
    · exact kept_not (by decide)
    · rfl

theorem kept_setopts (flag : BitVec 32) (b : Blk) :
    Kept (RMSGDIS ||| RMSGNODIS ||| OBEYWOFF ||| WOFFEACH) flag (setopts flag b) := by
  have hread : ∀ f, Kept (RMSGDIS ||| RMSGNODIS ||| OBEYWOFF ||| WOFFEACH) f
      (readopt f b.so_readopt) := by
    intro f
    unfold readopt
    split
    · exact kept_not (by decide)
    · exact (kept_not (by decide)).trans (kept_or (by decide))
    · exact (kept_not (by decide)).trans (kept_or (by decide))
    · rfl
  unfold setopts
  obtain ⟨f, hf⟩ : ∃ f, f = if b.so_flags &&& 0o1 ≠ 0 then readopt flag b.so_readopt else flag :=
    ⟨_, rfl⟩
  obtain ⟨g, hg⟩ : ∃ g, g = if b.so_flags &&& 0o100 ≠ 0 then f ||| OBEYWOFF else f := ⟨_, rfl⟩
  have hkf : Kept (RMSGDIS ||| RMSGNODIS ||| OBEYWOFF ||| WOFFEACH) flag f := by
    rw [hf]
    split_ifs
    · exact hread flag
    · rfl
  have hkg : Kept (RMSGDIS ||| RMSGNODIS ||| OBEYWOFF ||| WOFFEACH) f g := by
    rw [hg]
    split_ifs
    · exact kept_or (by decide)
    · rfl
  dsimp only
  rw [← hf, ← hg]
  refine (hkf.trans hkg).trans ?_
  split_ifs
  · exact kept_or (by decide)
  · rfl

theorem kept_strrput (b : Blk) (cont : List Blk) :
    Kept (documented (.strrput b cont)) s.sd_flag (strrput s b cont).sd_flag := by
  unfold documented strrput rput
  dsimp only
  split
  · exact kept_putData (s := { s with arrived := s.arrived + ids (b :: cont) }) b cont
  by_cases herror : b.db_type = M_ERROR
  · rw [if_pos herror, if_pos herror]
    split_ifs
    · exact kept_or (by decide)
    · rfl
  rw [if_neg herror, if_neg herror]
  split
  · exact kept_or (by decide)
  by_cases hsig : b.db_type = M_SIG
  · rw [if_pos hsig]
    cases s.queue with
    | nil => rfl
    | cons m rest => rfl
  rw [if_neg hsig]
  by_cases hflush : b.db_type = M_FLUSH
  · rw [if_pos hflush]
    split_ifs <;> rfl
  rw [if_neg hflush]
  by_cases hioc : b.db_type = M_IOCACK ∨ b.db_type = M_IOCNAK
  · rw [if_pos hioc]
    split_ifs <;> rfl
  rw [if_neg hioc]
  by_cases hopts : b.db_type = M_SETOPTS
  · rw [if_pos hopts, if_pos hopts]
    exact kept_setopts _ _
  rw [if_neg hopts]
  split_ifs <;> rfl

theorem kept_strwaitq : Kept RSLEEP s.sd_flag (strwaitq s r).1.sd_flag := by
  unfold strwaitq
  split_ifs
  · rfl
  · exact kept_or (by decide)

theorem kept_waits : Kept RSLEEP s.sd_flag (waits s r x).1.sd_flag := by
  unfold waits
  cases r.call with
  | read u_count rflg =>
    dsimp only
    split
    · rfl
    · split_ifs
      · rfl
      · exact kept_strwaitq
  | getmsg ctl data hipri =>
    dsimp only
    have hnone : Kept RSLEEP s.sd_flag (if has s.sd_flag STRHUP = true then
        (s.ret (.getmsg (if x.flagFault = true then EFAULT else 0) 0 (some 0) (some 0) false), none)
        else strwaitq s r).1.sd_flag := by
      split
      · rfl
      · exact kept_strwaitq
    split
    · exact hnone
    · split
      · rfl
      · exact hnone

theorem kept_woken : Kept RSLEEP s.sd_flag (woken s r x).1.sd_flag := by
  unfold woken
  split_ifs
  · exact kept_not (by decide)
  · rfl
  · rfl

theorem signals_flag (ret : Option Ret) : (signals s r ret).1.sd_flag = s.sd_flag := by
  unfold signals
  dsimp only
  split
  · split_ifs
    · rfl
    · split
      · rfl
      · split_ifs <;> rfl
      · rfl
  · split
    · rfl
    · split_ifs <;> rfl
    · rfl

theorem kept_turn (hok : TurnOk s r x) :
    Kept (documented (.run r x)) s.sd_flag (r.turn s x).1.sd_flag := by
  unfold TurnOk at hok
  unfold documented Reader.turn
  dsimp only
  cases hpc : r.pc with
  | top => exact kept_waits
  | asleep => exact kept_woken
  | hand bp =>
    rw [hpc] at hok
    dsimp only at hok ⊢
    cases hcall : r.call with
    | read u_count rflg =>
      rw [hcall] at hok
      dsimp only at hok ⊢
      have hsettle := @kept_settle s bp
        (readMsg s.sd_flag bp u_count rflg x.dataFault).1 _ hok
      cases (readMsg s.sd_flag bp u_count rflg x.dataFault).2.2 with
      | ret v => exact hsettle
      | go call pc => exact hsettle
    | getmsg ctl data hipri =>
      dsimp only
      split_ifs <;> rfl
  | copy bp flg =>
    rw [hpc] at hok
    dsimp only at hok ⊢
    cases hcall : r.call with
    | read u_count rflg => rfl
    | getmsg ctl data hipri =>
      rw [hcall] at hok
      exact kept_settle hok
  | sigs ret =>
    show Kept 0 s.sd_flag (signals s r ret).1.sd_flag
    rw [signals_flag]
    rfl

/-- What one event changes of the flags. -/
theorem kept_step {e : HeadEvent} (hok : Meets s e) (ht : step s e = some t) :
    Kept (documented e) s.sd_flag t.sd_flag := by
  have hstart : ∀ call nodelay, (start s call nodelay).sd_flag = s.sd_flag := by
    intro call nodelay
    unfold start
    split_ifs <;> rfl
  cases e with
  | strrput b cont =>
    unfold step at ht
    dsimp only at ht
    split_ifs at ht
    cases ht
    exact kept_strrput b cont
  | strread u_count nodelay =>
    cases ht
    rw [hstart]
    rfl
  | strgetmsg ctl data rflag nodelay copyin =>
    unfold step at ht
    dsimp only at ht
    split_ifs at ht <;> cases ht
    · rfl
    · rfl
    · rw [hstart]
      rfl
    · rfl
  | run r x =>
    unfold step at ht
    dsimp only at ht
    split at ht
    · cases ht
      exact kept_turn (s := { s with readers := s.readers.erase r }) hok
    · cases ht

/-- A stream head with no messages and no calls, as an open leaves it. -/
structure Fresh (s : Head) : Prop where
  strpri : has s.sd_flag STRPRI = false
  queue : s.queue = []
  readers : s.readers = []
  iocblk : s.sd_iocblk = none
  none : s.arrived = 0 ∧ s.freed = 0 ∧ s.sent = 0

theorem Fresh.ledger (hs : Fresh s) : Ledger s 0 0 := by
  obtain ⟨harrived, hfreed, hsent⟩ := hs.none
  refine ⟨?_, ?_⟩
  · rw [weigh, hs.queue, hs.readers, hs.strpri]
    rfl
  · rw [weigh, hs.queue, hs.readers, hs.iocblk, harrived, hfreed, hsent]
    rfl

/-- **The priority message at the stream head.**  In every run whose events meet the condition,
`STRPRI` is set exactly while there is a priority message or what is left of one, no block is
lost, and the next event that meets it changes no flags but those it may. -/
theorem head_run {es : List HeadEvent} (hs : Fresh s) (hmeets : StepsMeet Meets step s es)
    (ht : exec step s es = some t) :
    Exact t ∧ ∀ e u, Meets t e → step t e = some u → Kept (documented e) t.sd_flag u.sd_flag :=
  ⟨(exec_invariant (P := fun s => Ledger s 0 0) (fun _ _ _ hs hok ht => hs.step hok ht) hs.ledger
    hmeets ht).exact, fun _ _ hok hu => kept_step hok hu⟩

end kept

/-! ## Runs -/

instance decidableFateOk (s : Head) (bp : Mesg) : ∀ fate, Decidable (FateOk s bp fate)
  | .putbq _ => isTrue trivial
  | .drop _ => inferInstanceAs (Decidable (bp.pri = false))
  | .clear _ => inferInstanceAs (Decidable (bp.pri = true ∨ has s.sd_flag STRPRI = false))
  | .stipri _ savemp => inferInstanceAs (Decidable (bp.pri = false ∧ savemp = [] ∧
      has s.sd_flag (RSLEEP ||| WSLEEP ||| STRHUP) = false))

/-- The condition of an event, as a test. -/
def meetsB (s : Head) : HeadEvent → Bool
  | .strrput bp _ =>
    decide (bp.db_type = M_FLUSH → bp.byte &&& 1 ≠ 0 → ∀ m ∈ s.queue, m.pri = false)
  | .run r x =>
    match r.pc, r.call with
    | .hand bp, .read u_count rflg =>
      decide (FateOk s bp (readMsg s.sd_flag bp u_count rflg x.dataFault).2.1)
    | .copy bp flg, .getmsg ctl data _ => decide (FateOk s bp (getmsgCopy bp ctl data flg x).2.1)
    | .sigs _, _ => s.queue.head?.all fun m => decide (m.bp.db_type = M_SIG → m.pri = false)
    | _, _ => true
  | _ => true

theorem meets_of_meetsB {s : Head} {e : HeadEvent} (h : meetsB s e = true) : Meets s e := by
  cases e with
  | strrput bp cont =>
    have htest : decide (bp.db_type = M_FLUSH → bp.byte &&& 1 ≠ 0 → ∀ m ∈ s.queue,
      m.pri = false) = true := h
    have hmeets := of_decide_eq_true htest
    exact hmeets
  | strread u_count nodelay => trivial
  | strgetmsg ctl data rflag nodelay copyin => trivial
  | run r x =>
    obtain ⟨call, nodelay, pc⟩ := r
    unfold meetsB at h
    show TurnOk s ⟨call, nodelay, pc⟩ x
    unfold TurnOk
    cases pc with
    | top => trivial
    | asleep => trivial
    | hand bp =>
      cases call with
      | read u_count rflg => exact of_decide_eq_true h
      | getmsg ctl data hipri => trivial
    | copy bp flg =>
      cases call with
      | read u_count rflg => trivial
      | getmsg ctl data hipri => exact of_decide_eq_true h
    | sigs ret =>
      dsimp only at h ⊢
      intro m hm
      rw [Option.mem_def.mp hm] at h
      exact of_decide_eq_true h

/-- A stream head with no flag set. -/
def idle : Head := ⟨0, 0, 0, none, [], [], 0, 0, 0, []⟩

theorem idle_fresh : Fresh idle := ⟨by decide, rfl, rfl, rfl, rfl, rfl, rfl⟩

/-- A block of four bytes. -/
def four (id type : ℕ) : Blk := ⟨id, type, 4, 0, 0, 0, 0⟩

/-- No copy faults. -/
def calm : Choice := ⟨false, none, none, false⟩

/-- A priority message with control and data. -/
def urgent : Mesg := ⟨four 1 M_PCPROTO, [four 2 M_DATA], true⟩

/-- A priority message comes, and a call has taken it off the queue and copies it. -/
def taken (data : ℤ) : List HeadEvent :=
  [.strrput urgent.bp urgent.cont, .strgetmsg 4 data 1 false true,
    .run ⟨.getmsg 4 data true, false, .top⟩ calm,
    .run ⟨.getmsg 4 data true, false, .hand urgent⟩ calm]

/-- The call reads the control part and two bytes of data. -/
def partRead : List HeadEvent :=
  taken 2 ++ [.run ⟨.getmsg 4 2 true, false, .copy urgent true⟩ calm]

/-- The run in which a part is read. -/
theorem head_run_part : ∃ t, exec step idle partRead = some t ∧
    t.queue.map Mesg.blks = [[⟨2, M_DATA, 2, 0, 0, 0, 0⟩]] ∧ Exact t ∧
      ∀ e u, Meets t e → step t e = some u → Kept (documented e) t.sd_flag u.sd_flag := by
  have hrun : (exec step idle partRead).any
      (fun t => decide (t.queue.map Mesg.blks = [[⟨2, M_DATA, 2, 0, 0, 0, 0⟩]])) = true := by
    decide +kernel
  obtain ⟨t, ht, hqueue⟩ := (any_eq_true _ _).mp hrun
  exact ⟨t, ht, of_decide_eq_true hqueue, head_run idle_fresh
    (stepsMeet_of_allSteps (c := meetsB) (fun _ _ h => meets_of_meetsB h) (by decide +kernel)) ht⟩

/-- The priority message is flushed. -/
def flushed : List HeadEvent :=
  [.strrput urgent.bp urgent.cont, .strrput ⟨3, M_FLUSH, 1, 1, 0, 0, 0⟩ []]

/-- The copy of its data faults. -/
def faulted : List HeadEvent :=
  taken 4 ++ [.run ⟨.getmsg 4 4 true, false, .copy urgent true⟩ ⟨false, none, some 0, false⟩]

/-- The priority message comes while a call reads a message of data. -/
def overtaken : List HeadEvent :=
  [.strrput (four 3 M_DATA) [], .strread 4 false, .run ⟨.read 4 false, false, .top⟩ calm,
    .strrput urgent.bp urgent.cont,
    .run ⟨.read 4 false, false, .hand ⟨four 3 M_DATA, [], false⟩⟩ calm]

/-- The run does happen, and the flag is wrong after it. -/
def Loses (es : List HeadEvent) : Prop := ∃ t, exec step idle es = some t ∧ ¬ Exact t

theorem loses_of_mem : ∀ es ∈ [flushed, faulted, overtaken], Loses es := by
  have hruns : ∀ es ∈ [flushed, faulted, overtaken], (exec step idle es).any (fun t =>
      decide (t.readers.all fun r => r.msg.isNone) &&
        decide (has t.sd_flag STRPRI ≠ t.queue.any Mesg.pri)) = true := by
    decide +kernel
  intro es hes
  obtain ⟨t, ht, hbad⟩ := (any_eq_true _ _).mp (hruns es hes)
  refine ⟨t, ht, fun hexact => ?_⟩
  rw [Bool.and_eq_true, decide_eq_true_eq, decide_eq_true_eq] at hbad
  refine hbad.2 (Bool.eq_iff_iff.mpr (hexact.strpri.trans ⟨?_, fun h => ?_⟩))
  · rintro ⟨m, hpri, hm | ⟨r, hr, hmsg⟩⟩
    · exact any_eq_true.mpr ⟨m, hm, hpri⟩
    · have hnone := all_eq_true.mp hbad.1 r hr
      rw [hmsg] at hnone
      cases hnone
  · obtain ⟨m, hm, hpri⟩ := any_eq_true.mp h
    exact ⟨m, hpri, .inl hm⟩

/-- The flag stays set when the message is gone, or is cleared while it is there. -/
theorem head_lost : Loses flushed ∧ Loses faulted ∧ Loses overtaken := by
  simpa only [forall_mem_cons, not_mem_nil, IsEmpty.forall_iff, implies_true, and_true]
    using loses_of_mem

end Io.Str
