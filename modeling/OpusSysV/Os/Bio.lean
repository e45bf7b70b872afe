import OpusSysV.Lib.Run
import Mathlib

/-!
# The buffer cache: `os/bio.c`

A buffer is busy while a process or the driver works with it, and else on the free list; it
carries a block of a device, under which it is hashed.  `getblk` finds the buffer of a block
or takes the first free one for it, writing that out first if its write was delayed.

* `Buf`, `Cache` — the buffers, the hash chains, the free list, the driver, and where each process
  is.
* `getblk`, `bread`, `breada`, `bwrite`, `bdwrite`, `bawrite`, `brelse`, `iodone` — the
  routines.  A process runs until it sleeps or a driver might; a driver may finish what it has been
  given in any order.
* `Cache.step` — the interleavings.

Every device has blocks of one size and there are no I/O errors.  The flags that only order the
work of a driver are left out.
-/

namespace Os

open Lib Function

/-- `b_dev` and `b_blkno`. -/
structure Blk where
  dev : ℕ
  blkno : ℕ
  deriving DecidableEq, Repr

/-- The configuration: the number of buffers, the mask of the hash function and the size of a
block. -/
structure BioConf where
  vBuf : ℕ
  vHmask : ℕ
  bsize : ℕ
  bsize_le : 512 ≤ bsize

/-- `LTOPBLK(blkno, bsize)`. -/
def BioConf.ltopblk (c : BioConf) (blkno : ℕ) : ℕ := blkno * (c.bsize >>> 9)

/-- `bhash(dev, blkno)`: the index of the chain. -/
def BioConf.bhash (c : BioConf) (k : Blk) : ℕ := (k.dev + k.blkno) &&& c.vHmask

/-- `struct buf`: the block it carries (none for `NODEV`), the flags in use and the bytes. -/
structure Buf (B : Type*) where
  blk : Option Blk
  busy : Bool
  done : Bool
  read : Bool
  delwri : Bool
  async : Bool
  wanted : Bool
  stale : Bool
  age : Bool
  bytes : B

/-- Who called `getblk`.  `ahead` is the loop of `breada`: the buffer of the requested block, the
block, the read-ahead buffers so far, the next number and how many are left. -/
inductive Getter
  | getblk
  | bread
  | breada (rablkno blkno : ℕ)
  | ahead (sbp : ℕ) (k : Blk) (bps : List ℕ) (rablkno left : ℕ)
  deriving DecidableEq, Repr

/-- Where a process is: not in a routine; at `loop` in `getblk`; asleep there on a buffer or on the
free list; starting the reads of `breada`; in `iowait` for a read or a write. -/
inductive BioPc
  | run
  | getblk (k : Blk) (g : Getter)
  | sleepBuf (b : ℕ) (k : Blk) (g : Getter)
  | sleepFree (k : Blk) (g : Getter)
  | start (sbp : ℕ) (k : Blk) (bps : List ℕ)
  | readWait (b : ℕ) (k : Blk)
  | writeWait (b : ℕ)
  deriving DecidableEq, Repr

/-- What a process sees of a block: what a read returned, and what a write released. -/
inductive Access (B : Type*)
  | read (k : Blk) (bytes : B)
  | write (k : Blk) (bytes : B)

/-- The cache: the buffers, the hash chains, `bfreelist` with its flag and its count, the buffers
that a driver has been given, the disks, where each process is and which buffers it has got and not
given up.  The last field is not in the source: the accesses so far, the last one first. -/
structure Cache (B : Type*) where
  buf : ℕ → Buf B
  hash : ℕ → List ℕ
  free : List ℕ
  freeWanted : Bool
  bcount : ℤ
  io : List ℕ
  disk : Blk → B
  pc : ℕ → BioPc
  held : ℕ → List ℕ
  trace : List (Access B)

namespace Cache

variable {B : Type*} (c : BioConf)

/-- The fields of a buffer are changed. -/
def setBuf (s : Cache B) (b : ℕ) (f : Buf B → Buf B) : Cache B :=
  { s with buf := update s.buf b (f (s.buf b)) }

def setPc (s : Cache B) (p : ℕ) (pc : BioPc) : Cache B :=
  { s with pc := update s.pc p pc }

/-- The process gets a buffer. -/
def give (s : Cache B) (p b : ℕ) : Cache B :=
  { s with held := update s.held p (b :: s.held p) }

/-- The process gives a buffer up. -/
def drop (s : Cache B) (p b : ℕ) : Cache B :=
  { s with held := update s.held p ((s.held p).erase b) }

/-! ## Sleep and release -/

/-- `wakeup((caddr_t)bp)` for those in `getblk`; those in `iowait` look again by themselves. -/
def wakeBuf (s : Cache B) (b : ℕ) : Cache B :=
  { s with pc := fun p =>
    match s.pc p with
    | .sleepBuf b' k g => if b' = b then .getblk k g else .sleepBuf b' k g
    | pc => pc }

/-- `wakeup((caddr_t)&bfreelist)`. -/
def wakeFree (s : Cache B) : Cache B :=
  { s with pc := fun p =>
    match s.pc p with
    | .sleepFree k g => .getblk k g
    | pc => pc }

/-- `notavail(bp)`. -/
def notavail (s : Cache B) (b : ℕ) : Cache B :=
  { s.setBuf b fun x => { x with busy := true } with
    free := s.free.erase b
    bcount := s.bcount - 1 }

/-- `brelse(bp)`. -/
def brelse (s : Cache B) (b : ℕ) : Cache B :=
  let s :=
    if (s.buf b).wanted then s.wakeBuf b
    else if s.freeWanted then { s.wakeFree with freeWanted := false }
    else s
  { s.setBuf b fun x => { x with wanted := false, busy := false, async := false, age := false } with
    free := if (s.buf b).age then b :: s.free else s.free ++ [b]
    bcount := s.bcount + 1 }

/-- `(*bdevsw[bmajor(bp->b_dev)].d_strategy)(bp)`. -/
def strategy (s : Cache B) (b : ℕ) : Cache B := { s with io := s.io ++ [b] }

/-- `bwrite(bp)` until `iowait`. -/
def bwrite (s : Cache B) (b : ℕ) : Cache B :=
  (s.setBuf b fun x => { x with read := false, done := false, delwri := false }).strategy b

/-! ## `getblk` and its callers -/

/-- A read has ended: the buffer is the caller's. -/
def readDone (s : Cache B) (p b : ℕ) (k : Blk) : Cache B :=
  { s.setPc p .run with trace := .read k (s.buf b).bytes :: s.trace }

/-- The reads of `breada` start; the first is the one that is waited for. -/
def startReads (s : Cache B) (p sbp : ℕ) (k : Blk) (bps : List ℕ) : Cache B :=
  ((s.setPc p (.start sbp k bps)).setBuf sbp fun x =>
    { x with read := true, async := false }).strategy sbp

/-- The loop of `breada` over the read-ahead blocks, with `left` turns left. -/
def collect (s : Cache B) (p sbp : ℕ) (k : Blk) (bps : List ℕ) (rablkno left : ℕ) : Cache B :=
  match left with
  | 0 => s.startReads p sbp k bps
  | left + 1 =>
    s.setPc p (.getblk ⟨k.dev, c.ltopblk rablkno⟩ (.ahead sbp k bps (rablkno + 1) left))

/-- `getblk` returns a buffer of the block to the one who called it. -/
def got (s : Cache B) (p b : ℕ) (k : Blk) : Getter → Cache B
  | .getblk => s.setPc p .run
  | .bread =>
    if (s.buf b).done then s.readDone p b k
    else ((s.setPc p (.readWait b k)).setBuf b fun x => { x with read := true }).strategy b
  | .breada rablkno blkno =>
    if (s.buf b).done then s.readDone p b k
    else if rablkno.testBit 31 then s.collect c p b k [] (blkno + 1) (rablkno % 2 ^ 31)
    else s.collect c p b k [] rablkno 1
  | .ahead sbp k' bps rablkno left =>
    if (s.buf b).done then
      ((s.drop p b).brelse b).collect c p sbp k' bps rablkno left
    else s.collect c p sbp k' (bps ++ [b]) rablkno left

/-- A free buffer is given the block: the flags are cleared, and it is hashed anew. -/
def assign (s : Cache B) (b : ℕ) (k : Blk) : Cache B :=
  let chains := fun h => (s.hash h).erase b
  { s.setBuf b fun x =>
      { blk := some k, busy := true, done := false, read := false, delwri := false, async := false,
        wanted := false, stale := false, age := false, bytes := x.bytes } with
    hash := update chains (c.bhash k) (b :: chains (c.bhash k)) }

/-- The buffer of a block on its chain. -/
def find (s : Cache B) (k : Blk) : Option ℕ :=
  (s.hash (c.bhash k)).find? fun b => (s.buf b).blk = some k ∧ (s.buf b).stale = false

/-- `getblk(dev, blkno, bsize)` from `loop` on, until it sleeps, starts a write or returns. -/
def getblk (s : Cache B) (p : ℕ) (k : Blk) (g : Getter) : Cache B :=
  match s.find c k with
  | some b =>
    if (s.buf b).busy then
      (s.setBuf b fun x => { x with wanted := true }).setPc p (.sleepBuf b k g)
    else ((s.notavail b).give p b).got c p b k g
  | none =>
    match s.free with
    | [] => { s.setPc p (.sleepFree k g) with freeWanted := true }
    | b :: _ =>
      if (s.buf b).delwri then
        ((s.notavail b).setBuf b fun x => { x with async := true }).bwrite b
      else (((s.notavail b).assign c b k).give p b).got c p b k g

/-! ## The events -/

/-- The bytes of a buffer that is released by a write. -/
def store (s : Cache B) (b : ℕ) (bytes : B) : Cache B :=
  { s.setBuf b fun x => { x with bytes := bytes } with
    trace :=
      match (s.buf b).blk with
      | some k => .write k bytes :: s.trace
      | none => s.trace }

/-- `bwrite` by a process, which waits unless `B_ASYNC` is set. -/
def procWrite (s : Cache B) (p b : ℕ) : Cache B :=
  if (s.buf b).async then (s.drop p b).bwrite b else (s.setPc p (.writeWait b)).bwrite b

/-- `iodone(bp)`, after the transfer. -/
def iodone (s : Cache B) (b : ℕ) : Cache B :=
  let s :=
    match (s.buf b).blk with
    | none => s
    | some k =>
      if (s.buf b).read then s.setBuf b fun x => { x with bytes := s.disk k }
      else { s with disk := update s.disk k (s.buf b).bytes }
  let s := { s.setBuf b fun x => { x with done := true } with io := s.io.erase b }
  if (s.buf b).async then s.brelse b
  else (s.wakeBuf b).setBuf b fun x => { x with wanted := false }

end Cache

/-- What happens: a process calls a routine, with the bytes it has put into the buffer if that is
a write; a process goes on; a driver is done with a buffer. -/
inductive BioEvent (B : Type*)
  | getblk (p dev blkno : ℕ)
  | bread (p dev blkno : ℕ)
  | breada (p dev blkno rablkno : ℕ)
  | bwrite (p b : ℕ) (bytes : B)
  | bdwrite (p b : ℕ) (bytes : B)
  | bawrite (p b : ℕ) (bytes : B)
  | brelse (p b : ℕ)
  | go (p : ℕ)
  | iodone (b : ℕ)

namespace Cache

variable {B : Type*} (c : BioConf)

/-- A process goes on from where it is. -/
def go (s : Cache B) (p : ℕ) : Option (Cache B) :=
  match s.pc p with
  | .getblk k g => some (s.getblk c p k g)
  | .start sbp k bps =>
    match bps with
    | [] => some (s.setPc p (.readWait sbp k))
    | b :: bps =>
      some ((((s.setPc p (.start sbp k bps)).drop p b).setBuf b fun x =>
        { x with read := true, async := true }).strategy b)
  | .readWait b k => if (s.buf b).done then some (s.readDone p b k) else none
  | .writeWait b =>
    if (s.buf b).done then some (((s.setPc p .run).drop p b).brelse b) else none
  | _ => none

/-- An event.  A process calls a routine when it is in no other, and gives up only a buffer that it
has got. -/
def step (s : Cache B) : BioEvent B → Option (Cache B)
  | .getblk p dev blkno =>
    if s.pc p = .run then some (s.setPc p (.getblk ⟨dev, c.ltopblk blkno⟩ .getblk)) else none
  | .bread p dev blkno =>
    if s.pc p = .run then some (s.setPc p (.getblk ⟨dev, c.ltopblk blkno⟩ .bread)) else none
  | .breada p dev blkno rablkno =>
    if s.pc p = .run then
      some (s.setPc p (.getblk ⟨dev, c.ltopblk blkno⟩ (.breada rablkno blkno)))
    else none
  | .bwrite p b bytes =>
    if s.pc p = .run ∧ b ∈ s.held p then some ((s.store b bytes).procWrite p b) else none
  | .bdwrite p b bytes =>
    if s.pc p = .run ∧ b ∈ s.held p then
      some ((((s.store b bytes).setBuf b fun x =>
        { x with delwri := true, done := true }).drop p b).brelse b)
    else none
  | .bawrite p b bytes =>
    if s.pc p = .run ∧ b ∈ s.held p then
      some (((s.store b bytes).setBuf b fun x =>
        { x with async := if s.bcount > 4 then true else x.async }).procWrite p b)
    else none
  | .brelse p b =>
    if s.pc p = .run ∧ b ∈ s.held p then some ((s.drop p b).brelse b) else none
  | .go p => s.go c p
  | .iodone b => if b ∈ s.io then some (s.iodone b) else none

/-- The cache after `binit`, with anything in the buffers and on the disks. -/
def boot (disk : Blk → B) (bytes : ℕ → B) : Cache B where
  buf b :=
    { blk := none, busy := false, done := false, read := false, delwri := false, async := false,
      wanted := false, stale := false, age := false, bytes := bytes b }
  hash _ := []
  free := List.range c.vBuf
  freeWanted := false
  bcount := c.vBuf
  io := []
  disk := disk
  pc _ := .run
  held _ := []
  trace := []

end Cache

end Os
