import Mathlib
import OpusSysV.Lib.Ring

/-!
# Pipes on an s5 file system: `s5readi` and `s5writei` of `fs/s5/s5rdwri.c`

The bytes of a pipe are kept in the first `PIPSIZ` bytes of its file, used as a ring:
`i_size` of them from `s5i_frptr` on.  A call works with the inode locked and gives the
lock up where it sleeps for data or for room, so only one call runs at a time; it runs
one piece at an event: a test of its `while`, one turn of its loop over blocks, or what
comes after the loop.

`Env` is what a piece meets: whether the copy from or to the user faults, whether a block
can be read or allocated, and what a buffer holds that `getblk` returns, or whose delayed
write was cancelled.
-/

namespace Fs

open Lib

/-- `BSIZE`. -/
def BSIZE : ℕ := 512

/-- `NFADDR*BSIZE`. -/
def PIPSIZ : ℕ := 10 * BSIZE

/-- `FsBSIZE(m_bsize)`, for the block sizes of 512 bytes and of 1024 and more. -/
structure BlockSize where
  bsize : ℕ
  bsize_eq : bsize = 512 ∨ bsize = 1024

abbrev Byte := UInt8

inductive Errno
  | EIO
  | EAGAIN
  | EFAULT
  | EINVAL
  | ENOSPC
  | EPIPE
  deriving DecidableEq, Repr

/-- The inode of a pipe: which of its blocks are allocated, and the bytes in them as read
through the buffers. -/
structure Inode where
  iSize : ℤ
  frptr : ℕ
  fwptr : ℕ
  frcnt : ℕ
  fwcnt : ℕ
  addr : ℕ → Bool
  byte : ℕ → Byte

/-- The part of the user structure that a call uses, with its `usave` and `n`; `uBase` are the
bytes that are still to be written. -/
structure User where
  uCount : ℕ
  uOffset : ℕ
  uBase : List Byte
  uError : Option Errno
  fndelay : Bool
  fnonb : Bool
  usave : ℕ
  n : ℕ

/-- Where a call is: at the test of `while (ip->i_size == 0)`, at the top of the loop over
blocks, or after it; and the same places of `s5writei`. -/
inductive Place
  | readWhile
  | readDo
  | readEnd
  | writeWhile
  | writeDo
  | writeEnd
  deriving DecidableEq, Repr

structure Call where
  place : Place
  u : User

/-- What a piece of a call meets. -/
structure Env where
  /-- The copy fails after so many bytes. -/
  fault : Option ℕ
  /-- The block cannot be read. -/
  resid : Bool
  nospace : Bool
  junk : ℕ → Byte

/-- How a piece ends: the call goes on, sleeps with the inode unlocked, or returns. -/
inductive Next
  | goOn (c : Call)
  | sleep (c : Call)
  | ret (e : Option Errno)

/-- What a piece does: the bytes it has taken from a writer and handed to a reader with it. -/
structure Piece where
  ip : Inode
  next : Next
  taken : List Byte
  delivered : List Byte

/-- A piece that moves no bytes. -/
def Piece.still (ip : Inode) (next : Next) : Piece := ⟨ip, next, [], []⟩

/-! ## `s5readi` -/

/-- `while (ip->i_size == 0)`. -/
def readWhile (ip : Inode) (u : User) : Piece :=
  if ip.iSize = 0 then
    if ip.fwcnt = 0 then .still ip (.ret none)
    else if u.fndelay then .still ip (.ret none)
    else if u.fnonb then .still ip (.ret (some .EAGAIN))
    else .still ip (.sleep ⟨.readWhile, u⟩)
  else .still ip (.goOn ⟨.readDo, { u with uOffset := ip.frptr }⟩)

/-- The `n` and the `on` of a turn that reads: as `s5bmap` sets `u_pbsize` and `u_pboff`. -/
def readSize (bsize : ℕ) (ip : Inode) (u : User) : ℕ :=
  min (min (bsize - u.uOffset % bsize) u.uCount) ip.iSize.toNat

/-- One turn of the loop over blocks of `s5readi`. -/
def readDo (bsize : ℕ) (ip : Inode) (u : User) (env : Env) : Piece :=
  let on := u.uOffset % bsize
  let n := readSize bsize ip u
  if n = 0 ∨ ip.addr (u.uOffset / bsize) = false then .still ip (.goOn ⟨.readEnd, u⟩)
  else
    let b0 := u.uOffset - on
    -- `if (bp->b_resid) n = 0`
    let n := if env.resid then 0 else n
    let fault : Bool := n ≠ 0 ∧ env.fault ≠ none
    let delivered := if fault then [] else row ip.byte u.uOffset n
    let u : User :=
      if fault then { u with uError := some .EFAULT }
      else { u with
        uOffset := u.uOffset + n
        uCount := u.uCount - n
        uError := if env.resid then some Errno.EIO else u.uError }
    -- `bad:`
    let iSize := ip.iSize - n
    let u : User := { u with uOffset := if u.uOffset ≥ PIPSIZ then 0 else u.uOffset }
    -- the delayed write of a block that has been read to its end is cancelled
    let cancel : Bool := on + n = bsize ∧ iSize < (PIPSIZ : ℤ) - bsize
    let ip : Inode := { ip with
      iSize := iSize
      byte := fun i => if cancel ∧ b0 ≤ i ∧ i < b0 + bsize then env.junk i else ip.byte i }
    let place : Place := if u.uError = none ∧ u.uCount ≠ 0 ∧ n ≠ 0 then .readDo else .readEnd
    ⟨ip, .goOn ⟨place, u⟩, [], delivered⟩

/-- After the loop of `s5readi`. -/
def readEnd (ip : Inode) (u : User) : Piece :=
  .still (if ip.iSize ≠ 0 then { ip with frptr := u.uOffset } else { ip with frptr := 0, fwptr := 0 })
    (.ret u.uError)

/-! ## `s5writei` -/

/-- `while ((u.u_count+ip->i_size) > PIPSIZ)`, an unsigned sum, with what comes before and
after it. -/
def writeWhile (ip : Inode) (u : User) : Piece :=
  if ((u.uCount : ℤ) + ip.iSize) % 2 ^ 32 > PIPSIZ ∧ ip.frcnt ≠ 0 then
    if u.uCount > PIPSIZ ∧ ip.iSize < PIPSIZ then
      let uCount := (PIPSIZ - ip.iSize).toNat
      .still ip (.goOn ⟨.writeDo, { u with
        uCount := uCount, usave := u.uCount - uCount, uOffset := ip.fwptr, n := 0 }⟩)
    else if u.fndelay then .still ip (.ret none)
    else if u.fnonb then .still ip (.ret (some .EAGAIN))
    else .still ip (.sleep ⟨.writeWhile, u⟩)
  else if ip.frcnt = 0 then .still ip (.ret (some .EPIPE))
  else .still ip (.goOn ⟨.writeDo, { u with usave := 0, uOffset := ip.fwptr, n := 0 }⟩)

/-- The `n` of a turn that writes. -/
def writeSize (bsize : ℕ) (u : User) : ℕ := min (bsize - u.uOffset % bsize) u.uCount

/-- Whether a turn that writes takes its buffer by `getblk`, without reading the block. -/
def getsBlk (bsize : ℕ) (ip : Inode) (u : User) : Bool :=
  writeSize bsize u = bsize ∨ (u.uOffset % bsize = 0 ∧ ip.iSize < (PIPSIZ : ℤ) - bsize)

/-- One turn of the loop over blocks of `s5writei`. -/
def writeDo (bsize : ℕ) (ip : Inode) (u : User) (env : Env) : Piece :=
  if u.uError ≠ none ∨ u.uCount = 0 then .still ip (.goOn ⟨.writeEnd, u⟩)
  else
    let n := writeSize bsize u
    let bn := u.uOffset / bsize
    let b0 := u.uOffset - u.uOffset % bsize
    if ip.addr bn = false ∧ env.nospace then
      .still ip (.goOn ⟨.writeEnd, { u with uError := if u.n ≠ 0 then none else some .ENOSPC }⟩)
    else
      -- `bread` sets `u_error`, which is not looked at before the copy
      let eio : Bool := getsBlk bsize ip u = false ∧ env.resid
      let old : ℕ → Byte := fun i =>
        if getsBlk bsize ip u then env.junk i else if ip.addr bn then ip.byte i else 0
      let copied := (env.fault.map fun k => min k n).getD n
      let new : ℕ → Byte := fun i =>
        if eio then env.junk i
        else if u.uOffset ≤ i ∧ i < u.uOffset + copied then u.uBase.getD (i - u.uOffset) 0
        else old i
      let ip : Inode := { ip with
        iSize := ip.iSize + n
        addr := Function.update ip.addr bn true
        byte := fun i => if b0 ≤ i ∧ i < b0 + bsize then new i else ip.byte i }
      let taken := if env.fault = none then u.uBase.take n else []
      let u : User :=
        if env.fault ≠ none then { u with uError := some .EFAULT }
        else { u with
          uOffset := u.uOffset + n
          uCount := u.uCount - n
          uBase := u.uBase.drop n
          uError := if eio then some Errno.EIO else u.uError }
      let u : User := { u with uOffset := if u.uOffset = PIPSIZ then 0 else u.uOffset, n := n }
      ⟨ip, .goOn ⟨.writeDo, u⟩, taken, []⟩

/-- After the loop of `s5writei`, with `goto floop` for the rest of a large write. -/
def writeEnd (ip : Inode) (u : User) : Piece :=
  let ip := { ip with fwptr := u.uOffset }
  if u.uError = none ∧ u.usave ≠ 0 then
    if u.fnonb ∧ ip.iSize = (PIPSIZ : ℤ) then .still ip (.ret none)
    else .still ip (.goOn ⟨.writeWhile, { u with uCount := u.usave }⟩)
  else .still ip (.ret u.uError)

/-- The next piece of a call. -/
def piece (bsize : ℕ) (ip : Inode) (c : Call) (env : Env) : Piece :=
  match c.place with
  | .readWhile => readWhile ip c.u
  | .readDo => readDo bsize ip c.u env
  | .readEnd => readEnd ip c.u
  | .writeWhile => writeWhile ip c.u
  | .writeDo => writeDo bsize ip c.u env
  | .writeEnd => writeEnd ip c.u

/-! ## Calls in any order -/

/-- A pipe with the call that has the inode locked, the calls asleep on it, and the bytes
taken from writers and handed to readers so far. -/
structure Pipe where
  ip : Inode
  locked : Option Call
  asleep : List Call
  taken : List Byte
  delivered : List Byte

/-- A process calls `s5readi` or `s5writei` with the inode locked, the call that has it locked
runs a piece, or a sleeping one gets the lock. -/
inductive PipeEvent
  | read (uCount : ℕ) (uOffset : ℤ) (fndelay fnonb : Bool)
  | write (uBase : List Byte) (uOffset : ℤ) (fndelay fnonb : Bool)
  | go (env : Env)
  | wake (i : ℕ)

/-- The user structure at the start of a call. -/
def User.init (uCount : ℕ) (uBase : List Byte) (fndelay fnonb : Bool) : User :=
  ⟨uCount, 0, uBase, none, fndelay, fnonb, 0, 0⟩

/-- The state after a piece. -/
def Pipe.after (s : Pipe) (p : Piece) : Pipe :=
  { ip := p.ip
    locked := match p.next with
      | .goOn c => some c
      | _ => none
    asleep := match p.next with
      | .sleep c => s.asleep ++ [c]
      | _ => s.asleep
    taken := s.taken ++ p.taken
    delivered := s.delivered ++ p.delivered }

/-- One event; `u_count` is an unsigned word. -/
def Pipe.step (bs : BlockSize) (s : Pipe) : PipeEvent → Option Pipe
  | .read uCount uOffset fndelay fnonb =>
    if s.locked.isNone ∧ uCount < 2 ^ 32 then
      if uCount = 0 then some s
      else if uOffset < 0 then some s
      else some { s with locked := some ⟨.readWhile, .init uCount [] fndelay fnonb⟩ }
    else none
  | .write uBase uOffset fndelay fnonb =>
    if s.locked.isNone ∧ uBase.length < 2 ^ 32 then
      if uOffset < 0 then some s
      else some { s with locked := some ⟨.writeWhile, .init uBase.length uBase fndelay fnonb⟩ }
    else none
  | .go env => s.locked.map fun c => s.after (piece bs.bsize s.ip c env)
  | .wake i =>
    if s.locked.isNone then
      s.asleep[i]?.map fun c => { s with locked := some c, asleep := s.asleep.eraseIdx i }
    else none

end Fs
