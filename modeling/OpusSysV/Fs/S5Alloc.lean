import Mathlib
import OpusSysV.Lib.Run
import OpusSysV.Lib.Word

/-!
# The free blocks of an s5 file system: `fs/s5/s5alloc.c`

The super block holds up to `NICFREE` addresses of free blocks.  The first of them is
the block that holds the next array of addresses, or 0 at the end of the chain:
`s5alloc` takes addresses from the end of the array and refills it from the block in
slot 0 when it takes that one; `s5free` adds addresses and spills a full array into the
block it frees.

A call runs until it sleeps: on `s_flock`, which is held while the array is moved to or
from the disk, or in `bread`, `getblk` or `bwrite`.  Calls in progress are a list, and
an event says which of them goes on.  The disk is what `bread` would read: a buffer that
has not been written back counts as written.
-/

namespace Fs

open Lib Function

/-- `NICFREE`. -/
def NICFREE : ℕ := 50

/-- `struct fblk`: what the allocator sees in a block.  The arrays are functions of their
index, which is kept below `NICFREE`. -/
structure Fblk where
  dfNfree : ℤ
  dfFree : ℕ → ℤ

/-- The size of the i-list and of the volume, in blocks; block 0 is not a data block. -/
structure Volume where
  sIsize : ℤ
  sFsize : ℤ
  isize_pos : 0 < sIsize

/-- What the allocator changes in `struct filsys`. -/
structure Filsys where
  sNfree : ℤ
  sFree : ℕ → ℤ
  sFlock : ℕ
  sTfree : ℤ

/-- Where a call of `s5alloc` or `s5free` sleeps. -/
inductive Pc
  /-- `s5alloc`, on `s_flock`. -/
  | allocWait
  /-- `s5alloc`, in `bread` of the block it took, holding `s_flock`. -/
  | allocRead (bno : ℤ)
  /-- `s5alloc`, in `getblk` of the block it took. -/
  | allocBuf (bno : ℤ)
  /-- `s5free`, on `s_flock`. -/
  | freeWait (bno : ℤ)
  /-- `s5free`, in `getblk` of the block it spills into, holding `s_flock`. -/
  | freeBuf (bno : ℤ)
  /-- `s5free`, in `bwrite` of that block, holding `s_flock`. -/
  | freeWrite (bno : ℤ)
  deriving DecidableEq, Repr

/-- How an event ends: the call that runs sleeps or returns. -/
inductive Outcome
  | sleeps (pc : Pc)
  /-- `s5alloc` returns the buffer of the block. -/
  | gives (bno : ℤ)
  /-- `s5alloc` returns `NULL` with `ENOSPC`. -/
  | enospc
  /-- `s5free` has put the block on the free list. -/
  | freed (bno : ℤ)
  /-- `s5free` returns at once, the address being bad. -/
  | badFree (bno : ℤ)
  /-- The owner of a block has written it. -/
  | wrote
  deriving DecidableEq, Repr

/-- The super block and the blocks of the disk. -/
structure Disk where
  fp : Filsys
  blk : ℤ → Fblk

variable (vol : Volume)

/-! ## The pieces of `s5alloc` and `s5free` between two sleeps -/

/-- `s5badblock(fp, bn, dev)`. -/
def s5badblock (bn : ℤ) : Bool := bn < vol.sIsize ∨ bn ≥ vol.sFsize

/-- The loop of `s5alloc`, with `s_nfree` addresses left: the address it ends with and the
`s_nfree` then, or `none` for `goto nospace`. -/
def takeFree (sFree : ℕ → ℤ) : ℕ → Option (ℤ × ℕ)
  | 0 => none
  | n + 1 =>
    if sFree n = 0 then none
    else if s5badblock vol (sFree n) then takeFree sFree n
    else some (sFree n, n)

namespace Disk

/-- `nospace:`. -/
def nospace (d : Disk) : Outcome × Disk :=
  (.enospc, { d with fp := { d.fp with sNfree := 0, sTfree := 0 } })

/-- From the check for a bad free count up to `getblk`. -/
def allocCheck (d : Disk) (bno : ℤ) : Outcome × Disk :=
  if d.fp.sNfree ≤ 0 ∨ d.fp.sNfree > (NICFREE : ℤ) then d.nospace else (.sleeps (.allocBuf bno), d)

/-- `s5alloc` from the test of `s_flock` on. -/
def s5alloc (d : Disk) : Outcome × Disk :=
  if d.fp.sFlock ≠ 0 then (.sleeps .allocWait, d)
  else
    match takeFree vol d.fp.sFree d.fp.sNfree.toNat with
    | none => d.nospace
    | some (bno, n) =>
      let d : Disk := { d with fp := { d.fp with sNfree := n } }
      if d.fp.sNfree ≤ 0 then
        (.sleeps (.allocRead bno), { d with fp := { d.fp with sFlock := d.fp.sFlock + 1 } })
      else d.allocCheck bno

/-- `s5alloc` after `bread`: the array is filled from the block, and `s_flock` given up. -/
def allocRead (d : Disk) (bno : ℤ) : Outcome × Disk :=
  let b := d.blk bno
  { d with fp := { d.fp with sNfree := short b.dfNfree, sFree := b.dfFree, sFlock := 0 } }.allocCheck
    bno

/-- `s5alloc` after `getblk`: `clrbuf` and the count of free blocks. -/
def allocBuf (d : Disk) (bno : ℤ) : Outcome × Disk :=
  (.gives bno,
    { fp := { d.fp with sTfree := if d.fp.sTfree ≠ 0 then d.fp.sTfree - 1 else d.fp.sTfree }
      blk := update d.blk bno ⟨0, fun _ => 0⟩ })

/-- The end of `s5free`: the address goes into the array. -/
def freePush (d : Disk) (bno : ℤ) : Outcome × Disk :=
  (.freed bno, { d with fp := { d.fp with
    sFree := update d.fp.sFree d.fp.sNfree.toNat bno
    sNfree := d.fp.sNfree + 1
    sTfree := d.fp.sTfree + 1 } })

/-- `s5free` from the test of `s_flock` on. -/
def s5free (d : Disk) (bno : ℤ) : Outcome × Disk :=
  if d.fp.sFlock ≠ 0 then (.sleeps (.freeWait bno), d)
  else if s5badblock vol bno then (.badFree bno, d)
  else
    let fp := if d.fp.sNfree ≤ 0 then
        { d.fp with sNfree := 1, sFree := update d.fp.sFree 0 0 }
      else d.fp
    if fp.sNfree ≥ (NICFREE : ℤ) then
      (.sleeps (.freeBuf bno), { d with fp := { fp with sFlock := fp.sFlock + 1 } })
    else freePush { d with fp := fp } bno

/-- `s5free` after `getblk`: the array is copied into the block. -/
def freeBuf (d : Disk) (bno : ℤ) : Outcome × Disk :=
  (.sleeps (.freeWrite bno),
    { fp := { d.fp with sNfree := 0 }
      blk := update d.blk bno ⟨d.fp.sNfree, d.fp.sFree⟩ })

/-- `s5free` after `bwrite`: `s_flock` is given up. -/
def freeWrite (d : Disk) (bno : ℤ) : Outcome × Disk :=
  freePush { d with fp := { d.fp with sFlock := 0 } } bno

/-- A sleeping call goes on. -/
def goOn (d : Disk) : Pc → Outcome × Disk
  | .allocWait => d.s5alloc vol
  | .allocRead bno => d.allocRead bno
  | .allocBuf bno => d.allocBuf bno
  | .freeWait bno => d.s5free vol bno
  | .freeBuf bno => d.freeBuf bno
  | .freeWrite bno => d.freeWrite bno

end Disk

/-! ## Calls in any order -/

/-- A file system with the calls in progress on it and the blocks that are allocated: those
`s5alloc` has returned and nobody has freed since. -/
structure S5State where
  disk : Disk
  calls : List Pc
  alloc : List ℤ

/-- The call sleeps on, or is over. -/
def Outcome.calls : Outcome → List Pc
  | .sleeps pc => [pc]
  | _ => []

/-- The block that becomes allocated. -/
def Outcome.given : Outcome → List ℤ
  | .gives bno => [bno]
  | _ => []

/-- What happens next: a call of `s5alloc`, a call of `s5free` for an allocated block, the
owner of an allocated block writes it, or the `i`-th call in progress wakes up. -/
inductive S5Event
  | s5alloc
  | s5free (bno : ℤ)
  | write (bno : ℤ) (b : Fblk)
  | wake (i : ℕ)

/-- The event, with how it ends. -/
def S5State.outcome (s : S5State) : S5Event → Option (Outcome × S5State)
  | .s5alloc =>
    let r := s.disk.s5alloc vol
    some (r.1, ⟨r.2, s.calls ++ r.1.calls, r.1.given ++ s.alloc⟩)
  | .s5free bno =>
    if bno ∈ s.alloc then
      let r := s.disk.s5free vol bno
      some (r.1, ⟨r.2, s.calls ++ r.1.calls, r.1.given ++ s.alloc.erase bno⟩)
    else none
  | .write bno b =>
    if bno ∈ s.alloc then
      some (.wrote, { s with disk := { s.disk with blk := update s.disk.blk bno b } })
    else none
  | .wake i =>
    match s.calls[i]? with
    | none => none
    | some pc =>
      let r := s.disk.goOn vol pc
      some (r.1, ⟨r.2, s.calls.take i ++ r.1.calls ++ s.calls.drop (i + 1), r.1.given ++ s.alloc⟩)

/-- One event. -/
def S5State.step (s : S5State) (e : S5Event) : Option S5State := (s.outcome vol e).map Prod.snd

end Fs
