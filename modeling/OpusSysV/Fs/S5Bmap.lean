import OpusSysV.Fs.S5Ialloc
import OpusSysV.Lib.Radix

/-!
# The blocks of a file: `s5bmap` of `fs/s5/s5subr.c` and `s5itrunc` of `fs/s5/s5iget.c`

An inode has ten addresses of data blocks and three of a single, a double and a triple
indirect block.  A block of the file system is several buffers of 1024 bytes, which the
routines address one by one, each with its own arithmetic.

* `S5File` — the addresses of an inode, the buffers of the device and the free blocks.
* `s5alloc`, `s5bmap` — the map from an offset to a buffer, with allocation.
* `s5tloop`, `s5itrunc` — the blocks given back, in the order of the source.

`s5alloc` takes the free blocks in some order, the one of the list; that no block is free twice
is what `s5alloc_conserves` says of the chain of free blocks.  What `s5free` writes into a block,
if the array of the super block is full, is a parameter.
-/

namespace Fs

open Lib Function

/-- `NADDR`. -/
def NADDR : ℕ := 13

/-- A volume smaller than 2^31 bytes, so that no address or byte count below wraps. -/
structure DataVol extends Ilist where
  sFsize : ℕ
  sIsize_pos : 0 < sIsize
  bytes_lt : sFsize * bsize < 2 ^ 31

namespace DataVol

variable (fs : DataVol)

/-- `FsBSHIFT(bsize)`. -/
def FsBSHIFT : ℕ := Nat.log2 fs.bsize

/-- `FsNINDIR(bsize)`: the addresses in a block. -/
def FsNINDIR : ℕ := fs.bsize / 4

/-- `FsNSHIFT(bsize)`. -/
def FsNSHIFT : ℕ := Nat.log2 (fs.bsize / 4)

/-- `FsNMASK(bsize)`. -/
def FsNMASK : ℕ := fs.bsize / 4 - 1

/-- `FsPTOL(bsize, b)`. -/
def FsPTOL (b : ℕ) : ℕ := if fs.FsLRG then b >>> 1 else b

/-- `LTOPBLK(blkno, bsize)` for a buffer. -/
def LTOPBLK (blkno : ℕ) : ℕ := blkno * (fs.FsBSIZE >>> 9)

/-- `s5badblock(fp, bn, dev)`. -/
def s5badblock (bn : ℕ) : Bool := bn < fs.sIsize ∨ bn ≥ fs.sFsize

end DataVol

/-- The types of files that have blocks. -/
inductive Ifmt
  | ifreg
  | ifdir
  | ififo
  deriving DecidableEq, Repr

/-- An inode and its device: the addresses, the words of the buffers, the free blocks in the
order in which `s5alloc` takes them.  `taken` is not in the source: the blocks that `s5alloc` has
given to the file, each with the address of the buffer it cleared. -/
structure S5File where
  type : Ifmt
  addr : ℕ → ℕ
  iSize : ℕ
  buf : ℕ → ℕ → ℕ
  free : List ℕ
  taken : List (ℕ × ℕ)

/-- What `s5bmap` returns: a block, -1 for a hole or the end of the file, or -1 and an error. -/
inductive Bmap
  | blk (nb : ℕ)
  | hole
  | efbig
  | enospc
  deriving DecidableEq, Repr

namespace S5File

variable (fs : DataVol)

/-- `s5alloc(mp)`: the `b_blkno` of the buffer it returns, which it has cleared.  Bad blocks are
skipped. -/
def s5alloc (s : S5File) : Option (ℕ × S5File) :=
  match s.free.dropWhile fs.s5badblock with
  | [] => none
  | bno :: rest =>
    let blkno := bno * (fs.bsize / 1024)
    some (fs.LTOPBLK blkno, { s with
      free := rest
      buf := update s.buf blkno fun _ => 0
      taken := (bno, blkno) :: s.taken })

/-- `for (mblks …; mblks > 0; mblks--) { bp = getblk(dev, clrblk, 1024); clrbuf(bp); … clrblk++; }` -/
def clear : ℕ → ℕ → S5File → S5File
  | 0, _, s => s
  | mblks + 1, clrblk, s =>
    clear mblks (clrblk + 1) { s with buf := update s.buf clrblk fun _ => 0 }

/-- A block is allocated in `s5bmap`: its number, after its buffers were cleared. -/
def newBlock (s : S5File) : Option (ℕ × S5File) :=
  match s.s5alloc fs with
  | none => none
  | some (blkno, s) =>
    let nb := if fs.bsize > 1024 then fs.FsPTOL (blkno / (fs.bsize / 1024)) else fs.FsPTOL blkno
    let clrblk := nb * fs.bsize / 1024
    some (nb, s.clear (fs.bsize / 1024 - 1) (clrblk + 1))

/-- "determine how many levels of indirection": `j`, `sh` and `bn` at the end of the loop. -/
def levels (nshift : ℕ) : ℕ → ℕ → ℕ → ℕ → Option (ℕ × ℕ × ℕ)
  | 0, _, _, _ => none
  | j + 1, sh, nb, bn =>
    let sh := sh + nshift
    let nb := nb <<< nshift
    if bn < nb then some (j + 1, sh, bn) else levels nshift j sh nb (bn - nb)

/-- "fetch through the indirect blocks", with `n` levels left. -/
def fetch (readflg : Bool) (bn : ℕ) : ℕ → ℕ → ℕ → S5File → Bmap × S5File
  | 0, _, nb, s => (.blk nb, s)
  | n + 1, sh, nb, s =>
    let sh := sh - fs.FsNSHIFT
    let i := (bn >>> sh) &&& fs.FsNMASK
    let blk := nb * (fs.bsize / 1024) + (i >>> 8)
    let i := i &&& 255
    let nb := s.buf blk i
    if nb = 0 then
      if readflg then (.hole, s)
      else
        match s.newBlock fs with
        | none => (.enospc, s)
        | some (nb, s) =>
          fetch readflg bn n sh nb
            { s with buf := update s.buf blk (update (s.buf blk) i nb) }
    else fetch readflg bn n sh nb s

/-- An address of the inode, allocated if it is zero. -/
def address (readflg : Bool) (i : ℕ) (s : S5File) : Bmap × S5File :=
  if s.addr i = 0 then
    if readflg then (.hole, s)
    else
      match s.newBlock fs with
      | none => (.enospc, s)
      | some (nb, s) => (.blk nb, { s with addr := update s.addr i nb })
  else (.blk (s.addr i), s)

/-- The block of the file that holds block `bn` of it. -/
def block (readflg : Bool) (bn : ℕ) (s : S5File) : Bmap × S5File :=
  if bn < NADDR - 3 then s.address fs readflg bn
  else
    match levels fs.FsNSHIFT 3 0 1 (bn - (NADDR - 3)) with
    | none => (.efbig, s)
    | some (j, sh, bn) =>
      match s.address fs readflg (NADDR - j) with
      | (.blk nb, s) => s.fetch fs readflg bn (4 - j) sh nb
      | r => r

/-- `s5bmap(ip, readflg)` at an offset, for this many bytes, with `u_limit`. -/
def s5bmap (readflg : Bool) (uOffset uCount uLimit : ℕ) (s : S5File) : Bmap × S5File :=
  let bn := uOffset >>> fs.FsBSHIFT
  -- the offset is negative
  if uOffset ≥ 2 ^ 31 then (.efbig, s)
  else
    let sz := min uCount (fs.FsBSIZE - uOffset % fs.FsBSIZE)
    let rem := if s.type = .ififo then s.iSize else s.iSize - uOffset
    if ¬ readflg ∧ s.type = .ifreg ∧ uOffset ≥ uLimit <<< 9 % 2 ^ 32 then (.efbig, s)
    else if readflg ∧ min sz rem = 0 then (.hole, s)
    else
      match s.block fs readflg bn with
      | (.blk nb, s) =>
        if fs.bsize > 1024 then
          (.blk (nb * (fs.bsize / 1024) + ((uOffset >>> 10) &&& (fs.bsize / 1024 - 1))), s)
        else (.blk nb, s)
      | r => r

/-! ## Truncation -/

/-- The buffers while blocks are freed, and the calls of `s5free` so far. -/
structure Freeing where
  buf : ℕ → ℕ → ℕ
  freed : List ℕ

/-- `s5free(mp, bno)`; `spill` is what it writes into the block, if the array of free blocks is
full. -/
def Freeing.s5free (spill : ℕ → Option (ℕ → ℕ)) (x : Freeing) (bno : ℕ) : Freeing :=
  if fs.s5badblock bno then x
  else
    let blkno := if fs.bsize > 1024 then bno * (fs.bsize / 1024) else bno
    { buf :=
        match spill bno with
        | none => x.buf
        | some words => update x.buf blkno words
      freed := x.freed ++ [bno] }

/-- The loop of `s5tloop` over the first `n` entries of block `bn`; `free` is what is done with
the address in one.  The buffer with an entry is read again before it is looked at. -/
def tloop (free : ℕ → Freeing → Freeing) (bn : ℕ) : ℕ → Freeing → Freeing
  | 0, x => x
  | i + 1, x =>
    let nb := x.buf (bn * (fs.bsize / 1024) + (i >>> 8)) (i &&& 255)
    tloop free bn i (if nb = 0 then x else free nb x)

/-- `s5tloop(mp, bn, f1, f2)`. -/
def s5tloop (spill : ℕ → Option (ℕ → ℕ)) (f1 f2 : Bool) (bn : ℕ) (x : Freeing) : Freeing :=
  let loop := fun free bn x =>
    Freeing.s5free fs spill (tloop fs free bn fs.FsNINDIR x) bn
  let single := loop fun nb x => x.s5free fs spill nb
  if f1 then if f2 then loop (loop single) bn x else loop single bn x else single bn x

/-- The loop of `s5itrunc` over the saved addresses, with `i` left. -/
def truncLoop (spill : ℕ → Option (ℕ → ℕ)) (save : ℕ → ℕ) : ℕ → Freeing → Freeing
  | 0, x => x
  | i + 1, x =>
    let bn := save i
    truncLoop spill save i <|
      if bn = 0 then x
      else if i = NADDR - 3 then s5tloop fs spill false false bn x
      else if i = NADDR - 2 then s5tloop fs spill true false bn x
      else if i = NADDR - 1 then s5tloop fs spill true true bn x
      else x.s5free fs spill bn

/-- `s5itrunc(ip)`: the blocks it frees, in this order, and the file without them. -/
def s5itrunc (spill : ℕ → Option (ℕ → ℕ)) (s : S5File) : List ℕ × S5File :=
  if s.type = .ififo then ([], s)
  else
    let x := truncLoop fs spill s.addr NADDR ⟨s.buf, []⟩
    (x.freed, { s with addr := fun _ => 0, iSize := 0, buf := x.buf })

/-! ## Histories of a file -/

/-- An inode without blocks, on a device where no block is free twice. -/
structure Fresh (s : S5File) : Prop where
  addr : ∀ t, s.addr t = 0
  taken : s.taken = []
  nodup : s.free.Nodup

end S5File

/-- What happens to a file: a call of `s5bmap`, after which a writer fills the buffer with its
words, and a change of the size. -/
inductive FileEvent
  | s5bmap (readflg : Bool) (uOffset uCount uLimit : ℕ) (words : ℕ → ℕ)
  | setSize (iSize : ℕ)

/-- An event; each can happen at any time. -/
def S5File.step (fs : DataVol) (s : S5File) : FileEvent → Option S5File
  | .s5bmap readflg uOffset uCount uLimit words =>
    match s.s5bmap fs readflg uOffset uCount uLimit with
    | (.blk nb, s) =>
      some (if readflg then s else { s with buf := update s.buf nb words })
    | (_, s) => some s
  | .setSize iSize => some { s with iSize := iSize }

end Fs
