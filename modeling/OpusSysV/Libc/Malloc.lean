import OpusSysV.Lib.Run

/-!
# The small blocks of the allocator

Requests of at most `maxfast` bytes in `lib/libc_m88k/port/gen/malloc.c`.  They are served out of
holding blocks, of which there is a circular queue for each size; a holding block keeps its freed
little blocks on a list that ends at the first one never handed out.

* `Mall.malloc`, `Mall.free` — the two routines, as far as small blocks go.  What the recursive
  calls for an ordinary block return is an argument.
* `Heap`, `step` — the allocator with its user: the little blocks that he was given and those
  that he has not freed since.
-/

namespace Libc

open Function

/-! ## `mallint.h` -/

def BUSY : ℕ := 1
def SMAL : ℕ := 2
def MINHEAD : ℕ := 8
def ALIGNSZ : ℕ := 8

/-- `LGROUND` and `HGROUND`, the ends of the lists. -/
def GROUND : ℕ := 0

/-- The offset of `space` in `struct holdblk`. -/
def SPACE : ℕ := 24

def SETSMAL (x : ℕ) : ℕ := x ||| SMAL
def TESTSMAL (x : ℕ) : Bool := x &&& SMAL != 0
def TESTBUSY (x : ℕ) : Bool := x &&& BUSY != 0
def SETALL (x : ℕ) : ℕ := x ||| (SMAL ||| BUSY)

/-- `x & ~SMAL`. -/
def CLRSMAL (x : ℕ) : ℕ := x ^^^ (x &&& SMAL)

/-- `x & ~BUSY`. -/
def CLRBUSY (x : ℕ) : ℕ := x ^^^ (x &&& BUSY)

/-- `x & ~(SMAL | BUSY)`. -/
def CLRALL (x : ℕ) : ℕ := x ^^^ (x &&& (SMAL ||| BUSY))

/-- `struct holdblk` without its space. -/
structure Holdblk where
  nexthblk : ℕ
  prevhblk : ℕ
  lfreeq : ℕ
  unused : ℕ
  blksz : ℕ
  deriving DecidableEq

/-- The parameters of the algorithm, as `mallopt` keeps them, such that no holding block is itself
a small block. -/
structure Mallopt where
  numlblks : ℕ
  fastct : ℕ
  grain : ℕ
  numlblks_gt : 1 < numlblks
  grain_pos : 0 < grain
  grain_dvd : ALIGNSZ ∣ grain
  holdsz_gt : fastct * grain < SPACE + (grain + MINHEAD) * numlblks

namespace Mallopt

def maxfast (o : Mallopt) : ℕ := o.fastct * o.grain

/-- `HOLDSZ(blksz)`: `sizeof(struct holdblk) - sizeof(int) + blksz*numlblks`. -/
def HOLDSZ (o : Mallopt) (blksz : ℕ) : ℕ := SPACE + blksz * o.numlblks

/-- The index of a request in `holdhead`. -/
def index (o : Mallopt) (nbytes : ℕ) : ℕ := (nbytes + o.grain - 1) / o.grain

/-- The size of the little blocks of an index, with their headers. -/
def size (o : Mallopt) (i : ℕ) : ℕ := i * o.grain + MINHEAD

/-- The values at the start. -/
def initial : Mallopt where
  numlblks := 100
  fastct := 6
  grain := ALIGNSZ
  numlblks_gt := by decide
  grain_pos := by decide
  grain_dvd := by decide
  holdsz_gt := by decide

end Mallopt

/-- What the routines keep about small blocks: `holdhead`, the holding block at an address, and
the header of the little block at an address. -/
structure Mall where
  change : Bool
  holdhead : ℕ → ℕ
  hold : ℕ → Holdblk
  header : ℕ → ℕ

namespace Mall

def setHold (s : Mall) (h : ℕ) (g : Holdblk → Holdblk) : Mall :=
  { s with hold := update s.hold h (g (s.hold h)) }

def setHeader (s : Mall) (lblk x : ℕ) : Mall :=
  { s with header := update s.header lblk x }

def setHead (s : Mall) (i h : ℕ) : Mall :=
  { s with holdhead := update s.holdhead i h }

/-! ## The queue of holding blocks -/

/-- The holding block is taken out of its current spot. -/
def takeOut (s : Mall) (holdblk : ℕ) : Mall :=
  let s := s.setHold (s.hold holdblk).nexthblk fun x =>
    { x with prevhblk := (s.hold holdblk).prevhblk }
  s.setHold (s.hold holdblk).prevhblk fun x => { x with nexthblk := (s.hold holdblk).nexthblk }

/-- The holding block is added in front of `oldhead`. -/
def addFront (s : Mall) (oldhead holdblk : ℕ) : Mall :=
  let s := s.setHold holdblk fun x => { x with nexthblk := oldhead }
  let s := s.setHold holdblk fun x => { x with prevhblk := (s.hold oldhead).prevhblk }
  let s := s.setHold oldhead fun x => { x with prevhblk := holdblk }
  s.setHold (s.hold holdblk).prevhblk fun x => { x with nexthblk := holdblk }

/-! ## `malloc` -/

/-- Before the first small block: `holdhead` gets its space, `table`, and its grounds.  There is no
check that the space was there. -/
def init (o : Mallopt) (s : Mall) (table : ℕ) : Option Mall :=
  if s.change then some s
  else if table = GROUND then none
  else some { s with
    change := true
    holdhead := fun i => if 1 ≤ i ∧ i < o.fastct + 1 then GROUND else s.holdhead i }

/-- The test for a free little block in the first holding block. -/
def hasSpace (s : Mall) (i : ℕ) : Bool :=
  s.holdhead i ≠ GROUND ∧ (s.hold (s.holdhead i)).lfreeq ≠ GROUND

/-- The little block `lfreeq` is taken. -/
def takeLblk (o : Mallopt) (s : Mall) (i : ℕ) : ℕ × Mall :=
  let holdblk := s.holdhead i
  let nb := o.size i
  let lblk := (s.hold holdblk).lfreeq
  let s :=
    if lblk < (s.hold holdblk).unused then
      let nextfree := CLRSMAL (s.header lblk)
      let s := s.setHold holdblk fun x => { x with lfreeq := nextfree }
      if nextfree = GROUND then s.setHead i (s.hold holdblk).nexthblk else s
    else if (s.hold holdblk).unused + nb < holdblk + o.HOLDSZ nb then
      s.setHold holdblk fun x => { x with unused := x.unused + nb, lfreeq := x.unused + nb }
    else
      let s := s.setHold holdblk fun x => { x with lfreeq := GROUND }
      s.setHead i (s.hold holdblk).nexthblk
  (lblk + MINHEAD, s.setHeader lblk (SETALL holdblk))

/-- A new holding block is put in front, and its first little block taken. -/
def newHold (o : Mallopt) (s : Mall) (i newhold : ℕ) : ℕ × Mall :=
  let holdblk := s.holdhead i
  let nb := o.size i
  let lblk := newhold + SPACE
  let s :=
    if holdblk ≠ GROUND then s.addFront holdblk newhold
    else s.setHold newhold fun x => { x with nexthblk := newhold, prevhblk := newhold }
  let s := s.setHead i newhold
  let s := s.setHold newhold fun x => { x with
    lfreeq := newhold + SPACE + nb
    unused := newhold + SPACE + nb
    blksz := nb - MINHEAD }
  (lblk + MINHEAD, s.setHeader lblk (SETALL newhold))

/-- `malloc(nbytes)` after the initialisation; `mem` is what the call for a holding block
returns. -/
def smallblk (o : Mallopt) (s : Mall) (nbytes mem : ℕ) : ℕ × Mall :=
  let i := o.index nbytes
  if s.hasSpace i then s.takeLblk o i
  else if mem = GROUND then (GROUND, s)
  else s.newHold o i mem

/-- `malloc(nbytes)` for `nbytes <= maxfast`. -/
def malloc (o : Mallopt) (s : Mall) (nbytes table mem : ℕ) : Option (ℕ × Mall) :=
  if nbytes = 0 then some (GROUND, s)
  else (s.init o table).map fun s => s.smallblk o nbytes mem

/-! ## `free` -/

/-- The holding block is moved to the front of its queue. -/
def moveFront (o : Mallopt) (s : Mall) (holdblk : ℕ) : Mall :=
  let offset := (s.hold holdblk).blksz / o.grain
  let oldhead := s.holdhead offset
  if oldhead ≠ holdblk then ((s.setHead offset holdblk).takeOut holdblk).addFront oldhead holdblk
  else s

/-- `free(ptr)`; an ordinary block is not freed here. -/
def free (o : Mallopt) (s : Mall) (ptr : ℕ) : Option Mall :=
  if ptr = 0 then some s
  else if TESTSMAL (s.header (ptr - MINHEAD)) then
    let lblk := CLRBUSY (ptr - MINHEAD)
    if TESTBUSY (s.header lblk) then
      let holdblk := CLRALL (s.header lblk)
      let s := s.setHeader lblk (SETSMAL (s.hold holdblk).lfreeq)
      let s := s.setHold holdblk fun x => { x with lfreeq := lblk }
      some (s.moveFront o holdblk)
    else some s
  else none

end Mall

/-! ## The allocator and its user -/

/-- The little block `j` of a holding block. -/
def lblkAt (h nb j : ℕ) : ℕ := h + SPACE + j * nb

/-- The allocator; the holding blocks obtained so far, each with the index of its size; the little
blocks ever given to the user, and those that he has and did not free. -/
structure Heap where
  mall : Mall
  blocks : List (ℕ × ℕ)
  given : List ℕ
  live : List ℕ

inductive HeapEvent
  | malloc (nbytes table mem : ℕ)
  | free (ptr : ℕ)

namespace Heap

/-- The ordinary block is aligned and shares no byte with the holding blocks there are. -/
def Fits (o : Mallopt) (u : Heap) (mem i : ℕ) : Prop :=
  ALIGNSZ ∣ mem ∧ ∀ b ∈ u.blocks,
    mem + o.HOLDSZ (o.size i) ≤ b.1 ∨ b.1 + o.HOLDSZ (o.size b.2) ≤ mem

instance (o : Mallopt) (u : Heap) (mem i : ℕ) : Decidable (u.Fits o mem i) := by
  unfold Fits
  infer_instance

/-- The user asks for a small block, or frees one that he was given at some time. -/
def step (o : Mallopt) (u : Heap) : HeapEvent → Option Heap
  | .malloc nbytes table mem =>
    let i := o.index nbytes
    if nbytes ≤ o.maxfast ∧ (mem ≠ GROUND → u.Fits o mem i) then
      let spaced := (u.mall.init o table).any fun s => s.hasSpace i
      (u.mall.malloc o nbytes table mem).map fun (r, t) =>
        if r = GROUND then { u with mall := t }
        else { u with
          mall := t
          blocks := if spaced then u.blocks else (mem, i) :: u.blocks
          given := (r - MINHEAD) :: u.given
          live := (r - MINHEAD) :: u.live }
    else none
  | .free ptr =>
    if ptr = 0 ∨ ptr - MINHEAD ∈ u.given then
      (u.mall.free o ptr).map fun t => { u with
        mall := t
        live := u.live.filter fun x => x ≠ ptr - MINHEAD }
    else none

/-- The user before his first call. -/
def start (s : Mall) : Heap := ⟨s, [], [], []⟩

/-- `malloc` takes the last little block of the first holding block while another one of that
holding block is free. -/
def Leaks (o : Mallopt) (u : Heap) : HeapEvent → Prop
  | .malloc nbytes _ _ =>
    let i := o.index nbytes
    let h := u.mall.holdhead i
    nbytes ≠ 0 ∧ u.mall.change = true ∧ u.mall.hasSpace i = true ∧
      (u.mall.hold h).lfreeq = lblkAt h (o.size i) (o.numlblks - 1) ∧
      ∃ j < o.numlblks - 1, lblkAt h (o.size i) j ∉ u.live
  | .free _ => False

instance (o : Mallopt) (u : Heap) (e : HeapEvent) : Decidable (u.Leaks o e) := by
  cases e <;> unfold Leaks <;> infer_instance

end Heap

end Libc
