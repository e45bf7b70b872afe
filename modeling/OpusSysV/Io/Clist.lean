import OpusSysV.Lib.Run
import OpusSysV.Lib.Ring
import Mathlib.Data.Int.Notation
import Mathlib.Logic.Function.Basic

/-!
# Character lists: `io/clist.c`

A character list is a chain of blocks of up to `CLSIZE` characters.  Characters are put at the
end and taken from the front one by one, or a whole block at a time; blocks that are not in use
are on a free list.

* `CBlock`, `CHead`, `CList` — a block, the head of the free list, the head of a list.
* `Clists` — all of them, and what the routines print and whom they wake.
* `getc`, `putc`, `getcf`, `putcf`, `getcb`, `putcb`, `cinit` — the routines, each of which runs
  under `splhi`.
* `Tty.step` — any order of calls, by callers that give back only blocks they have taken.
-/

namespace Io

open Lib Function

def CLSIZE : ℕ := 64

/-- `struct cblock`. -/
structure CBlock where
  c_next : Option ℕ
  c_first : ℕ
  c_last : ℕ
  c_data : ℕ → UInt8

/-- `struct chead`. -/
structure CHead where
  c_next : Option ℕ
  c_size : ℕ
  c_flag : Bool

/-- `struct clist`. -/
structure CList where
  c_cc : ℤ
  c_cf : Option ℕ
  c_cl : Option ℕ

/-- The blocks, `cfreelist`, `cfreecnt`, the lists, the counters that spare messages, the messages
and the number of calls of `wakeup(&cfreelist)`. -/
structure Clists (κ : Type*) where
  blk : ℕ → CBlock
  cfreelist : CHead
  cfreecnt : ℤ
  list : κ → CList
  putcocl : ℕ
  getcfocl : ℕ
  console : List String
  wakeups : ℕ

/-- The characters of a block that have not been taken. -/
def CBlock.chars (x : CBlock) : List UInt8 := row x.c_data x.c_first (x.c_last - x.c_first)

namespace Clists

variable {κ : Type*} [DecidableEq κ]

def setBlk (s : Clists κ) (b : ℕ) (x : CBlock) : Clists κ :=
  { s with blk := update s.blk b x }

def setList (s : Clists κ) (p : κ) (l : CList) : Clists κ :=
  { s with list := update s.list p l }

/-- `if (cfreelist.c_flag)`, with what follows it. -/
def wakeFree (s : Clists κ) : Clists κ :=
  if s.cfreelist.c_flag then
    { s with cfreelist := { s.cfreelist with c_flag := false }, wakeups := s.wakeups + 1 }
  else s

/-- `putcf(bp)`. -/
def putcf (s : Clists κ) (bp : ℕ) : Clists κ :=
  let s := s.setBlk bp { s.blk bp with c_next := s.cfreelist.c_next }
  wakeFree { s with cfreelist := { s.cfreelist with c_next := some bp } }

/-- `getc(p)`: the character or -1; `none` if it would follow a null pointer. -/
def getc (s : Clists κ) (p : κ) : Option (ℤ × Clists κ) :=
  let l := s.list p
  if 0 < l.c_cc then
    match l.c_cf with
    | none => none
    | some bp =>
      let x := s.blk bp
      let c : ℤ := (x.c_data x.c_first).toNat
      let s := s.setBlk bp { x with c_first := x.c_first + 1 }
      if x.c_first + 1 = x.c_last then
        let s := s.setList p
          ⟨l.c_cc - 1, x.c_next, if x.c_next = none then none else l.c_cl⟩
        -- the block goes to the free list the way `putcf` puts it there
        some (c, s.putcf bp)
      else some (c, s.setList p { l with c_cc := l.c_cc - 1 })
  else some (-1, s)

/-- The last lines of `putc(c, p)`: the character goes into the last block. -/
def addc (s : Clists κ) (c : UInt8) (p : κ) (bp : ℕ) : Clists κ :=
  let x := s.blk bp
  let s := s.setBlk bp
    { x with c_data := update x.c_data x.c_last c, c_last := x.c_last + 1 }
  s.setList p { s.list p with c_cc := (s.list p).c_cc + 1 }

/-- The first lines of `putc(c, p)`, where `bp` is the block to fill, if it has room. -/
def room (s : Clists κ) (p : κ) : Option ℕ :=
  match (s.list p).c_cl with
  | none => none
  | some bp => if (s.blk bp).c_last = s.cfreelist.c_size then none else some bp

/-- `putc` takes a block from the free list and puts it at the end. -/
def grow (s : Clists κ) (p : κ) (bp : ℕ) : Clists κ :=
  let s := { s with cfreelist := { s.cfreelist with c_next := (s.blk bp).c_next } }
  let s := s.setBlk bp { s.blk bp with c_next := none, c_first := 0, c_last := 0 }
  match (s.list p).c_cl with
  | none => s.setList p { s.list p with c_cf := some bp, c_cl := some bp }
  | some obp =>
    (s.setBlk obp { s.blk obp with c_next := some bp }).setList p
      { s.list p with c_cl := some bp }

/-- `putc(c, p)`; the integer is stored as a character. -/
def putc (s : Clists κ) (c : ℤ) (p : κ) : ℤ × Clists κ :=
  match s.room p with
  | some bp => (0, s.addc (UInt8.ofInt c) p bp)
  | none =>
    match s.cfreelist.c_next with
    | none =>
      let t := { s with putcocl := s.putcocl + 1 }
      if s.putcocl % 16 = 0 then
        (-1, { t with console := t.console ++ ["putc: out of clists"] })
      else (-1, t)
    | some bp => (0, (s.grow p bp).addc (UInt8.ofInt c) p bp)

/-- `getcf()`. -/
def getcf (s : Clists κ) : Option ℕ × Clists κ :=
  match s.cfreelist.c_next with
  | some bp =>
    let s := { s with cfreelist := { s.cfreelist with c_next := (s.blk bp).c_next } }
    (some bp, s.setBlk bp
      { s.blk bp with c_next := none, c_first := 0, c_last := s.cfreelist.c_size })
  | none =>
    let t := { s with getcfocl := s.getcfocl + 1 }
    if s.getcfocl % 16 = 0 then
      (none, { t with console := t.console ++ ["getcf: out of clists"] })
    else (none, t)

/-- `getcb(p)`. -/
def getcb (s : Clists κ) (p : κ) : Option ℕ × Clists κ :=
  let l := s.list p
  match l.c_cf with
  | none => (none, s)
  | some bp =>
    let x := s.blk bp
    (some bp, s.setList p
      ⟨l.c_cc - ((x.c_last : ℤ) - x.c_first), x.c_next, if x.c_next = none then none else l.c_cl⟩)

/-- `putcb(bp, p)`. -/
def putcb (s : Clists κ) (bp : ℕ) (p : κ) : Clists κ :=
  let l := s.list p
  let s := match l.c_cl with
    | none => s
    | some obp => s.setBlk obp { s.blk obp with c_next := some bp }
  let x := s.blk bp
  let s := s.setBlk bp { x with c_next := none }
  s.setList p ⟨l.c_cc + ((x.c_last : ℤ) - x.c_first),
    if l.c_cl = none then some bp else l.c_cf, some bp⟩

/-- The loop of `cinit`, from block `n` on. -/
def cinitLoop (s : Clists κ) (n : ℕ) : ℕ → Clists κ
  | 0 => s
  | k + 1 =>
    let s := s.setBlk n { s.blk n with c_next := s.cfreelist.c_next }
    cinitLoop { s with
      cfreelist := { s.cfreelist with c_next := some n }, cfreecnt := s.cfreecnt + 1 } (n + 1) k

/-- Memory before `cinit`. -/
def boot : Clists κ :=
  ⟨fun _ => ⟨none, 0, 0, fun _ => 0⟩, ⟨none, 0, false⟩, 0, fun _ => ⟨0, none, none⟩, 0, 0, [], 0⟩

/-- `cinit()` for `v.v_clist` blocks. -/
def cinit (v_clist : ℕ) : Clists κ :=
  let s := cinitLoop boot 0 v_clist
  { s with cfreelist := { s.cfreelist with c_size := CLSIZE } }

end Clists

/-- The lists with their callers: the blocks that callers have taken and not given back.  The
other fields are not in the source: what has been put on each list and what has been taken from
it. -/
structure Tty (κ : Type*) where
  lists : Clists κ
  held : List ℕ
  sent : κ → List UInt8
  got : κ → List UInt8

/-- A call, or what a caller does with a block that it has taken: it fills the block, or sets
`c_flag` and sleeps until there are free blocks. -/
inductive ClistEvent (κ : Type*)
  | getc (p : κ)
  | putc (c : ℤ) (p : κ)
  | getcf
  | putcf (bp : ℕ)
  | getcb (p : κ)
  | putcb (bp : ℕ) (p : κ)
  | fill (bp : ℕ) (first last : ℕ) (data : ℕ → UInt8)
  | await

namespace Tty

variable {κ : Type*} [DecidableEq κ]

/-- Characters are put on a list. -/
def send (s : Tty κ) (p : κ) (cs : List UInt8) : Tty κ :=
  { s with sent := update s.sent p (s.sent p ++ cs) }

/-- Characters are taken from a list. -/
def take (s : Tty κ) (p : κ) (cs : List UInt8) : Tty κ :=
  { s with got := update s.got p (s.got p ++ cs) }

/-- One call.  A block can be given back only by a caller that has it, and put on a list only if
it is not empty. -/
def step (s : Tty κ) : ClistEvent κ → Option (Tty κ)
  | .getc p =>
    (s.lists.getc p).map fun r =>
      if r.1 = -1 then { s with lists := r.2 }
      else { s with lists := r.2 }.take p [UInt8.ofInt r.1]
  | .putc c p =>
    let r := s.lists.putc c p
    some (if r.1 = -1 then { s with lists := r.2 }
      else { s with lists := r.2 }.send p [UInt8.ofInt c])
  | .getcf =>
    let r := s.lists.getcf
    some { s with lists := r.2, held := r.1.toList ++ s.held }
  | .putcf bp =>
    if bp ∈ s.held then some { s with lists := s.lists.putcf bp, held := s.held.erase bp }
    else none
  | .getcb p =>
    let r := s.lists.getcb p
    some ({ s with lists := r.2, held := r.1.toList ++ s.held }.take p
      (r.1.elim [] fun bp => (s.lists.blk bp).chars))
  | .putcb bp p =>
    let x := s.lists.blk bp
    if bp ∈ s.held ∧ x.c_first < x.c_last ∧ x.c_last ≤ CLSIZE then
      some ({ s with lists := s.lists.putcb bp p, held := s.held.erase bp }.send p x.chars)
    else none
  | .fill bp first last data =>
    if bp ∈ s.held then
      some { s with lists := s.lists.setBlk bp ⟨(s.lists.blk bp).c_next, first, last, data⟩ }
    else none
  | .await =>
    some { s with lists := { s.lists with
      cfreelist := { s.lists.cfreelist with c_flag := true } } }

/-- After `cinit`, nobody has a block. -/
def init (v_clist : ℕ) : Tty κ := ⟨Clists.cinit v_clist, [], fun _ => [], fun _ => []⟩

end Tty

end Io
