import OpusSysV.Lib.Word
import Mathlib.Logic.Function.Basic

/-!
# The merge phase of `sort`

The merge phase of `cmd/sort/sort.c` without `-u`: `rline`, `insert`, `merge` and the part of `main`
that decides which files are merged.

* `cmpa` — the comparison of two lines, up to their newlines.
* `Merge` — the buffers, the files that are open and the array `treep` that `insert` keeps sorted.
* `merge` — one merge, of the contents of some files.
* `passes`, `sortm` — the merges that `main` performs.  Files are known by their number: first the
  arguments, then the temporary files.
-/

namespace Cmd

open Lib Function

/-! ## Lines -/

abbrev Byte := UInt8

/-- The newline. -/
def NL : Byte := 10

/-- A `char` is signed. -/
def charVal (c : Byte) : ℤ := c.toInt8.toInt

/-- `cmpa(pa, pb)` of two lines without their newlines; positive if the first one comes first. -/
def cmpa (rflg : ℤ) : List Byte → List Byte → ℤ
  | [], [] => 0
  | [], _ :: _ => rflg
  | _ :: _, [] => -rflg
  | a :: pa, b :: pb =>
    if a = b then cmpa rflg pa pb else if charVal a < charVal b then rflg else -rflg

/-- The string in a buffer, and its part before the newline. -/
def cstr (s : List Byte) : List Byte := s.takeWhile (· ≠ 0)
def line (s : List Byte) : List Byte := s.takeWhile (· ≠ NL)

/-- What `fgets` reads with a size of one more, and the rest. -/
def fgets : ℕ → List Byte → List Byte × List Byte
  | 0, iop => ([], iop)
  | _, [] => ([], [])
  | n + 1, c :: iop =>
    if c = NL then ([c], iop)
    else
      let (s, iop) := fgets n iop
      (c :: s, iop)

/-- A string and its NUL are stored in a buffer. -/
def store (s buf : List Byte) : List Byte := s ++ 0 :: buf.drop (s.length + 1)

/-- `rline(iop, s)`: what it returns (`true` at the end of the file), the rest of the file and the
buffer.  A line that is too long ends the program. -/
def rline (maxrec : ℕ) (iop buf : List Byte) : Option (Bool × List Byte × List Byte) :=
  let (s, rest) := fgets (maxrec - 1) iop
  if s = [] then some (true, rest, buf)
  else
    let buf := store s buf
    let n := (cstr buf).length
    if n = 0 then some (true, rest, buf)
    else if buf[n - 1]? = some NL then some (false, rest, buf)
    else if n < maxrec - 1 then some (false, rest, buf.set n NL)
    else none

/-! ## One merge -/

/-- `rn` of the entries of `treep` from `tp` on (`rp` is buffer `rn`), the files that are open, the
buffers, the counters, and what was written. -/
structure Merge where
  treep : List ℕ
  tfile : ℕ → List Byte
  buf : ℕ → List Byte
  wasfirst : ℤ
  notfirst : ℤ
  bonus : ℤ
  os : List Byte

def cmpsave (n : ℕ) : ℤ := if n < 2 then 0 else (n + 1).log2

/-- The binary search of `insert` between `lop` and the entry before `hip`; `c` compares the first
entry with another one. -/
def search (c : ℕ → ℤ) : ℕ → ℕ → ℕ → ℕ → ℕ
  | 0, _, _, midp => midp
  | k + 1, lop, hip, midp =>
    if lop < hip then
      let midp := lop + (hip - 1 - lop) / 2
      if c midp = 0 then midp
      else if c midp < 0 then search c k (midp + 1) hip (midp + 1)
      else search c k lop midp midp
    else midp

namespace Merge

/-- What `(*compare)((*tp)->rp, tp[j]->rp)` returns. -/
def compareTo (compare : List Byte → List Byte → ℤ) (s : Merge) (j : ℕ) : ℤ :=
  compare (line (s.buf (s.treep.getD 0 0))) (line (s.buf (s.treep.getD j 0)))

/-- `insert(tp, n)`. -/
def insert (compare : List Byte → List Byte → ℤ) (s : Merge) : Merge :=
  match s.treep with
  | [] => s
  | hold :: rest =>
    let n := rest.length + 1
    if s.notfirst < s.wasfirst ∧ 2 < n ∧ 0 ≤ s.compareTo compare 1 then
      { s with wasfirst := long (s.wasfirst + s.bonus) }
    else
      let midp := search (s.compareTo compare) n 1 n 0
      if 1 < midp then
        { s with
          treep := rest.take (midp - 1) ++ hold :: rest.drop (midp - 1)
          notfirst := long (s.notfirst + 1) }
      else { s with wasfirst := long (s.wasfirst + s.bonus) }

/-- The loop that opens the files and reads their first lines; `nf` files have one so far. -/
def openFiles (maxrec : ℕ) : List (List Byte) → ℕ → Merge → Option Merge
  | [], _, s => some s
  | f :: fs, nf, s =>
    (rline maxrec f (s.buf nf)).bind fun (eof, iop, buf) =>
      let s := { s with
        tfile := update s.tfile nf iop
        buf := update s.buf nf buf }
      if eof then openFiles maxrec fs nf s
      else openFiles maxrec fs (nf + 1) { s with treep := s.treep ++ [nf] }

/-- The loop that sorts the entries, from the last one on. -/
def sortTree (compare : List Byte → List Byte → ℤ) : List ℕ → Merge → Merge
  | [], s => { s with treep := [] }
  | [i], s => { s with treep := [i] }
  | i :: is, s =>
    let s := sortTree compare is s
    insert compare { s with treep := i :: s.treep }

/-- The loop that writes the first line and reads the next one, at most `k` times. -/
def mergeLoop (compare : List Byte → List Byte → ℤ) (maxrec : ℕ) : ℕ → Merge → Option Merge
  | k, s =>
    match s.treep with
    | [] => some s
    | i :: rest =>
      match k with
      | 0 => none
      | k + 1 =>
        (rline maxrec (s.tfile i) (s.buf i)).bind fun (eof, iop, buf) =>
          let s := { s with
            os := s.os ++ cstr (s.buf i)
            tfile := update s.tfile i iop
            buf := update s.buf i buf }
          if eof then
            mergeLoop compare maxrec k { s with
              treep := rest
              bonus := if rest = [] then s.bonus else cmpsave rest.length }
          else mergeLoop compare maxrec k (s.insert compare)

/-- `merge(a, b)`, where the files have the contents `fs`. -/
def merge (compare : List Byte → List Byte → ℤ) (maxrec : ℕ) (fs : List (List Byte)) (s : Merge) :
    Option Merge :=
  (openFiles maxrec fs 0 { s with treep := [], os := [] }).bind fun s =>
    let s := sortTree compare s.treep s
    mergeLoop compare maxrec (fs.flatten.length + 1) { s with bonus := cmpsave s.treep.length }

end Merge

/-! ## The schedule -/

/-- The buffers at the start: memory that was never used. -/
def Merge.init (maxrec : ℕ) : Merge :=
  ⟨[], fun _ => [], fun _ => List.replicate maxrec 0, 0, 0, 0, []⟩

end Cmd
