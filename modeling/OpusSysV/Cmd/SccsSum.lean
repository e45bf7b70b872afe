import OpusSysV.Cmd.Sccs
import Mathlib

/-!
# Updates of SCCS files

An update writes the new file line by line with `putline` while `getline` reads the old one.  The sum of
all characters behind the first line is in the first line.

* `Sys.putline`, `Sys.getline`, `Sys.flushline`, `Sys.sinit` — the routines.
* `Sys.delta`, `Sys.rmchg` — the commands, as the calls that they make.
* `Job`, `runs` — one run of a command over several files.
-/

namespace Cmd.Sccs

open Lib

def HEAD : Char := 'h'
def STATS : Char := 's'

/-- A `char`, which is signed. -/
def chv (c : Char) : ℤ := if c.toNat < 128 then c.toNat else c.toNat - 256

def sum (s : Str) : ℤ := (s.map chv).sum

/-- An `int` that is printed as unsigned. -/
def unsigned (n : ℤ) : ℕ := (n % 4294967296).toNat

structure Stats where
  s_ins : ℤ
  s_del : ℤ
  s_unc : ℤ
  deriving DecidableEq, Repr

/-- The packet, `Xcreate`, and the x-file; `sfile` is what is in the s-file.  `given` has the strings
that `putline` has written, and is not in the source. -/
structure Sys where
  p_upd : Bool
  p_ihash : ℤ
  p_chash : ℤ
  p_nhash : ℤ
  p_slnno : ℕ
  p_wrttn : ℕ
  p_iop : Option Str
  p_line : Str
  p_chkeof : Bool
  p_reopen : Bool
  do_chksum : Bool
  sfile : Str
  Xcreate : Bool
  Xiop : Option Str
  given : List Str
  deriving DecidableEq, Repr

/-- What is in the first bytes of a file is replaced. -/
def overwrite (s file : Str) : Str := s ++ file.drop s.length

/-- Blanks in front become zeros. -/
def fill : Str → Str
  | ' ' :: p => '0' :: fill p
  | p => p

/-- `sprintf("%.05u")`. -/
def sprintf_05u (n : ℕ) : Str := (sprintf_u n).leftpad 5 '0'

/-- The statistics line. -/
def statsline (ins del unc : Str) : Str :=
  [CTLCHAR, STATS, ' '] ++ ins ++ ['/'] ++ del ++ ['/'] ++ unc ++ ['\n']

def Stats.line (st : Stats) : Str :=
  statsline (sprintf_05u (unsigned st.s_ins)) (sprintf_05u (unsigned st.s_del))
    (sprintf_05u (unsigned st.s_unc))

/-- What `flushline` adds for a number of the statistics. -/
def digits (s : Str) : ℤ := (s.map fun c => chv c - chv '0').sum

def Stats.digits (st : Stats) : ℤ :=
  Sccs.digits (sprintf_05u (unsigned st.s_ins)) + Sccs.digits (sprintf_05u (unsigned st.s_del)) +
    Sccs.digits (sprintf_05u (unsigned st.s_unc))

/-- The line with the sum. -/
def hashline (nhash : ℤ) : Str :=
  [CTLCHAR, HEAD] ++ fill ((sprintf_u (nhash % 65536).toNat).leftpad 5 ' ') ++ ['\n']

namespace Sys

/-- Before the first file. -/
def start : Sys where
  p_upd := false
  p_ihash := 0
  p_chash := 0
  p_nhash := 0
  p_slnno := 0
  p_wrttn := 0
  p_iop := none
  p_line := []
  p_chkeof := false
  p_reopen := false
  do_chksum := false
  sfile := []
  Xcreate := false
  Xiop := none
  given := []

/-! ## The routines -/

/-- `fputs(p, Xiop)`. -/
def fputs (s : Sys) (p : Str) : Sys :=
  { s with
    Xiop := s.Xiop.map (· ++ cstr p)
    p_nhash := if s.Xcreate then s.p_nhash + sum (cstr p) else s.p_nhash
    given := s.given ++ [cstr p] }

/-- `putline(pkt, newline)`; `p_wrttn` is a character. -/
def putline (s : Sys) (newline : Option Str) : Sys :=
  if s.p_upd = false then s
  else
    let s := if s.Xcreate then s else { s with Xiop := some [], given := [] }
    let s :=
      match newline with
      | some p => s.fputs p
      | none =>
        let s' := { s with p_wrttn := (s.p_wrttn + 1) % 256 }
        if s.p_wrttn = 0 then s'.fputs s.p_line else s'
    { s with Xcreate := true }

/-- The end of the file in `getline`; there is no result after `fatal`. -/
def atEof (s : Sys) : Option Sys :=
  let s := if s.p_reopen then s else { s with p_iop := none }
  if s.p_chkeof = false then none
  else if s.do_chksum ∧ (s.p_chash - s.p_ihash) % 65536 ≠ 0 then none
  else if s.p_reopen then
    some { s with
      p_iop := some s.sfile
      p_reopen := false
      p_slnno := 0
      p_ihash := 0
      p_chash := 0
      p_nhash := 0
      do_chksum := false }
  else some s

/-- `getline(pkt)`: whether there was a line. -/
def getline (s : Sys) : Option (Bool × Sys) :=
  let s := if s.p_wrttn = 0 then s.putline none else s
  match s.p_iop with
  | none => none
  | some file =>
    if file = [] then s.atEof.map fun s => (false, s)
    else
      let r := fgets (BUFSIZ - 1) file
      some (true, { s with
        p_iop := some r.2
        p_line := cstr r.1
        p_slnno := s.p_slnno + 1
        p_wrttn := 0
        p_chash := s.p_chash + sum (cstr r.1) })

def drainLoop : ℕ → Sys → Option Sys
  | 0, _ => none
  | k + 1, s =>
    match s.getline with
    | none => none
    | some (true, s) => drainLoop k s
    | some (false, s) => some s

/-- Lines are read up to the end of the file. -/
def drain (s : Sys) : Option Sys := drainLoop ((s.p_iop.getD []).length + 1) s

/-- `flushline(pkt, stats)`.  The arrays of the source have room for five digits, and more digits go past
their ends; here they are only printed. -/
def flushline (s : Sys) (stats : Option Stats) : Sys :=
  if s.p_upd = false then s
  else
    let s := s.putline none
    let s := { s with p_nhash := s.p_nhash + (stats.map Stats.digits).getD 0 }
    { s with
      Xiop := s.Xiop.map (overwrite (hashline s.p_nhash ++ (stats.map Stats.line).getD [])) }

/-- `xrm(pkt)`. -/
def xrm (s : Sys) : Sys := { s with Xiop := none, Xcreate := false }

/-- `sinit(pkt, file, 1)`. -/
def sinit (s : Sys) (file : Str) : Option Sys :=
  let s := { start with
    Xcreate := s.Xcreate
    Xiop := s.Xiop
    given := s.given
    sfile := file
    p_iop := some file
    p_wrttn := 1
    do_chksum := true }
  match s.getline with
  | some (true, s) =>
    match s.p_line with
    | c :: d :: p =>
      if c = CTLCHAR ∧ d = HEAD ∧ (satoi p).2.head? = some '\n' then
        some { s with p_ihash := (satoi p).1, p_chash := 0 }
      else none
    | _ => none
  | _ => none

end Sys

/-! ## The commands -/

/-- A call that a command makes, or what it does to the packet between two calls. -/
inductive Act
  | getline
  | putline (newline : Option Str)
  | wrttn (n : ℕ)
  /-- the line in the packet is changed -/
  | edit (line : Str)
  | chkeof
  | fatal
  deriving DecidableEq, Repr

/-- One file for `delta`: the calls up to where the base text is written; those of each try that is
given up, and of the last one, from the statistics line on; and the numbers of lines. -/
structure Delta where
  file : Str
  /-- the file could be locked -/
  lockit : Bool
  first : List Act
  tries : List (List Act)
  last : List Act
  orig : ℤ
  inserted : ℤ
  deleted : ℤ

def Delta.stats (d : Delta) : Stats := ⟨d.inserted, d.deleted, d.orig - d.deleted⟩

namespace Sys

def act (s : Sys) : Act → Option Sys
  | .getline => s.getline.map (·.2)
  | .putline newline => some (s.putline newline)
  | .wrttn n => some { s with p_wrttn := n % 256 }
  | .edit line => some { s with p_line := line }
  | .chkeof => some { s with p_chkeof := true }
  | .fatal => none

/-- The first line that `mkdelt` writes. -/
def headline0 : Str := [CTLCHAR, HEAD, '0', '0', '0', '0', '0', '\n']

/-- `newstats(pkt, str, "0")`. -/
def statsline0 : Str :=
  statsline ['0', '0', '0', '0', '0'] ['0', '0', '0', '0', '0'] ['0', '0', '0', '0', '0']

/-- One turn of the loop of `delta`. -/
def attempt (s : Sys) (acts : List Act) : Option Sys :=
  { s with p_upd := true, p_wrttn := 1 }.getline.bind fun (_, s) =>
    (exec act (({ s with p_wrttn := 1 }.putline headline0).putline statsline0) acts).bind fun s =>
      if s.p_iop.isSome then s.drain else some s

/-- What `delta` does before it tries again. -/
def retry (s : Sys) : Sys :=
  { s.xrm with p_iop := some s.sfile, p_slnno := 0, p_ihash := 0, p_chash := 0, p_nhash := 0 }

def attempts (last : List Act) : List (List Act) → Sys → Option Sys
  | [], s => s.attempt last
  | acts :: tries, s => (s.attempt acts).bind fun s => attempts last tries s.retry

/-- `delta`, behind `lockit`. -/
def deltaBody (s : Sys) (d : Delta) : Option Sys :=
  (exec act { s with p_reopen := true } d.first).bind fun s => s.drain.bind fun s =>
    (attempts d.last d.tries s).map (flushline · (some d.stats))

/-- `rmchg`, which is `rmdel` and `cdc`, behind `lockit`; the first call is that of `stats_ab`. -/
def rmchgBody (s : Sys) (file : Str) (acts : List Act) : Option Sys :=
  (s.sinit file).bind fun s => { s with p_upd := true }.getline.bind fun (_, s) =>
    (exec act s acts).bind fun s => { s with p_chkeof := true }.drain.map (flushline · none)

end Sys

/-- One file of a run. -/
inductive Job
  | delta (d : Delta)
  | rmchg (file : Str) (acts : List Act)

/-- The state behind `flushline`, when there is a new file, and that after `clean_up`. -/
def Job.run (s : Sys) : Job → Option Sys × Sys
  | .delta d =>
    match s.sinit d.file with
    | none => (none, s)
    | some s => if d.lockit then (s.deltaBody d, s.xrm) else (none, s)
  | .rmchg file acts => (s.rmchgBody file acts, s.xrm)

/-- The files for which a run writes a new one, each with the state behind `flushline`. -/
def runs : Sys → List Job → List (Job × Sys)
  | _, [] => []
  | s, j :: jobs =>
    let rest := runs (j.run s).2 jobs
    match (j.run s).1 with
    | none => rest
    | some t => (j, t) :: rest

end Cmd.Sccs
