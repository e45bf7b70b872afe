import OpusSysV.Cmd.Sccs
import Mathlib.Data.Finset.Basic
import Mathlib.Logic.Function.Basic

/-!
# The text of a delta

An SCCS file has a table of deltas, and a body with the text of all of them.  In the body brackets tell
which delta has inserted lines and which has deleted them.

* `SFile` — the file; `SFile.idel` — the table as it is used.
* `setup` — which deltas apply to a given one.
* `Pkt.readmod` — the next line of the text.
* `SFile.text` — the whole text.
-/

namespace Cmd.Sccs

open Function

def BLANKS : List Char := [' ', '\t']
def INS : Char := 'I'
def DEL : Char := 'D'
def END : Char := 'E'

/-! ## The table -/

structure Sid where
  s_rel : ℕ
  s_lev : ℕ
  s_br : ℕ
  s_seq : ℕ
  deriving DecidableEq, Repr

inductive IxgType
  | INCLUDE
  | EXCLUDE
  | IGNORE
  deriving DecidableEq, Repr

/-- A list of deltas that are included, excluded or ignored. -/
structure Ixg where
  i_type : IxgType
  i_ser : List ℕ
  deriving DecidableEq, Repr

/-- An entry of the table, with its lists; `d_type` is `D`, or `R` for a delta that is removed. -/
structure Deltab where
  d_sid : Sid
  d_serial : ℕ
  d_pred : ℕ
  d_datetime : Int32
  d_type : Char
  ixg : List Ixg
  deriving DecidableEq

/-- The table, the newest entry first, and the lines of the body. -/
structure SFile where
  table : List Deltab
  body : List Str
  deriving DecidableEq

/-- What `dodelt` keeps of an entry. -/
structure Idel where
  i_sid : Sid
  i_ixg : List Ixg
  i_pred : ℕ
  i_datetime : Int32
  deriving DecidableEq

def Idel.zero : Idel := ⟨⟨0, 0, 0, 0⟩, [], 0, 0⟩

namespace SFile

def maxser (f : SFile) : ℕ := (f.table.head?.map Deltab.d_serial).getD 0

/-- `dodelt`, for one entry. -/
def enterDelta (idel : ℕ → Idel) (dt : Deltab) : ℕ → Idel :=
  if dt.d_type = 'D' then
    update idel dt.d_serial
      ⟨dt.d_sid, (idel dt.d_serial).i_ixg ++ dt.ixg, dt.d_pred, dt.d_datetime⟩
  else idel

/-- `dodelt`. -/
def idel (f : SFile) : ℕ → Idel := f.table.foldl enterDelta fun _ => Idel.zero

def sidtoserLoop (idel : ℕ → Idel) (sid : Sid) : ℕ → ℕ
  | 0 => 0
  | n + 1 => if (idel (n + 1)).i_sid = sid then n + 1 else sidtoserLoop idel sid n

/-- `sidtoser(sp, pkt)`. -/
def sidtoser (f : SFile) (sid : Sid) : ℕ := sidtoserLoop f.idel sid f.maxser

end SFile

/-! ## Which deltas apply -/

inductive Code
  | SX_EMPTY
  | APPLY
  | NOAPPLY
  deriving DecidableEq, Repr

structure Apply where
  a_inline : Bool
  a_code : Code
  a_reason : ℕ
  deriving DecidableEq, Repr

def INCL : ℕ := 1
def EXCL : ℕ := 2
def CUTOFF : ℕ := 4
def IGNR : ℕ := 64

/-- `condset(ap, code, reason)`. -/
def condset (ap : Apply) (code : Code) (reason : ℕ) : Apply :=
  if code = .SX_EMPTY then { ap with a_reason := ap.a_reason ||| reason }
  else if ap.a_code = .SX_EMPTY then
    { ap with a_code := code, a_reason := ap.a_reason ||| reason }
  else ap

/-- `ixgsetup`, for one list. -/
def ixgOne (ap : ℕ → Apply) (cur : Ixg) : ℕ → Apply :=
  let (code, reason) : Code × ℕ :=
    match cur.i_type with
    | .INCLUDE => (.APPLY, INCL)
    | .EXCLUDE => (.NOAPPLY, EXCL)
    | .IGNORE => (.SX_EMPTY, IGNR)
  cur.i_ser.foldl (fun ap n => update ap n (condset (ap n) code reason)) ap

/-- `ixgsetup(ap, ixgp)`. -/
def ixgsetup (ap : ℕ → Apply) (ixg : List Ixg) : ℕ → Apply := ixg.foldl ixgOne ap

/-- `setup`, for delta `n`; there is no result after `fmterr`. -/
def setupOne (idel : ℕ → Idel) (cutoff : Int32) (n : ℕ) (ap : ℕ → Apply) : Option (ℕ → Apply) :=
  let ixg (ap : ℕ → Apply) : ℕ → Apply :=
    if (ap n).a_code = .APPLY then ixgsetup ap (idel n).i_ixg else ap
  if (ap n).a_inline then
    if n ≠ 1 ∧ (idel n).i_pred = 0 then none
    else
      let ap := update ap (idel n).i_pred { ap (idel n).i_pred with a_inline := true }
      if cutoff < (idel n).i_datetime then some (ixg (update ap n (condset (ap n) .NOAPPLY CUTOFF)))
      else some (ixg (update ap n (condset (ap n) .APPLY 0)))
  else some (ixg (update ap n (condset (ap n) .NOAPPLY 0)))

def setupLoop (idel : ℕ → Idel) (cutoff : Int32) : ℕ → (ℕ → Apply) → Option (ℕ → Apply)
  | 0, ap => some ap
  | n + 1, ap => (setupOne idel cutoff (n + 1) ap).bind (setupLoop idel cutoff n)

/-- `setup(pkt, serial)`, with `p_cutoff`. -/
def setup (f : SFile) (serial : ℕ) (cutoff : Int32) : Option (ℕ → Apply) :=
  setupLoop f.idel cutoff f.maxser (update (fun _ => ⟨false, .SX_EMPTY, 0⟩) serial ⟨true, .SX_EMPTY, 0⟩)

/-! ## The queue -/

inductive Keep
  | NULL
  | YES
  | NO
  deriving DecidableEq, Repr

structure Queue where
  q_sernum : ℕ
  q_keep : Keep
  q_iord : Char
  deriving DecidableEq, Repr

/-- `addq(pkt, ser, keep, iord)`; at the end of the queue the source looks at address 0. -/
def addq : List Queue → Queue → Option (List Queue)
  | [], q => some [q]
  | cur :: rest, q =>
    if cur.q_sernum ≤ q.q_sernum then
      if cur.q_sernum = q.q_sernum then none else some (q :: cur :: rest)
    else (addq rest q).map (cur :: ·)

/-- `remq(pkt, ser)`. -/
def remq : List Queue → ℕ → Option (List Queue)
  | [], _ => none
  | cur :: rest, ser => if cur.q_sernum = ser then some rest else (remq rest ser).map (cur :: ·)

/-- `setkeep(pkt)`: whether text is kept. -/
def setkeep : List Queue → Bool
  | [] => false
  | q :: rest => if q.q_keep = .NULL then setkeep rest else q.q_keep = .YES

/-- The letter and the number of a control line. -/
def parse (line : Str) : Option (Char × ℕ) :=
  match line with
  | c :: iord :: p =>
    if c = CTLCHAR ∧ (iord = INS ∨ iord = DEL ∨ iord = END) then
      some (iord, (satoi (p.dropWhile (· ∈ BLANKS))).1)
    else none
  | _ => none

/-- The setting of the keep switch for a bracket. -/
def keepOf (code : ℕ → Code) (iord : Char) (ser : ℕ) : Keep :=
  if code ser = .APPLY then if iord = INS then .YES else .NO
  else if iord = INS then .NO else .NULL

/-- What a bracket does to the queue. -/
def bracket (code : ℕ → Code) (q : List Queue) (iord : Char) (ser : ℕ) : Option (List Queue) :=
  if iord = END then remq q ser else addq q ⟨ser, keepOf code iord ser, iord⟩

/-! ## Reading the body -/

/-- The packet, in the body of the file; `out` is the body of the x-file. -/
structure Pkt where
  p_apply : ℕ → Code
  maxser : ℕ
  p_upd : Bool
  p_iop : Option (List Str)
  p_line : Str
  p_wrttn : Bool
  p_q : List Queue
  p_keep : Bool
  p_glnno : ℕ
  out : List Str

namespace Pkt

/-- `putline(pkt, newline)`. -/
def putline (t : Pkt) (newline : Option Str) : Pkt :=
  if t.p_upd = false then t
  else
    match newline with
    | some p => { t with out := t.out ++ [p] }
    | none => if t.p_wrttn then t else { t with out := t.out ++ [t.p_line], p_wrttn := true }

/-- `getline(pkt)`: whether there was a line. -/
def getline (t : Pkt) : Option (Bool × Pkt) :=
  let t := if t.p_wrttn then t else t.putline none
  match t.p_iop with
  | none => none
  | some [] => some (false, { t with p_iop := none })
  | some (line :: file) => some (true, { t with p_iop := some file, p_line := line, p_wrttn := false })

/-- `readmod`, for a control line. -/
def control (t : Pkt) : Option Pkt :=
  (parse t.p_line).bind fun (iord, ser) =>
    if 0 < ser ∧ ser ≤ t.maxser then
      (bracket t.p_apply t.p_q iord ser).map fun q => { t with p_q := q, p_keep := setkeep q }
    else none

def readmodLoop : ℕ → Pkt → Option (Bool × Pkt)
  | 0, _ => none
  | k + 1, t =>
    match t.getline with
    | none => none
    | some (false, t) => if t.p_q = [] then some (false, t) else none
    | some (true, t) =>
      if t.p_line.head? = some CTLCHAR then t.control.bind (readmodLoop k)
      else if t.p_keep then some (true, { t with p_glnno := t.p_glnno + 1 })
      else readmodLoop k t

/-- `readmod(pkt)`: whether there was a line of the text. -/
def readmod (t : Pkt) : Option (Bool × Pkt) := readmodLoop ((t.p_iop.getD []).length + 1) t

/-- The lines of the text up to the end, and the packet then. -/
def textLoop : ℕ → Pkt → Option (List Str × Pkt)
  | 0, _ => none
  | k + 1, t =>
    match t.readmod with
    | none => none
    | some (false, t) => some ([], t)
    | some (true, t) => (textLoop k t).map fun (ls, u) => (t.p_line :: ls, u)

/-- `while (readmod(&gpkt))`, with the lines. -/
def text (t : Pkt) : Option (List Str × Pkt) := textLoop ((t.p_iop.getD []).length + 1) t

/-- At the beginning of the body. -/
def start (code : ℕ → Code) (maxser : ℕ) (upd : Bool) (body : List Str) : Pkt where
  p_apply := code
  maxser := maxser
  p_upd := upd
  p_iop := some body
  p_line := []
  p_wrttn := true
  p_q := []
  p_keep := false
  p_glnno := 0
  out := []

end Pkt

/-- The text of a delta, as `setup` and `readmod` give it. -/
def SFile.text (f : SFile) (serial : ℕ) (cutoff : Int32) : Option (List Str) :=
  (setup f serial cutoff).bind fun ap =>
    (Pkt.start (fun n => (ap n).a_code) f.maxser false f.body).text.map (·.1)

end Cmd.Sccs
