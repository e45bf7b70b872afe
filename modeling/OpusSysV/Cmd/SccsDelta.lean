import OpusSysV.Cmd.SccsText

/-!
# `delta`

`delta` reads the base text from the file, has it compared with the new text, and writes a file in which
the brackets of the new delta are set at the differences.

* `Edit` — what is to be done.
* `Pkt.before`, `Pkt.after`, `Pkt.insert`, `Pkt.delete` — the brackets.
* `getdiff` — the next difference.
* `mkdelt`, `delta` — the new entries, and the new file.
-/

namespace Cmd.Sccs

/-- The entry of the p-file, the null flag, the time, and the lines of the g-file.  `bdiff` gives the
differences of two texts; `include`, `exclude` and `ignore` lists are not there. -/
structure Edit where
  pf_gsid : Sid
  pf_nsid : Sid
  pf_date : Int32
  nullflag : Bool
  Timenow : Int32
  gfile : List Str
  bdiff : List Str → List Str → Str

/-! ## The entries of the table -/

/-- The null deltas that `mkdelt` writes behind the entry `dt`. -/
def nullDeltas (opred : ℕ) : ℕ → Deltab → List Deltab
  | 0, _ => []
  | ser_inc + 1, dt =>
    if ser_inc = 0 then []
    else
      let dt := { dt with
        d_sid := { dt.d_sid with s_rel := dt.d_sid.s_rel - 1 }
        d_serial := dt.d_serial - 1
        d_pred := if ser_inc ≠ 1 then dt.d_pred - 1 else opred }
      dt :: nullDeltas opred ser_inc dt

def nulldel (e : Edit) : Bool :=
  e.nullflag ∧ e.pf_gsid.s_rel + 1 < e.pf_nsid.s_rel ∧ e.pf_nsid.s_br = 0 ∧ e.pf_nsid.s_seq = 0 ∧
    e.pf_gsid.s_br = 0 ∧ e.pf_gsid.s_seq = 0

def serInc (e : Edit) : ℕ := if nulldel e then e.pf_nsid.s_rel - e.pf_gsid.s_rel else 1

/-- The serial number of the new delta. -/
def newser (f : SFile) (e : Edit) : ℕ := f.maxser + serInc e

/-- `mkdelt`: the entries in front of the table. -/
def mkdelt (f : SFile) (e : Edit) : List Deltab :=
  let opred := f.sidtoser e.pf_gsid
  let dt : Deltab := {
    d_sid := e.pf_nsid
    d_serial := newser f e
    d_pred := if nulldel e then newser f e - 1 else opred
    d_datetime := e.Timenow
    d_type := 'D'
    ixg := [] }
  dt :: if nulldel e then nullDeltas opred (serInc e) dt else []

/-! ## Brackets -/

/-- `sprintf("%c%c %u\n")`. -/
def ctlline (iord : Char) (ser : ℕ) : Str := CTLCHAR :: iord :: ' ' :: (sprintf_u ser ++ ['\n'])

namespace Pkt

def beforeLoop : ℕ → Pkt → Option Pkt
  | 0, t => some t
  | k + 1, t =>
    match t.readmod with
    | none => none
    | some (false, t) => some t
    | some (true, t) => beforeLoop k t

/-- `before(pkt, n)`; each line of the text adds 1 to `p_glnno`. -/
def before (t : Pkt) (n : ℕ) : Option Pkt := beforeLoop (n - t.p_glnno) t

/-- `after(pkt, n)`. -/
def after (t : Pkt) (n : ℕ) : Option Pkt :=
  (t.before n).map fun t => if t.p_glnno = n then t.putline none else t

/-- `delete(pkt, linenum, n, ser)`. -/
def delete (t : Pkt) (linenum n ser : ℕ) : Option Pkt :=
  (t.before linenum).bind fun t =>
    ((t.putline (some (ctlline DEL ser))).after (linenum + n - 1)).map fun t =>
      t.putline (some (ctlline END ser))

end Pkt

/-! ## Differences -/

/-- The pipe from `bdiff`, and the static variables of `getdiff`. -/
structure Diff where
  rest : Str
  chg_num : ℕ
  chg_ln : ℕ

/-- `rddiff(s, 512)`. -/
def rddiff (rest : Str) : Option (Str × Str) :=
  if rest = [] then none else some (cstr (fgets 511 rest).1, (fgets 511 rest).2)

/-- `skipline(lp, num)`. -/
def skipline : ℕ → Str → Str
  | 0, rest => rest
  | num + 1, rest => skipline num (((rddiff rest).map (·.2)).getD [])

/-- `linerange(cp, low, high)`: the numbers, and what comes behind them. -/
def linerange (cp : Str) : ℕ × ℕ × Str :=
  let (low, cp) := satoi cp
  match cp with
  | ',' :: cp => (low, satoi cp)
  | cp => (low, low, cp)

/-- A difference: `INS` or `DEL`, the number of the line, and how many lines. -/
structure Change where
  type : Char
  linenum : ℕ
  num_lines : ℕ

/-- `highline - lowline + 1`, when that is not negative. -/
def numLines (lowline highline : ℕ) : Option ℕ :=
  if highline + 1 < lowline then none else some (highline + 1 - lowline)

/-- `getdiff(type, plinenum)`; there is no result where the source leaves the number of lines without a
value, or where it is negative. -/
def getdiff (d : Diff) : Option (Option Change × Diff) :=
  match rddiff d.rest with
  | none => some (none, d)
  | some (p, rest) =>
    if p.head? = some '-' then some (some ⟨INS, d.chg_ln, d.chg_num⟩, { d with rest := rest })
    else
      let (lowline, highline, p) := linerange p
      match p with
      | 'd' :: _ =>
        (numLines lowline highline).map fun n =>
          (some ⟨DEL, lowline, n⟩, { d with rest := skipline n rest })
      | 'a' :: p =>
        let (low, high, _) := linerange p
        (numLines low high).map fun n => (some ⟨INS, lowline, n⟩, { d with rest := rest })
      | 'c' :: p =>
        let (low, high, _) := linerange p
        (numLines lowline highline).bind fun n => (numLines low high).map fun chg_num =>
          (some ⟨DEL, lowline, n⟩, ⟨skipline n rest, chg_num, lowline⟩)
      | _ => none

/-- The lines that `insert` copies; there is no result at the end of the pipe. -/
def insertLoop : ℕ → Pkt → Str → Option (Pkt × Str)
  | 0, t, rest => some (t, rest)
  | n + 1, t, rest =>
    match rddiff rest with
    | none => none
    | some (str, rest) => insertLoop n (t.putline (some (str.drop 2))) rest

/-- `insert(pkt, linenum, n, ser)`. -/
def Pkt.insert (t : Pkt) (linenum n ser : ℕ) (rest : Str) : Option (Pkt × Str) :=
  (t.after linenum).bind fun t =>
    (insertLoop n (t.putline (some (ctlline INS ser))) rest).map fun (t, rest) =>
      (t.putline (some (ctlline END ser)), rest)

/-- The loop over the differences. -/
def diffLoop (newser : ℕ) : ℕ → Pkt → Diff → Option Pkt
  | 0, _, _ => none
  | k + 1, t, d =>
    match getdiff d with
    | none => none
    | some (none, _) => some t
    | some (some c, d) =>
      if c.num_lines = 0 then some t
      else if c.type = INS then
        (t.insert c.linenum c.num_lines newser d.rest).bind fun (t, rest) =>
          diffLoop newser k t { d with rest := rest }
      else (t.delete c.linenum c.num_lines newser).bind fun t => diffLoop newser k t d

/-! ## The command -/

/-- The second pass over the body. -/
def newBody (f : SFile) (code : ℕ → Code) (newser : ℕ) (bdiff : Str) : Option (List Str) :=
  (diffLoop newser (bdiff.length + 1) (Pkt.start code f.maxser true f.body) ⟨bdiff, 0, 0⟩).bind
    fun t => if t.p_iop.isSome then t.text.map fun (_, t) => t.out else some t.out

/-- `delta`, for one file. -/
def delta (f : SFile) (e : Edit) : Option SFile :=
  let ser := f.sidtoser e.pf_gsid
  if ser = 0 ∨ f.sidtoser e.pf_nsid ≠ 0 then none
  else
    (setup f ser e.pf_date).bind fun ap =>
      (Pkt.start (fun n => (ap n).a_code) f.maxser false f.body).text.bind fun (dfile, _) =>
        (newBody f (fun n => (ap n).a_code) (newser f e) (e.bdiff dfile e.gfile)).bind fun body =>
          if e.gfile.any fun line => line.head? = some CTLCHAR then none
          else some ⟨mkdelt f e ++ f.table, body⟩

end Cmd.Sccs
