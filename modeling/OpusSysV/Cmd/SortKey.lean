import OpusSysV.Cmd.SortMerge

/-!
# Keys of lines: `cmp`, `skip`, `eol` and `month` of `sort/sort.c`

A pointer into a line is the memory from there on, so that `p++` is the tail, and a pointer is
before another one into the same line if more memory follows it.  A read where the memory ends
gives none.

* `Env` — the tab character, `-u`, the names of the months; and what stands before the tables,
  where a negative character finds its entry.
* `Field` — a field of the command line.
* `skip` — the start or the end of a field in a line.
* `numCmp`, `monCmp`, `ascCmp` — the comparisons of two fields: positive if the first one comes
  first, 0 to go on.
* `cmp` — the comparison of two lines.
-/

namespace Cmd

open Lib Function

/-! ## Tables -/

/-- `field.code` -/
inductive Code
  | nofold
  | fold
  deriving DecidableEq, Repr

/-- `field.ignore` -/
inductive Ignore
  | zero
  | dict
  | nonprint
  deriving DecidableEq, Repr

/-- `field.fcmp` -/
inductive Fcmp
  | asc
  | num
  | mon
  deriving DecidableEq, Repr

def isdigit (c : Byte) : Bool := 48 ≤ c && c ≤ 57
def islower (c : Byte) : Bool := 97 ≤ c && c ≤ 122
def isupper (c : Byte) : Bool := 65 ≤ c && c ≤ 90
def isalnum (c : Byte) : Bool := isdigit c || islower c || isupper c
def isprint (c : Byte) : Bool := 32 ≤ c && c ≤ 126
def blank (c : Byte) : Bool := c = 32 || c = 9

/-- The tables where the index is not negative. -/
def Code.entry : Code → Byte → ℤ
  | .nofold, c => c.toNat
  | .fold, c => if islower c then (c - 32).toNat else c.toNat

def Ignore.entry : Ignore → Byte → Bool
  | .zero, _ => false
  | .dict, c => !isalnum c && c ≠ 9 && c ≠ 32 && c ≠ NL
  | .nonprint, c => !isprint c

/-- The command line without the fields, and memory that the tables reach. -/
structure Env where
  tabchar : Byte
  uflg : Bool
  /-- What stands before the tables. -/
  codeBefore : Code → Byte → ℤ
  ignoreBefore : Ignore → Byte → Bool
  /-- The strings in `months`, as `ascftime` gives them: short names. -/
  months : List (List Byte)
  months_length : months.length = 12
  months_name : ∀ u ∈ months, u ≠ [] ∧ ∀ c ∈ u, c < 128 ∧ c ≠ NL

/-- `code[c]` -/
def Code.at (env : Env) (t : Code) (c : Byte) : ℤ :=
  if c < 128 then t.entry c else env.codeBefore t c

/-- `ignore[c]` -/
def Ignore.at (env : Env) (t : Ignore) (c : Byte) : Bool :=
  if c < 128 then t.entry c else env.ignoreBefore t c

/-- `struct field`; index 0 is for the start, 1 for the end. -/
structure Field where
  code : Code
  ignore : Ignore
  fcmp : Fcmp
  rflg : ℤ
  bflg : Fin 2 → Bool
  m : Fin 2 → ℤ
  n : Fin 2 → ℤ
  rflg_mem : rflg = 1 ∨ rflg = -1

/-- A field has two ends. -/
theorem neZero_ends : NeZero 2 := ⟨two_ne_zero⟩

attribute [local instance] neZero_ends

/-- `proto` -/
def proto : Field :=
  ⟨.nofold, .zero, .asc, 1, fun _ => false, fun j => if j = 0 then 0 else -1, fun _ => 0, .inl rfl⟩

/-- The letters of a field in `field(s, k)`. -/
def Field.option (p : Field) (k : Fin 2) : Char → Field
  | 'b' => { p with bflg := update p.bflg k true }
  | 'd' => { p with ignore := .dict }
  | 'f' => { p with code := .fold }
  | 'i' => { p with ignore := .nonprint }
  | 'M' => { p with fcmp := .mon, bflg := update p.bflg 0 true }
  | 'n' => { p with fcmp := .num, bflg := update p.bflg 0 true }
  | 'r' => { p with rflg := -1, rflg_mem := .inr rfl }
  | _ => p

/-! ## The start and the end of a field -/

/-- `eol(p)` -/
def eol : List Byte → Option (List Byte)
  | [] => none
  | c :: p => if c ≠ NL then eol p else some (c :: p)

/-- `while(*p != tbc)`: `p`, and whether the loop ends with `goto ret`. -/
def toTab (tbc : Byte) : List Byte → Option (Bool × List Byte)
  | [] => none
  | c :: p =>
    if c ≠ tbc then if c ≠ NL then toTab tbc p else some (true, c :: p) else some (false, c :: p)

/-- The fields up to number `i`, with a tab character. -/
def skipTab (tbc : Byte) (j : Fin 2) : ℕ → List Byte → Option (Bool × List Byte)
  | 0, p => some (false, p)
  | i + 1, p =>
    (toTab tbc p).bind fun (ret, p) =>
      if ret then some (true, p)
      else skipTab tbc j i (if i > 0 ∨ j = 0 then p.tail else p)

/-- `while(blank(*p)) p++;` -/
def skipBlanks : List Byte → Option (List Byte)
  | [] => none
  | c :: p => if blank c then skipBlanks p else some (c :: p)

/-- `while(!blank(*p))` -/
def toBlank : List Byte → Option (Bool × List Byte)
  | [] => none
  | c :: p =>
    if !blank c then if c ≠ NL then toBlank p else some (true, c :: p) else some (false, c :: p)

/-- The fields up to number `i`, separated by blanks. -/
def skipBlank : ℕ → List Byte → Option (Bool × List Byte)
  | 0, p => some (false, p)
  | i + 1, p =>
    (skipBlanks p).bind fun p => (toBlank p).bind fun (ret, p) =>
      if ret then some (true, p) else skipBlank i p

/-- `while((i-- > 0) && (*p != '\n')) p++;` -/
def skipChars : ℕ → List Byte → Option (List Byte)
  | 0, p => some p
  | _ + 1, [] => none
  | i + 1, c :: p => if c ≠ NL then skipChars i p else some (c :: p)

/-- `skip` behind the loops over the fields: the blanks and the characters. -/
def skipInto (fp : Field) (j : Fin 2) : Bool × List Byte → Option (List Byte)
  | (true, p) => some p
  | (false, p) =>
    (if fp.bflg j then skipBlanks (if j = 1 ∧ fp.m j > 0 then p.tail else p) else some p).bind
      (skipChars (fp.n j).toNat)

/-- `skip(p, fp, j)` -/
def skip (env : Env) (p : List Byte) (fp : Field) (j : Fin 2) : Option (List Byte) :=
  if fp.m j < 0 then eol p
  else if env.tabchar ≠ 0 then
    (skipTab env.tabchar j (fp.m j).toNat p).bind (skipInto fp j)
  else (skipBlank (fp.m j).toNat p).bind (skipInto fp j)

/-! ## Numbers -/

/-- `if(*pa == '-')`: the sign, and `pa` behind it. -/
def sign (rflg : ℤ) : List Byte → Option (ℤ × List Byte)
  | [] => none
  | c :: p => some (if c = 45 then (-rflg, p) else (rflg, c :: p))

/-- `for(…; ipa<la&&isdigit(*ipa); ipa++)`: the digits, and where it ends. -/
def digits (la : List Byte) : List Byte → List Byte × List Byte
  | [] => ([], [])
  | c :: p =>
    if la.length < (c :: p).length ∧ isdigit c then (c :: (digits la p).1, (digits la p).2)
    else ([], c :: p)

/-- `*--ipb - *--ipa` -/
def diff (b a : Byte) : ℤ := (b.toNat : ℤ) - a.toNat

/-- `while(ipa > pa && ipb > pb)`, from the last digits on: `a`, and the digits that are left. -/
def alignLoop : ℤ → List Byte → List Byte → ℤ × List Byte × List Byte
  | a, x :: xs, y :: ys => alignLoop (if diff y x ≠ 0 then diff y x else a) xs ys
  | a, xs, ys => (a, xs, ys)

/-- The loop over the digits behind the points: their difference where there is one, and the digits
that are left. -/
def fracLoop : List Byte → List Byte → ℤ × List Byte × List Byte
  | x :: xs, y :: ys => if diff y x ≠ 0 then (diff y x, xs, ys) else fracLoop xs ys
  | xs, ys => (0, xs, ys)

/-- `if(*(pa=jpa) == '.') pa++;` -/
def point : List Byte → Option (List Byte)
  | [] => none
  | c :: p => some (if c = 46 then p else c :: p)

/-- A digit is not `'0'`. -/
def nonzero (c : Byte) : Bool := c ≠ 48

/-- The digits before the points: what is returned, or 0 to go on. -/
def intCmp (sa sb : ℤ) (da db : List Byte) : ℤ :=
  let (a, ra, rb) :=
    if sa = sb then alignLoop 0 da.reverse db.reverse else (0, da.reverse, db.reverse)
  if ra.any nonzero then -sa
  else if rb.any nonzero then sb
  else a * sa

/-- The digits behind the points: what is returned, or 0 to go on. -/
def fracCmp (sa sb : ℤ) (fa fb : List Byte) : ℤ :=
  let (a, ra, rb) := if sa = sb then fracLoop fa fb else (0, fa, fb)
  if a ≠ 0 then a * sa
  else if ra.any nonzero then -sa
  else if rb.any nonzero then sb
  else 0

/-- `fp->fcmp==NUM` -/
def numCmp (rflg : ℤ) (la pa lb pb : List Byte) : Option ℤ :=
  (sign rflg pa).bind fun (sa, pa) => (sign rflg pb).bind fun (sb, pb) =>
    let (da, jpa) := digits la pa
    let (db, jpb) := digits lb pb
    if intCmp sa sb da db ≠ 0 then some (intCmp sa sb da db)
    else
      (point jpa).bind fun pa => (point jpb).bind fun pb =>
        some (fracCmp sa sb (digits la pa).1 (digits lb pb).1)

/-! ## Months -/

/-- `for(t=s, u=months[i]; f[*t++]==f[*u++]; ) if(*u==0) return(i);` -/
def monthMatch (env : Env) : List Byte → List Byte → Option Bool
  | [], _ => some true
  | _ :: _, [] => none
  | c :: u, t :: p =>
    if Code.fold.at env t = Code.fold.at env c then monthMatch env u p else some false

/-- The loop of `month` from month `i` on. -/
def monthFrom (env : Env) (s : List Byte) : ℤ → List (List Byte) → Option ℤ
  | _, [] => some (-1)
  | i, u :: us => (monthMatch env u s).bind fun found =>
      if found then some i else monthFrom env s (i + 1) us

/-- `month(s)` -/
def month (env : Env) (s : List Byte) : Option ℤ := monthFrom env s 0 env.months

/-- `fp->fcmp==MON` -/
def monCmp (env : Env) (rflg : ℤ) (pa pb : List Byte) : Option ℤ :=
  (month env pb).bind fun mb => (month env pa).bind fun ma => some (rflg * (mb - ma))

/-! ## Characters -/

/-- `while(ignore[*pa]) pa++;`: `*pa` and what follows it. -/
def skipIgnored (ign : Byte → Bool) : List Byte → Option (Byte × List Byte)
  | [] => none
  | c :: p => if ign c then skipIgnored ign p else some (c, p)

/-- `pa>=la || *pa=='\n'` -/
def ended (la : List Byte) (c : Byte) (p : List Byte) : Bool :=
  p.length + 1 ≤ la.length || c = NL

/-- `loop:` -/
def ascCmp (code : Byte → ℤ) (ign : Byte → Bool) (rflg : ℤ) (la lb : List Byte) :
    List Byte → List Byte → Option ℤ
  | [], _ => none
  | a :: pa, pb =>
    if ign a then ascCmp code ign rflg la lb pa pb
    else
      (skipIgnored ign pb).bind fun (b, pb) =>
        if ended la a pa then some (if ended lb b pb then 0 else rflg)
        else if ended lb b pb then some (-rflg)
        else if code b - code a = 0 then ascCmp code ign rflg la lb pa pb
        else some ((code b - code a) * rflg)

/-! ## Lines -/

/-- `la` and `pa` for a field; `k` is whether it is not the first one. -/
def place (env : Env) (k : Bool) (fp : Field) (p : List Byte) : Option (List Byte × List Byte) :=
  if k then (skip env p fp 1).bind fun la => (skip env p fp 0).bind fun pa => some (la, pa)
  else (eol p).bind fun la => some (la, p)

/-- The comparison of two fields that start at `pa` and `pb` and end before `la` and `lb`. -/
def keyCmp (env : Env) (fp : Field) (la pa lb pb : List Byte) : Option ℤ :=
  match fp.fcmp with
  | .num => numCmp fp.rflg la pa lb pb
  | .mon => monCmp env fp.rflg pa pb
  | .asc => ascCmp (fp.code.at env) (fp.ignore.at env) fp.rflg la lb pa pb

/-- One turn of the loop of `cmp`. -/
def cmpField (env : Env) (k : Bool) (fp : Field) (i j : List Byte) : Option ℤ :=
  (place env k fp i).bind fun (la, pa) => (place env k fp j).bind fun (lb, pb) =>
    keyCmp env fp la pa lb pb

/-- The loop of `cmp`. -/
def cmpFields (env : Env) (k : Bool) : List Field → List Byte → List Byte → Option ℤ
  | [], _, _ => some 0
  | fp :: fs, i, j =>
    (cmpField env k fp i j).bind fun c => if c = 0 then cmpFields env k fs i j else some c

/-- `cmpa(pa, pb)` of pointers. -/
def cmpaAt (rflg : ℤ) : List Byte → List Byte → Option ℤ
  | a :: pa, b :: pb =>
    if a = b then if a = NL then some 0 else cmpaAt rflg pa pb
    else
      some <| if a = NL then rflg else if b = NL then -rflg
        else if charVal b > charVal a then rflg else -rflg
  | _, _ => none

/-- `cmp(i, j)` with `fields[0]` and the fields behind it. -/
def cmp (env : Env) (field0 : Field) (fields : List Field) (i j : List Byte) : Option ℤ :=
  (if fields = [] then cmpFields env false [field0] i j
    else cmpFields env true fields i j).bind fun c =>
    if c = 0 then if env.uflg then some 0 else cmpaAt field0.rflg i j else some c

end Cmd
