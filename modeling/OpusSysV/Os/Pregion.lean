import OpusSysV.Os.Region

/-!
# Attached regions

The pregion tables of `os/region.c`: `findpreg`, `attachreg`, `chkattach`, `detachreg`, and
`growreg` of an attached region.  Each process has a table of pregions, the used ones first, and a
region may be attached any number of times.

* `VmSys` — the tables of all processes, the regions and the page tables.
* `vmStep` — a call by one process.  What else happens to regions is the call `other`.
-/

namespace Os

open Lib Function

def DBD_DZERO : ℕ := 4

/-- Bytes to pages, rounded up. -/
def btoc (x : ℤ) : ℤ := caddr (x + 4095) / 4096

/-- `struct pregion`, with the number of the region. -/
structure Pregion extends Preg where
  p_reg : Option ℕ
  deriving DecidableEq

def nullpregion : Pregion := ⟨⟨0, .unused, false⟩, none⟩

/-- `p_region` of each process, the regions and their page tables. -/
structure VmSys where
  p_region : List (List Pregion)
  region : ℕ → Reg
  mem : Ptmem

/-! ## Attach -/

/-- `findpreg(pp, type)`, from entry `i` of the table on.  The last entry is never returned as an
unused one. -/
def findpreg (type : PregType) : ℕ → List Pregion → Option ℕ
  | _, [] => none
  | i, prp :: rest =>
    if prp.p_reg.isSome then if prp.p_type = type then some i else findpreg type (i + 1) rest
    else if type = .unused ∧ rest ≠ [] then some i
    else none

/-- The loop of `chkattach` over the table; `true` for -1. -/
def chkRegions (region : ℕ → Reg) (start last : ℤ) : List Pregion → Bool
  | [] => false
  | oprp :: rest =>
    match oprp.p_reg with
    | none => false
    | some r =>
      let vaddr := oprp.p_regva
      if start = vaddr then true
      else if last < vaddr then false
      else
        let «end» := caddr (vaddr + ctob ((region r).r_pgoff + (region r).r_pgsz))
        if start < «end» ∧ vaddr < last then true else chkRegions region start last rest

/-- `chkattach(up, prp)`; `true` for -1. -/
def chkattach (region : ℕ → Reg) (tbl : List Pregion) (prp : Preg) (rp : Reg) : Bool :=
  let start := prp.p_regva
  let last := caddr (start + ctob (rp.r_pgoff + rp.r_pgsz))
  if start % stob 1 ≠ 0 then true
  else if USRSTACK < last ∨ USRSTACK < start then true
  else chkRegions region start last tbl

/-- The loop that moves entries up from the unused one at `k` and stores `tmp`. -/
def insertPreg (tmp : Pregion) : ℕ → List Pregion → Option (List Pregion)
  | 0, tbl => some (tbl.set 0 tmp)
  | k + 1, tbl =>
    (tbl[k]?).bind fun prp =>
      if tmp.p_regva < prp.p_regva then insertPreg tmp k (tbl.set (k + 1) prp)
      else some (tbl.set (k + 1) tmp)

namespace VmSys

/-- `attachreg(rp, up, vaddr, type, prot)` for process `pi`; `false` if the region was not
attached. -/
def attachreg (s : VmSys) (pi r : ℕ) (vaddr : ℤ) (type : PregType) (rdonly : Bool) :
    Option (Bool × VmSys) :=
  (s.p_region[pi]?).bind fun tbl =>
    if vaddr % stob 1 ≠ 0 then some (false, s)
    else match findpreg .unused 0 tbl with
      | none => some (false, s)
      | some prp =>
        let rp := s.region r
        if chkattach s.region tbl ⟨vaddr, type, rdonly⟩ rp then some (false, s)
        else (insertPreg ⟨⟨vaddr, type, rdonly⟩, some r⟩ prp tbl).map fun tbl => (true, {
          p_region := s.p_region.set pi tbl
          region := update s.region r { rp with r_refcnt := short (rp.r_refcnt + 1) }
          mem := s.mem })

end VmSys

/-! ## Detach -/

/-- `freereg(rp)`. -/
def freereg (rp : Reg) (m : Ptmem) : Option (Reg × Ptmem) :=
  let tsize := rp.r_pgoff + rp.r_pgsz
  (freeTables (ctos tsize - ctost rp.r_pgoff).toNat (ctost rp.r_pgoff).toNat rp.r_list m).map
    fun (_, m) => (⟨.unused, false, false, rp.r_refcnt, 0, 0, 0, 0, 0, 0, []⟩, m)

/-- The data portion of a shared 0407 text that stays is removed. -/
def removeData (prp : Preg) (rp : Reg) (m : Ptmem) (magic407 : Bool) (e : GrowEnv) :
    Option (Reg × Ptmem) :=
  if magic407 ∧ rp.r_type = .stext then
    let rp := { rp with r_filesz := long (rp.r_filesz - prp.p_regva) }
    if rp.r_nofree then
      let change := btoc rp.r_filesz - rp.r_pgsz
      if change ≤ 0 then
        (Vm.growreg ⟨prp, rp, m⟩ e change DBD_DZERO).map fun (_, w) => (w.reg, w.mem)
      else none
    else some (rp, m)
  else some (rp, m)

namespace VmSys

/-- `detachreg(prp, up)` for entry `i` of process `pi`. -/
def detachreg (s : VmSys) (pi i : ℕ) (magic407 : Bool) (e : GrowEnv) : Option VmSys :=
  (s.p_region[pi]?).bind fun tbl => (tbl[i]?).bind fun prp => prp.p_reg.bind fun r =>
    (removeData prp.toPreg (s.region r) s.mem magic407 e).bind fun (rp, m) =>
      let rp := { rp with r_refcnt := short (rp.r_refcnt - 1) }
      (if rp.r_refcnt = 0 ∧ rp.r_nofree = false then freereg rp m else some (rp, m)).map
        fun (rp, m) => {
          p_region := s.p_region.set pi (tbl.eraseIdx i ++ [nullpregion])
          region := update s.region r rp
          mem := m }

/-! ## Grow -/

/-- The pregion that `chkgrowth` looks at.  Below the first entry is the null entry at the end of
another process's table. -/
def neighbour (s : VmSys) (tbl : List Pregion) (i : ℕ) (prp : Preg) : Option (Preg × Reg) :=
  (if prp.p_type ≠ .stack then tbl[i + 1]? else if i = 0 then none else tbl[i - 1]?).bind
    fun oprp => oprp.p_reg.map fun r => (oprp.toPreg, s.region r)

/-- What `growreg` is called with for entry `i` of process `pi`. -/
def growAt (s : VmSys) (pi i : ℕ) (e : GrowEnv) : Option (List Pregion × ℕ × Vm × GrowEnv) :=
  (s.p_region[pi]?).bind fun tbl => (tbl[i]?).bind fun prp => prp.p_reg.map fun r =>
    (tbl, r, ⟨prp.toPreg, s.region r, s.mem⟩, { e with oprp := s.neighbour tbl i prp.toPreg })

/-- `growreg(prp, change, type)` for entry `i` of process `pi`. -/
def growreg (s : VmSys) (pi i : ℕ) (e : GrowEnv) (change : ℤ) (type : ℕ) : Option (ℤ × VmSys) :=
  (s.growAt pi i e).bind fun (tbl, r, v, e) => (v.growreg e change type).map fun (ret, w) => (ret, {
    p_region := s.p_region.set pi (tbl.set i ⟨w.prp, some r⟩)
    region := update s.region r w.reg
    mem := w.mem })

end VmSys

/-! ## Calls -/

/-- A call, or something else that happens to region `r` and the page tables. -/
inductive VmCall
  | attach (r : ℕ) (vaddr : ℤ) (type : PregType) (rdonly : Bool)
  | detach (i : ℕ) (magic407 : Bool) (e : GrowEnv)
  | grow (i : ℕ) (e : GrowEnv) (change : ℤ) (type : ℕ)
  | other (r : ℕ) (rp : Reg) (mem : Ptmem)

/-- A size and an offset that a `short` holds. -/
def Reg.Sized (rp : Reg) : Prop :=
  0 ≤ rp.r_pgsz ∧ rp.r_pgsz ≤ 32767 ∧ 0 ≤ rp.r_pgoff ∧ rp.r_pgoff ≤ 32767

instance {rp : Reg} : Decidable rp.Sized := inferInstanceAs (Decidable (_ ∧ _))

/-- What `allocreg`, `dupreg` and the rest may do to a region: anything while it is not attached,
and not to the size, the offset and the use count otherwise. -/
def Reg.OtherChange (rp rp' : Reg) : Prop :=
  rp'.r_refcnt = rp.r_refcnt ∧
    (rp'.r_pgsz = rp.r_pgsz ∧ rp'.r_pgoff = rp.r_pgoff ∨ rp.r_refcnt = 0 ∧ rp'.Sized)

instance {rp rp' : Reg} : Decidable (rp.OtherChange rp') := inferInstanceAs (Decidable (_ ∧ _))

/-- One call by a process. -/
def vmStep (s : VmSys) (c : ℕ × VmCall) : Option VmSys :=
  match c.2 with
  | .attach r vaddr type rdonly =>
    if 0 ≤ vaddr ∧ vaddr < 2 ^ 32 then
      (s.attachreg c.1 r vaddr type rdonly).map Prod.snd
    else none
  | .detach i magic407 e => s.detachreg c.1 i magic407 e
  | .grow i e change type => (s.growreg c.1 i e change type).map Prod.snd
  | .other r rp mem =>
    if (s.region r).OtherChange rp then
      some { s with region := update s.region r rp, mem := mem }
    else none

end Os
