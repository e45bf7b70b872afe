import OpusSysV.Lib.Run
import OpusSysV.Lib.Word

/-!
# Growing a region

The page tables of a region in `os/region.c`: `growreg`, `chkgrowth` and `ptexpand`.  A region is
a range of pages, and its list has one pair of tables (page table entries and disk block
descriptors) for each segment of 1024 pages.

* `Ptmem` — the table pairs there are and what they hold.  Giving back something that is no table
  pair is noted.
* `ptexpand`, `growreg` — the two routines.  What the allocator returns, how much memory there is
  and what the neighbouring pregion is are arguments.
-/

namespace Os

open Lib

/-! ## Units -/

def NPGPT : ℤ := 1024
def USRSTACK : ℤ := 0xf0000000

/-- Pages to segments, rounded up and down, and back. -/
def ctos (x : ℤ) : ℤ := (x + 1023) / 1024
def ctost (x : ℤ) : ℤ := x / 1024
def stoc (x : ℤ) : ℤ := x * 1024

/-- Pages and segments to bytes. -/
def ctob (x : ℤ) : ℤ := x * 4096
def stob (x : ℤ) : ℤ := x * 0x400000

/-- Bytes to units of a list. -/
def btorl (x : ℤ) : ℤ := (x + 1023) / 1024

/-- The words of a unit of a list. -/
def wordsPerRl : ℤ := 256

/-- An address. -/
def caddr (x : ℤ) : ℤ := x % 2 ^ 32

/-- `roundup` of `chkgrowth`, to whole segments. -/
def roundup (x : ℤ) : ℤ := caddr ((x + stob 1 - 1) / stob 1 * stob 1)

/-! ## Tables -/

/-- A page table entry and the type of its disk block descriptor. -/
structure Pgent where
  pfn : ℤ
  valid : Bool
  mod : Bool
  ci : Bool
  wt : Bool
  dbd_type : ℕ
  deriving DecidableEq

def DBD_NONE : ℕ := 0

/-- `bzero` of an entry alone, and of both. -/
def Pgent.zapped (x : Pgent) : Pgent := ⟨0, false, false, false, false, x.dbd_type⟩
def Pgent.zero : Pgent := ⟨0, false, false, false, false, DBD_NONE⟩

/-- The table pairs that are allocated, whether anything else was ever freed, and the entries. -/
structure Ptmem where
  pairs : List ℕ
  badfree : Bool
  ent : ℕ → ℤ → Pgent

namespace Ptmem

def smpgfree (m : Ptmem) (t : ℕ) : Ptmem :=
  if t ∈ m.pairs then { m with pairs := m.pairs.erase t } else { m with badfree := true }

/-- `smpgalloc` returned `t`; `bzero`. -/
def smpgalloc (m : Ptmem) (t : ℕ) : Ptmem :=
  { m with pairs := t :: m.pairs, ent := Function.update m.ent t fun _ => .zero }

end Ptmem

inductive RegType
  | unused | priv | stext | shmem | phmem
  deriving DecidableEq

inductive PregType
  | unused | text | data | stack | shmem | libtxt | libdat
  deriving DecidableEq

/-- `struct region`; the list with all its words, of which 0 is null. -/
structure Reg where
  r_type : RegType
  r_ci : Bool
  r_nofree : Bool
  r_refcnt : ℤ
  r_noswapcnt : ℤ
  r_filesz : ℤ
  r_paddr : ℤ
  r_pgsz : ℤ
  r_pgoff : ℤ
  r_listsz : ℤ
  r_list : List ℕ

/-- `struct pregion` without the region. -/
structure Preg where
  p_regva : ℤ
  p_type : PregType
  p_rdonly : Bool
  deriving DecidableEq

/-- A pregion, its region and the tables. -/
structure Vm where
  prp : Preg
  reg : Reg
  mem : Ptmem

/-! ## `ptexpand` -/

/-- `for (; lp < lp1; lp++) { smpgfree(*lp); *lp = 0; }`, `k` times from `i` on. -/
def freeTables : ℕ → ℕ → List ℕ → Ptmem → Option (List ℕ × Ptmem)
  | 0, _, l, m => some (l, m)
  | k + 1, i, l, m => (l[i]?).bind fun t => freeTables k (i + 1) (l.set i 0) (m.smpgfree t)

/-- `while (lp2 < lp) { smpgfree(*lp1); *lp1++ = *lp2; *lp2++ = 0; }`, `k` times. -/
def slideDown : ℕ → ℕ → ℕ → List ℕ → Ptmem → Option (List ℕ × Ptmem)
  | 0, _, _, l, m => some (l, m)
  | k + 1, lp1, lp2, l, m =>
    (l[lp1]?).bind fun t => (l[lp2]?).bind fun t2 =>
      slideDown k (lp1 + 1) (lp2 + 1) ((l.set lp1 t2).set lp2 0) (m.smpgfree t)

/-- `while (*lp1 != 0) { smpgfree(*lp1); *lp1++ = 0; }`; the list ends after `k` more words. -/
def freeRest : ℕ → ℕ → List ℕ → Ptmem → Option (List ℕ × Ptmem)
  | 0, _, _, _ => none
  | k + 1, lp1, l, m =>
    (l[lp1]?).bind fun t =>
      if t = 0 then some (l, m) else freeRest k (lp1 + 1) (l.set lp1 0) (m.smpgfree t)

/-- `while (lp1 > rp->r_list) *(--lp2) = *(--lp1)`, the two `diff` words apart. -/
def slideUp (diff : ℕ) : ℕ → List ℕ → Option (List ℕ)
  | 0, l => some l
  | k + 1, l =>
    (l[k]?).bind fun t => if k + diff < l.length then slideUp diff k (l.set (k + diff) t) else none

/-- `while (--lp >= lp1) smpgfree(*lp)`, `k` times. -/
def unwind : ℕ → ℕ → List ℕ → Ptmem → Option Ptmem
  | 0, _, _, m => some m
  | k + 1, lp1, l, m => (l[lp1 + k]?).bind fun t => unwind k lp1 l (m.smpgfree t)

/-- The loop that allocates `k` table pairs from `lp` on, the first of which was for `lp1`.  The
allocator returns the pairs `tabs` and then none. -/
def allocTables (lp1 : ℕ) : ℕ → ℕ → List ℕ → List ℕ → Ptmem → Option (Bool × List ℕ × Ptmem)
  | 0, _, _, l, m => some (true, l, m)
  | k + 1, lp, tabs, l, m =>
    if lp < l.length then
      match tabs with
      | [] => (unwind (lp - lp1) lp1 (l.set lp 0) m).map fun m => (false, l.set lp 0, m)
      | t :: tabs => allocTables lp1 k (lp + 1) tabs (l.set lp t) (m.smpgalloc t)
    else none

/-- The first `n` words of a list, followed by zeros, in a list of `i` units. -/
def newList (l : List ℕ) (n i : ℤ) : List ℕ :=
  let l := l.take n.toNat
  l ++ List.replicate ((wordsPerRl * i).toNat - l.length) 0

namespace Vm

/-- The tables of a region that shrinks by whole segments are freed. -/
def shrinkTables (s : Vm) (osize nsize : ℤ) (lotohi : Bool) : Option Vm :=
  if lotohi then
    (freeTables (ctos osize - ctos nsize).toNat (ctos nsize).toNat s.reg.r_list s.mem).map
      fun (l, m) => { s with reg := { s.reg with r_list := l }, mem := m }
  else
    let diff := ctos osize - ctos nsize
    (slideDown (ctos osize - diff).toNat 0 diff.toNat s.reg.r_list s.mem).bind fun (l, m) =>
      (freeRest (l.length + 1) (ctos osize - diff).toNat l m).map fun (l, m) =>
        { prp := { s.prp with p_regva := caddr (s.prp.p_regva + stob diff) }
          reg := { s.reg with r_list := l, r_pgoff := short (s.reg.r_pgoff - stoc diff) }
          mem := m }

/-- A smaller list is used if possible; `list` says whether there is space for it. -/
def shrinkList (s : Vm) (nsize : ℤ) (list : Bool) : Vm :=
  let i := btorl (ctos nsize * 4)
  if i < s.reg.r_listsz then
    if 0 < nsize then
      if list then { s with reg := { s.reg with
        r_list := newList s.reg.r_list (ctos nsize) i, r_listsz := short i } }
      else s
    else { s with reg := { s.reg with r_list := [], r_listsz := short i } }
  else s

/-- A bigger list is allocated if needed; `none` if there is no space for it. -/
def growList (s : Vm) (osize nsize : ℤ) (list : Bool) : Option Vm :=
  let i := btorl (ctos nsize * 4)
  if s.reg.r_listsz < i then
    if list then some { s with reg := { s.reg with
      r_list := newList s.reg.r_list (ctos osize) i, r_listsz := short i } }
    else none
  else some s

/-- The new tables are allocated. -/
def growTables (s : Vm) (osize nsize : ℤ) (lotohi : Bool) (tabs : List ℕ) : Option (Bool × Vm) :=
  if lotohi then
    let lp := if s.reg.r_pgsz ≠ 0 then ctos osize else ctost osize
    (allocTables lp.toNat (ctos nsize - lp).toNat lp.toNat tabs s.reg.r_list s.mem).map
      fun (ok, l, m) => (ok, { s with reg := { s.reg with r_list := l }, mem := m })
  else
    let diff := ctos nsize - ctos osize
    (slideUp diff.toNat (ctos osize).toNat s.reg.r_list).bind fun l =>
      (allocTables 0 diff.toNat 0 tabs l s.mem).map fun (ok, l, m) =>
        (ok, {
          prp := { s.prp with p_regva := caddr (s.prp.p_regva - stob diff) }
          reg := { s.reg with r_list := l, r_pgoff := short (s.reg.r_pgoff + stoc diff) }
          mem := m })

/-- `ptexpand(prp, change, lotohi)`; `true` for 0 and `false` for -1. -/
def ptexpand (s : Vm) (change : ℤ) (lotohi list : Bool) (tabs : List ℕ) : Option (Bool × Vm) :=
  let osize := if lotohi then s.reg.r_pgoff + s.reg.r_pgsz else s.reg.r_pgsz
  let nsize := osize + change
  let less (s : Vm) : Vm := if lotohi then s
    else { s with reg := { s.reg with r_pgoff := short (s.reg.r_pgoff - change) } }
  (if ctos nsize < ctos osize then
    (s.shrinkTables osize nsize lotohi).map fun s => s.shrinkList nsize list
  else some s).bind fun s =>
    if change ≤ 0 then some (true, less s)
    else match s.growList osize nsize list with
      | none => some (false, s)
      | some s => (s.growTables osize nsize lotohi tabs).map fun (ok, s) =>
        (ok, if ok then less s else s)

end Vm

/-! ## `growreg` -/

/-- `chkgrowth(prp, change, lotohi)`, where `oprp` is the pregion on the side that grows, if there
is one; `true` for -1. -/
def chkgrowth (prp : Preg) (rp : Reg) (oprp : Option (Preg × Reg)) (change : ℤ) (lotohi : Bool) :
    Bool :=
  if change ≤ 0 then false
  else
    let start := prp.p_regva
    let last := caddr (start + ctob (rp.r_pgoff + rp.r_pgsz))
    if lotohi = false ∧ change ≤ rp.r_pgoff then false
    else
      let last := if lotohi then caddr (last + ctob change) else last
      let start := if lotohi then start
        else caddr (start - stob (ctos (rp.r_pgsz + change) - ctos change))
      if USRSTACK < last ∨ USRSTACK < start then true
      else match oprp with
        | none => false
        | some (oprp, rp) =>
          let vaddr := oprp.p_regva
          if start = vaddr then true
          else
            let «end» := caddr (vaddr + ctob (rp.r_pgoff + rp.r_pgsz))
            if start < «end» ∧ vaddr < last then true
            else if lotohi = false ∧ start < caddr (roundup «end» + stob 1) then true
            else decide (oprp.p_type = .stack ∧ vaddr < caddr (roundup last + stob 1))

/-- The loop over the segments of a range of pages: `f` is done to the entry of each page. -/
def eachPage (l : List ℕ) (start «end» : ℤ) (f : ℤ → Pgent → Pgent) :
    ℕ → ℤ → (ℕ → ℤ → Pgent) → Option (ℕ → ℤ → Pgent)
  | 0, _, ent => some ent
  | k + 1, i, ent =>
    (l[i.toNat]?).bind fun pt =>
      if pt = 0 then none
      else
        let size := «end» - stoc i
        let size := if NPGPT < size then NPGPT else size
        let tmp := if stoc i < start then start - stoc i else 0
        let size := size - tmp
        eachPage l start «end» f k (i + 1) fun a j =>
          if a = pt ∧ tmp ≤ j ∧ j < tmp + size then f (stoc i + j) (ent a j) else ent a j

/-- What a call of `growreg` finds: how much memory there is and has to stay, the pregion on the
side that grows, whether there is space for a list, the table pairs that can be allocated, and
`PG_WT` and `PG_CI` of the kernel's mapping of each page. -/
structure GrowEnv where
  availsmem : ℤ
  availrmem : ℤ
  t_minasmem : ℤ
  t_minarmem : ℤ
  oprp : Option (Preg × Reg)
  list : Bool
  tabs : List ℕ
  wtci : ℤ → Bool × Bool

namespace Vm

/-- The entries of a range of pages. -/
def onPages (s : Vm) (start «end» : ℤ) (f : ℤ → Pgent → Pgent) : Option Vm :=
  (eachPage s.reg.r_list start «end» f (ctos «end» - ctost start).toNat (ctost start)
    s.mem.ent).map fun ent => { s with mem := { s.mem with ent := ent } }

/-- The end of `growreg`. -/
def resize (s : Vm) (change : ℤ) : Vm :=
  { s with reg := { s.reg with r_pgsz := short (s.reg.r_pgsz + change) } }

/-- The entry of a page that is freed. -/
def freedPage (r : Reg) (x : Pgent) : Pgent := if r.r_type = .phmem then x.zapped else .zero

/-- The entry of a new page. -/
def newPage (r : Reg) (wtci : ℤ → Bool × Bool) (pfn : ℤ) (type : ℕ) (x : Pgent) : Pgent :=
  if r.r_type = .phmem then
    { x with
      pfn := pfn
      mod := false
      ci := if r.r_ci then true else (wtci pfn).2
      wt := if r.r_ci then x.wt else (wtci pfn).1
      valid := true
      dbd_type := type }
  else { x with dbd_type := type }

/-- `growreg(prp, change, type)`: what it returns, and the state then.  A call that an assertion
forbids is `none`. -/
def growreg (s : Vm) (e : GrowEnv) (change : ℤ) (type : ℕ) : Option (ℤ × Vm) :=
  if (0 ≤ change ∨ -change ≤ s.reg.r_pgsz) ∧ s.reg.r_refcnt = 1 then
    if change = 0 then some (0, s)
    else
      let lotohi := decide (s.prp.p_type ≠ .stack)
      let osize := s.reg.r_pgoff + s.reg.r_pgsz
      if change < 0 then
        let start := if lotohi then osize + change else s.reg.r_pgoff
        let «end» := if lotohi then osize else s.reg.r_pgoff - change
        (s.onPages start «end» fun _ => freedPage s.reg).bind fun s =>
          (s.ptexpand change lotohi e.list e.tabs).map fun (_, s) => (1, s.resize change)
      else if s.reg.r_type ≠ .phmem ∧ (e.availsmem - change < e.t_minasmem ∨
          (s.reg.r_noswapcnt ≠ 0 ∧ e.availrmem - change < e.t_minarmem)) then some (-1, s)
      else if chkgrowth s.prp s.reg e.oprp change lotohi then some (-1, s)
      else
        (s.ptexpand change lotohi e.list e.tabs).bind fun (ok, s) =>
          if ok = false then some (-1, s)
          else
            let start := if lotohi then osize else s.reg.r_pgoff
            let «end» := start + change
            let tmppfn := s.reg.r_paddr / 4096 + osize
            (s.onPages start «end» fun p => newPage s.reg e.wtci (tmppfn + (p - start)) type).map
              fun s => (1, s.resize change)
  else none

end Vm

end Os
