import OpusSysV.Lib.Run
import OpusSysV.Lib.Circular
import Mathlib

/-!
# Page frames: `os/page.c`

Each click of memory has a `pfdat`.  Frames that nobody uses are on a circular queue with head
`phead`; frames that hold a page of a file or of a swap device are hashed under it, whether they
are in use or not.

* `Pfdat`, `Pages` — a frame; the frames, the links, the hash chains and the counts.
* `pinsert`, `premove`, `pbremove` — the hash chains.
* `ptmemall`, `pfree`, `contmemall`, `freecpages`, `delmem`, `addmem`, `meminit`, and `addfpg` and
  `memfree` of `os/getpages.c` — the queue.
* `Pages.step` — any order of calls.

A result `none` is a failed assertion, a panic or a null pointer.  Region locks, messages and
statistics are left out.
-/

namespace Os

open Lib Function

/-! ## The data -/

/-- A `struct pfdat *` in `pf_next` or `pf_prev`. -/
inductive Pfp
  | phead
  | delmem
  | pfd (n : ℕ)
  deriving DecidableEq, Repr

/-- A `struct pfdat *` in a hash chain: a frame, or the address of a slot, where a chain ends. -/
inductive Hptr
  | pfd (n : ℕ)
  | slot (h : ℕ)
  deriving DecidableEq, Repr

/-- `struct pfdat` without the links of the queue.  The first six are the bits of `pf_flags`. -/
structure Pfdat where
  queue : Bool
  bad : Bool
  hash : Bool
  done : Bool
  swap : Bool
  waiting : Bool
  pf_swpi : ℕ
  pf_rawcnt : ℤ
  pf_blkno : BitVec 32
  pf_use : ℤ
  pf_dev : BitVec 32
  pf_inumber : BitVec 32
  pf_hchain : Option Hptr

/-- A page table entry. -/
structure Pde where
  pfn : ℕ
  valid : Bool
  cw : Bool
  mod : Bool
  deriving DecidableEq, Repr

inductive DbdType
  | none
  | swap
  | file
  | lstfile
  | dzero
  | dfill
  deriving DecidableEq, Repr

/-- `struct dbd`. -/
structure DiskDesc where
  dbd_type : DbdType
  dbd_swpi : ℕ
  dbd_blkno : BitVec 24
  deriving DecidableEq, Repr

/-- What is read of an inode. -/
structure PInode where
  i_ftype : ℕ
  i_dev : BitVec 32
  i_rdev : BitVec 32
  i_number : BitVec 32

def IFDIR : ℕ := 0x4000
def IFREG : ℕ := 0x8000
def EINVAL : ℕ := 22

/-- `effdev(ip)`. -/
def PInode.effdev (ip : PInode) : BitVec 32 :=
  if ip.i_ftype = IFREG ∨ ip.i_ftype = IFDIR then ip.i_dev else ip.i_rdev

/-- The configuration: the frames, clicks of an address space of 32 bits, the mask of the hash
function, the devices of `swaptab`, `tune.t_minasmem`, `tune.t_minarmem`, `kdebug & 0x200` and
`v.v_maxswaplist`. -/
structure PageConf where
  kpbase : ℕ
  maxclick : ℕ
  maxclick_le : maxclick ≤ 2 ^ 20
  phashmask : BitVec 32
  st_dev : ℕ → BitVec 32
  t_minasmem : ℤ
  t_minarmem : ℤ
  kdebug200 : Bool
  v_maxswaplist : ℕ

/-- The frames, the links of the queue of frames and heads, the hash slots, the counts, the page
tables with their disk block descriptors, the regions' `r_nvalid` and `r_iptr`, and `u.u_error`. -/
structure Pages where
  pfd : ℕ → Pfdat
  next : Pfp → Option Pfp
  prev : Pfp → Option Pfp
  phash : ℕ → Hptr
  freemem : ℤ
  availrmem : ℤ
  availsmem : ℤ
  maxmem : ℤ
  delmemCnt : ℤ
  pt : ℕ → Pde
  dbd : ℕ → DiskDesc
  r_nvalid : ℕ → ℤ
  r_iptr : ℕ → Option PInode
  u_error : ℕ

namespace Pages

/-- The fields of a frame are changed. -/
def setPfd (s : Pages) (f : ℕ) (g : Pfdat → Pfdat) : Pages :=
  { s with pfd := update s.pfd f (g (s.pfd f)) }

def setPt (s : Pages) (pt : ℕ) (x : Pde) : Pages := { s with pt := update s.pt pt x }

def addNvalid (s : Pages) (rp : ℕ) (n : ℤ) : Pages :=
  { s with r_nvalid := update s.r_nvalid rp (s.r_nvalid rp + n) }

/-- `(x->pf_prev)->pf_next = x->pf_next; (x->pf_next)->pf_prev = x->pf_prev`. -/
def unlink (s : Pages) (x : Pfp) : Option Pages :=
  match s.prev x, s.next x with
  | some p, some n => some { s with
      next := update s.next p (some n)
      prev := update s.prev n (some p) }
  | _, _ => none

/-- `x->pf_next = h.pf_next; x->pf_prev = &h; h.pf_next = x; x->pf_next->pf_prev = x`. -/
def atHead (s : Pages) (h x : Pfp) : Option Pages :=
  match s.next h with
  | some n => some { s with
      next := update (update s.next x (some n)) h (some x)
      prev := update (update s.prev x (some h)) n (some x) }
  | none => none

/-- `x->pf_prev = phead.pf_prev; x->pf_next = &phead; phead.pf_prev = x;
x->pf_prev->pf_next = x`. -/
def atTail (s : Pages) (x : Pfp) : Option Pages :=
  match s.prev .phead with
  | some p => some { s with
      next := update (update s.next x (some .phead)) p (some x)
      prev := update (update s.prev x (some p)) .phead (some x) }
  | none => none

/-! ## The hash chains -/

def DPPSHFT : ℕ := 3
def FILESHFT : ℕ := 0

/-- What a page is hashed under. -/
structure PageKey where
  blkno : BitVec 32
  dev : BitVec 32
  inumber : BitVec 32
  deriving DecidableEq

/-- The key of a descriptor and the shift of its block number, with which `pinsert` and `pbremove`
begin. -/
def key (c : PageConf) (s : Pages) (rp : ℕ) (d : DiskDesc) : Option (PageKey × ℕ) :=
  let blkno := d.dbd_blkno.setWidth 32
  if d.dbd_type = .swap then some (⟨blkno, c.st_dev d.dbd_swpi, 0⟩, DPPSHFT)
  else (s.r_iptr rp).map fun ip => (⟨blkno, ip.effdev, ip.i_number⟩, FILESHFT)

/-- The slot of a key; the block number is a signed integer. -/
def keySlot (c : PageConf) (k : PageKey) (shift : ℕ) : ℕ :=
  (((k.blkno.sshiftRight shift) + k.inumber + k.dev) &&& c.phashmask).toNat

/-- What a frame is hashed under. -/
def frameKey (s : Pages) (f : ℕ) : PageKey :=
  ⟨(s.pfd f).pf_blkno, (s.pfd f).pf_dev, (s.pfd f).pf_inumber⟩

/-- The slot of a frame, as `premove` finds it; the block number is an unsigned integer. -/
def frameSlot (c : PageConf) (s : Pages) (f : ℕ) : ℕ :=
  let x := s.pfd f
  let dppshift := if x.hash && x.swap then DPPSHFT else FILESHFT
  (((x.pf_blkno >>> dppshift) + x.pf_inumber + x.pf_dev) &&& c.phashmask).toNat

/-- The loop over the chain of slot `h`: `p` and `pfd1` where it ends, at the slot or at the first
frame that passes the test. -/
def hfind (s : Pages) (test : ℕ → Bool) (h : ℕ) (p pfd1 : Hptr) : ℕ → Option (Hptr × Hptr)
  | 0 => none
  | k + 1 =>
    match pfd1 with
    | .slot h' => if h' = h then some (p, pfd1) else none
    | .pfd f =>
      if test f then some (p, pfd1)
      else
        match (s.pfd f).pf_hchain with
        | none => none
        | some q => hfind s test h pfd1 q k

/-- A chain has at most all frames. -/
def hsearch (c : PageConf) (s : Pages) (test : ℕ → Bool) (h : ℕ) : Option (Hptr × Hptr) :=
  s.hfind test h (s.phash h) (s.phash h) (c.maxclick + 1)

/-- `if (p == pfd1) *phashslot = q; else p->pf_hchain = q`. -/
def rechain (s : Pages) (h : ℕ) (p pfd1 q : Hptr) : Option Pages :=
  if p = pfd1 then some { s with phash := update s.phash h q }
  else
    match p with
    | .pfd g => some (s.setPfd g fun x => { x with pf_hchain := some q })
    | .slot _ => none

/-- A frame on the queue that has left its chain is put at the head. -/
def requeue (s : Pages) (f : ℕ) : Option Pages :=
  if (s.pfd f).queue = true ∧ s.next .phead ≠ some (.pfd f) then
    (s.unlink (.pfd f)).bind fun s => s.atHead .phead (.pfd f)
  else some s

/-- Disassociate the page from disk. -/
def dissociate (s : Pages) (f : ℕ) : Pages :=
  s.setPfd f fun x => { x with
    pf_blkno := 0, pf_hchain := none, hash := false, swap := false, pf_dev := 0, pf_swpi := 0,
    pf_inumber := 0 }

/-- `pinsert(rp, dbd, pfd)`. -/
def pinsert (c : PageConf) (s : Pages) (rp : ℕ) (d : DiskDesc) (f : ℕ) : Option Pages :=
  (s.key c rp d).bind fun (k, shift) =>
    if (s.pfd f).pf_hchain = none ∧ 0 < (s.pfd f).pf_use then
      let h := keySlot c k shift
      (s.hsearch c (fun g => s.frameKey g = k) h).bind fun (p, pfd1) =>
        match pfd1 with
        | .pfd _ => none
        | .slot _ =>
          (s.rechain h p pfd1 (.pfd f)).map fun s => s.setPfd f fun x =>
            let x := { x with
              pf_hchain := some pfd1, pf_dev := k.dev, pf_inumber := k.inumber,
              pf_blkno := k.blkno, hash := true }
            if d.dbd_type = .swap then { x with pf_swpi := d.dbd_swpi, swap := true }
            else { x with swap := false }
    else none

/-- `premove(pfd)`. -/
def premove (c : PageConf) (s : Pages) (f : ℕ) : Option (ℕ × Pages) :=
  if (s.pfd f).hash then
    let h := s.frameSlot c f
    (s.hsearch c (fun g => g = f) h).bind fun (p, pfd1) =>
      match pfd1 with
      | .slot _ => some (0, s.dissociate f)
      | .pfd _ =>
        (s.pfd f).pf_hchain.bind fun q =>
          (s.rechain h p pfd1 q).bind fun s => (s.requeue f).map fun s => (1, s.dissociate f)
  else none

/-- `pbremove(rp, dbd)`. -/
def pbremove (c : PageConf) (s : Pages) (rp : ℕ) (d : DiskDesc) : Option (ℕ × Pages) :=
  (s.key c rp d).bind fun (k, shift) =>
    let h := keySlot c k shift
    (s.hsearch c (fun g => s.frameKey g = k) h).bind fun (p, pfd1) =>
      match pfd1 with
      | .slot _ => some (0, s)
      | .pfd f =>
        (s.pfd f).pf_hchain.bind fun q =>
          (s.rechain h p pfd1 q).bind fun s => (s.requeue f).map fun s => (1, s.dissociate f)

/-! ## Allocation -/

/-- A frame is taken from the queue, and the frame behind it. -/
def seize (c : PageConf) (s : Pages) (f : ℕ) : Option (Pfp × Pages) :=
  (if (s.pfd f).hash then (s.premove c f).map Prod.snd else some s).bind fun s =>
    (s.next (.pfd f)).bind fun n =>
      (s.unlink (.pfd f)).map fun s =>
        let s := { s with
          next := update s.next (.pfd f) none
          prev := update s.prev (.pfd f) none }
        (n, s.setPfd f fun x => { x with
          pf_blkno := 0, pf_use := 1, pf_rawcnt := 0, queue := false, bad := false, hash := false,
          done := false, swap := false, waiting := false })

/-- The loop of `ptmemall`: `k` more pages, from the entry `base` and the frame `pfd` on. -/
def ptmemallLoop (c : PageConf) (s : Pages) (rp : ℕ) (validate : Bool) (base : ℕ) (pfd : Pfp) :
    ℕ → Option Pages
  | 0 => some s
  | k + 1 =>
    match pfd with
    | .pfd f =>
      if (s.pfd f).queue = true ∧ (s.pfd f).pf_use = 0 ∧ (s.pt base).valid = false then
        (s.seize c f).bind fun (n, s) =>
          let pde := { s.pt base with pfn := f, mod := false, valid := validate }
          ptmemallLoop c ((s.addNvalid rp 1).setPt base pde) rp validate (base + 1) n k
      else none
    | _ => none

/-- `ptmemall(rp, base, size, validate)`, from where `memreserve` has found enough free frames, be
it at once or after it `slept`. -/
def ptmemall (c : PageConf) (s : Pages) (rp base : ℕ) (size : ℤ) (validate slept : Bool) :
    Option (ℕ × Pages) :=
  if 0 < size ∧ size ≤ s.freemem then
    if slept && (s.pt base).valid then some (1, s)
    else
      let s := { s with freemem := s.freemem - size }
      (s.next .phead).bind fun pfd =>
        (s.ptmemallLoop c rp validate base pfd size.toNat).map fun s => (0, s)
  else none

/-- What `pfree` does with the frame of an entry. -/
def pfreeFrame (c : PageConf) (s : Pages) (rp : Option ℕ) (pde : Pde) : Option Pages :=
  if pde.valid then
    let f := pde.pfn
    let x := s.pfd f
    if 0 < x.pf_use ∧ x.queue = false ∧ s.next (.pfd f) = none ∧ s.prev (.pfd f) = none then
      let s := s.setPfd f fun x => { x with pf_use := x.pf_use - 1 }
      (if x.pf_use - 1 = 0 then
        (if x.hash || c.kdebug200 then
          if c.kdebug200 || (pde.cw && !pde.mod) then s.atTail (.pfd f) else none
        else s.atHead .phead (.pfd f)).map fun s =>
          { s.setPfd f fun x => { x with queue := true } with freemem := s.freemem + 1 }
      else some s).map fun s => rp.elim s fun rp => s.addNvalid rp (-1)
    else none
  else some s

/-- What `pfree` does with the swap block of an entry; `last` tells whether `swfree1` returns 0. -/
def pfreeSwap (c : PageConf) (s : Pages) (rp : Option ℕ) (pt : ℕ) (dbd last : Bool) :
    Option Pages :=
  match rp with
  | some r =>
    if dbd = true ∧ (s.dbd pt).dbd_type = .swap ∧ last = true then
      (s.pbremove c r (s.dbd pt)).map Prod.snd
    else some s
  | none => some s

/-- `pfree(rp, pt, dbd, size)` for the entries from `pt` on, with their descriptors if `dbd` is not
null; `sw k` tells whether `swfree1` returns 0 for the one with `k` behind it. -/
def pfree (c : PageConf) (s : Pages) (rp : Option ℕ) (pt : ℕ) (dbd : Bool) (sw : ℕ → Bool) :
    ℕ → Option Pages
  | 0 => some s
  | k + 1 =>
    (s.pfreeSwap c rp pt dbd (sw k)).bind fun s =>
      (s.pfreeFrame c rp (s.pt pt)).bind fun s =>
        let s := s.setPt pt ⟨0, false, false, false⟩
        let s := if dbd then
            { s with dbd := update s.dbd pt { s.dbd pt with dbd_type := .none } }
          else s
        pfree c s rp (pt + 1) dbd sw k

/-- The loop of `freecpages`. -/
def freecpagesLoop (c : PageConf) (s : Pages) (pfn : ℕ) : ℕ → Option Pages
  | 0 => some s
  | k + 1 =>
    (s.pfreeFrame c none ⟨pfn, true, false, false⟩).bind fun s => freecpagesLoop c s (pfn + 1) k

/-- `freecpages(paddr, npgs)`, for the frame at `paddr`.  The body of `while (npgs--)` runs as often
as the integer says without its sign. -/
def freecpages (c : PageConf) (s : Pages) (pfn : ℕ) (npgs : BitVec 32) : Option Pages :=
  freecpagesLoop c { s with
    availrmem := s.availrmem + npgs.toInt
    availsmem := s.availsmem + npgs.toInt } pfn npgs.toNat

/-- The inner loop of `contmemall`, with `pfd1` and `numpages` where it ends; at most `k` frames are
left up to `top`. -/
def contRow (s : Pages) (pfd1 : ℕ) (numpages : ℤ) : ℕ → ℕ × ℤ
  | 0 => (pfd1, numpages)
  | k + 1 =>
    if numpages - 1 > 0 then
      if (s.pfd pfd1).queue then contRow s (pfd1 + 1) (numpages - 1) k else (pfd1, numpages - 1)
    else (pfd1, numpages - 1)

/-- The outer loop of `contmemall`: the first frames `pfd` and `pfd1` with `npgs` free frames from
one up to the other. -/
def contScan (s : Pages) (top : ℕ) (npgs : ℤ) (pfd : ℕ) : ℕ → Option (ℕ × ℕ)
  | 0 => none
  | k + 1 =>
    if pfd < top then
      if (s.pfd pfd).queue then
        let r := s.contRow (pfd + 1) npgs (top - pfd)
        if r.2 = 0 then some (pfd, r.1) else contScan s top npgs (r.1 + 1) k
      else contScan s top npgs (pfd + 1) k
    else none

/-- The frames are taken from `pfd + k` down. -/
def contTake (c : PageConf) (s : Pages) (pfd : ℕ) : ℕ → Option Pages
  | 0 => some s
  | k + 1 => (s.seize c (pfd + k)).bind fun r => contTake c r.2 pfd k

/-- `contmemall(npgs)`: the number of the first frame, or null. -/
def contmemall (c : PageConf) (s : Pages) (npgs : ℤ) : Option (Option ℕ × Pages) :=
  if s.freemem < npgs then some (none, s)
  else if s.availsmem - npgs < c.t_minasmem then some (none, s)
  else if s.availrmem - npgs < c.t_minarmem then some (none, s)
  else
    match s.contScan c.maxclick npgs c.kpbase (c.maxclick - c.kpbase) with
    | none => some (none, s)
    | some (pfd, pfd1) =>
      if pfd1 ≤ c.maxclick ∧ (pfd1 : ℤ) - pfd = npgs then
        (s.contTake c pfd (pfd1 - pfd)).map fun s => (some pfd, { s with
          freemem := s.freemem - npgs
          availrmem := s.availrmem - npgs
          availsmem := s.availsmem - npgs })
      else none

/-! ## Page stealing -/

/-- A frame is put at the end of the queue, as `addfpg` and `memfree` do when its last use ends. -/
def release (s : Pages) (f : ℕ) : Option Pages :=
  let s := s.setPfd f fun x => { x with pf_use := x.pf_use - 1 }
  if (s.pfd f).pf_use = 0 then
    (s.atTail (.pfd f)).map fun s =>
      { s.setPfd f fun x => { x with queue := true } with freemem := s.freemem + 1 }
  else some s

/-- `addfpg(rp, pt)`. -/
def addfpg (s : Pages) (rp pt : ℕ) : Option Pages :=
  let pde := s.pt pt
  let type := (s.dbd pt).dbd_type
  if pde.mod = false ∧ (type = .swap ∨ type = .file ∨ type = .lstfile) ∧
      (s.pfd pde.pfn).hash = true ∧ pde.valid = true then
    ((s.setPt pt { pde with valid := false }).release pde.pfn).map fun s => s.addNvalid rp (-1)
  else none

/-- The loop of `memfree`, over the entries and their regions. -/
def memfreeLoop (s : Pages) : List (ℕ × ℕ) → Option Pages
  | [] => some s
  | (ptptr, rgptr) :: l =>
    let f := (s.pt ptptr).pfn
    if 0 < (s.pfd f).pf_use then
      ((s.setPfd f fun x => { x with done := true }).release f).bind fun s =>
        memfreeLoop (s.addNvalid rgptr (-1)) l
    else none

/-- `memfree(pglptr, size, lockedreg)`. -/
def memfree (c : PageConf) (s : Pages) (pgl : List (ℕ × ℕ)) : Option Pages :=
  if 0 < pgl.length ∧ pgl.length ≤ c.v_maxswaplist then memfreeLoop s pgl else none

/-! ## Memory deleted for load tests -/

/-- The loop of `delmem`. -/
def delmemLoop (c : PageConf) (s : Pages) : ℕ → Option Pages
  | 0 => some s
  | k + 1 =>
    match s.next .phead with
    | some (.pfd f) =>
      if (s.pfd f).queue = true ∧ (s.pfd f).pf_use = 0 then
        (if (s.pfd f).hash then (s.premove c f).map Prod.snd else some s).bind fun s =>
          (s.next (.pfd f)).bind fun n =>
            let s := { s with
              prev := update s.prev n (some .phead)
              next := update s.next .phead (some n) }
            (s.atHead .delmem (.pfd f)).bind fun s =>
              delmemLoop c (s.setPfd f fun x => { x with queue := false }) k
      else none
    | _ => none

/-- `delmem(size)`. -/
def delmem (c : PageConf) (s : Pages) (size : BitVec 32) : Option Pages :=
  let s := if s.next .delmem = none then
      { s with
        next := update s.next .delmem (some .delmem)
        prev := update s.prev .delmem (some .delmem) }
    else s
  let n := size.toInt
  if s.freemem < n ∨ s.availrmem - n < c.t_minarmem ∨ s.availsmem - n < c.t_minasmem then
    some { s with u_error := EINVAL }
  else
    delmemLoop c { s with
      freemem := s.freemem - n
      availrmem := s.availrmem - n
      availsmem := s.availsmem - n
      delmemCnt := s.delmemCnt + n } size.toNat

/-- The body of the loop of `addmem`.  The flags of the two heads are never read. -/
def addmemStep (s : Pages) : Option Pages :=
  (s.next .delmem).bind fun pfd =>
    (s.next pfd).bind fun n =>
      let s := { s with
        next := update s.next .delmem (some n)
        prev := update s.prev n (some .delmem) }
      (s.atHead .phead pfd).map fun s =>
        match pfd with
        | .pfd f => s.setPfd f fun x => { x with queue := true }
        | _ => s

/-- The loop of `addmem`. -/
def addmemLoop (s : Pages) : ℕ → Option Pages
  | 0 => some s
  | k + 1 => s.addmemStep.bind fun s => addmemLoop s k

/-- `addmem(size)`. -/
def addmem (s : Pages) (size : BitVec 32) : Option Pages :=
  let n := size.toInt
  if n > s.delmemCnt then some { s with u_error := EINVAL }
  else
    addmemLoop { s with
      delmemCnt := s.delmemCnt - n
      freemem := s.freemem + n
      availrmem := s.availrmem + n
      availsmem := s.availsmem + n } size.toNat

end Pages

/-! ## Start -/

/-- `struct ram`: what `meminit` reads. -/
structure Ram where
  found : Bool
  ram_lo : ℕ
  ram_sz : ℕ
  deriving Repr

namespace Pages

/-- Memory before `meminit`; `mktables` has made every hash slot name itself. -/
def boot : Pages where
  pfd := fun _ => ⟨false, false, false, false, false, false, 0, 0, 0, 0, 0, 0, none⟩
  next := fun x => if x = .phead then some .phead else none
  prev := fun x => if x = .phead then some .phead else none
  phash := .slot
  freemem := 0
  availrmem := 0
  availsmem := 0
  maxmem := 0
  delmemCnt := 0
  pt := fun _ => ⟨0, false, false, false⟩
  dbd := fun _ => ⟨.none, 0, 0⟩
  r_nvalid := fun _ => 0
  r_iptr := fun _ => none
  u_error := 0

/-- The inner loop of `meminit`: `k` frames from `pfd` on. -/
def meminitRow (s : Pages) (pfd : ℕ) : ℕ → Option Pages
  | 0 => some s
  | k + 1 =>
    (s.atTail (.pfd pfd)).bind fun s =>
      meminitRow (s.setPfd pfd fun x => { x with
        queue := true, bad := false, hash := false, done := false, swap := false,
        waiting := false }) (pfd + 1) k

/-- The outer loop of `meminit`, over the table from its last entry on. -/
def meminitLoop (s : Pages) (first : ℕ) : List Ram → Option Pages
  | [] => some s
  | ram :: l =>
    if ram.found then
      let addr := max ram.ram_lo first
      let size := BitVec.ofNat 32 ram.ram_sz - BitVec.ofNat 32 (addr - ram.ram_lo)
      (s.meminitRow addr size.toNat).bind fun s =>
        meminitLoop { s with freemem := s.freemem + size.toInt } first l
    else meminitLoop s first l

/-- `meminit(first)`. -/
def meminit (first : ℕ) (ram_tbl : List Ram) : Option Pages :=
  (meminitLoop boot first ram_tbl.reverse).map fun s =>
    { s with maxmem := s.freemem, availrmem := s.freemem, availsmem := s.freemem }

end Pages

/-! ## Runs -/

/-- A call; or what callers do in between with a frame in use, with their page tables and with their
regions. -/
inductive PageEvent
  | ptmemall (rp base : ℕ) (size : ℤ) (validate slept : Bool)
  | pfree (rp : Option ℕ) (pt : ℕ) (dbd : Bool) (size : ℤ) (sw : ℕ → Bool)
  | contmemall (npgs : ℤ)
  | freecpages (pfn : ℕ) (npgs : BitVec 32)
  | pinsert (rp : ℕ) (dbd : DiskDesc) (pfd : ℕ)
  | premove (pfd : ℕ)
  | pbremove (rp : ℕ) (dbd : DiskDesc)
  | addfpg (rp pt : ℕ)
  | memfree (pgl : List (ℕ × ℕ))
  | delmem (size : BitVec 32)
  | addmem (size : BitVec 32)
  | share (pfd : ℕ)
  | mark (pfd : ℕ) (bad done waiting : Bool) (rawcnt : ℤ)
  | tables (pt : ℕ → Pde) (dbd : ℕ → DiskDesc) (r_iptr : ℕ → Option PInode)

namespace Pages

/-- One event.  The frame of the entry given to `addfpg` is in use, as that of every valid entry. -/
def step (c : PageConf) (s : Pages) : PageEvent → Option Pages
  | .ptmemall rp base size validate slept =>
    (s.ptmemall c rp base size validate slept).map Prod.snd
  | .pfree rp pt dbd size sw => s.pfree c rp pt dbd sw size.toNat
  | .contmemall npgs => (s.contmemall c npgs).map Prod.snd
  | .freecpages pfn npgs => s.freecpages c pfn npgs
  | .pinsert rp dbd pfd => s.pinsert c rp dbd pfd
  | .premove pfd => (s.premove c pfd).map Prod.snd
  | .pbremove rp dbd => (s.pbremove c rp dbd).map Prod.snd
  | .addfpg rp pt => if 0 < (s.pfd (s.pt pt).pfn).pf_use then s.addfpg rp pt else none
  | .memfree pgl => s.memfree c pgl
  | .delmem size => s.delmem c size
  | .addmem size => s.addmem size
  | .share pfd =>
    if 0 < (s.pfd pfd).pf_use then some (s.setPfd pfd fun x => { x with pf_use := x.pf_use + 1 })
    else none
  | .mark pfd bad done waiting rawcnt =>
    some (s.setPfd pfd fun x =>
      { x with bad := bad, done := done, waiting := waiting, pf_rawcnt := rawcnt })
  | .tables pt dbd r_iptr => some { s with pt := pt, dbd := dbd, r_iptr := r_iptr }

end Pages

end Os
