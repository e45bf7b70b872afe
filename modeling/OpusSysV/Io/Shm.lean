import Mathlib.Algebra.BigOperators.Group.Finset.Basic
import Mathlib.Logic.Function.Basic
import OpusSysV.Lib.Run

/-!
# Shared memory

`shmget`, `shmat`, `shmctl` and `shmdt`.  Each takes the region from the table of identifiers, and waits
for the lock of the region then; `growreg` sleeps with the lock held.

* `Sys` — the table, the regions, who has which region attached, and what each process waits for.
* `Sys.shmget`, `Sys.shmat`, `Sys.shmctl`, `Sys.shmdt` — the calls; `Sys.resume`, `Sys.growreg` — what they
  do after they have slept.
* `step` — the calls in any order.
-/

namespace Io.Shm

open Function

/-- The size of the tables, and how much memory is kept for others. -/
structure Tune where
  shmmni : ℕ
  v_region : ℕ
  t_minarmem : ℤ

inductive RType
  | none
  | RT_SHMEM
  | RT_PHMEM
  deriving DecidableEq, Repr

structure Region where
  r_type : RType
  RG_LOCK : Bool
  RG_DONE : Bool
  RG_NOFREE : Bool
  r_refcnt : ℕ
  r_pgsz : ℕ
  r_noswapcnt : ℕ
  deriving DecidableEq, Repr

/-- A region as `freereg` leaves it. -/
def Region.zero : Region := ⟨.none, false, false, false, 0, 0, 0⟩

/-- Locked pages of a region that are not in `availrmem`. -/
def Region.locked (x : Region) : ℕ :=
  if x.r_type ≠ RType.RT_PHMEM ∧ x.r_noswapcnt ≠ 0 then x.r_pgsz else 0

/-- `struct shmid_ds`; `IPC_ALLOC` and `SHM_INIT` are bits of `shm_perm.mode`. -/
structure Shmid where
  IPC_ALLOC : Bool
  SHM_INIT : Bool
  seq : ℕ
  shm_segsz : ℕ
  shm_reg : Option ℕ
  shm_lpid : ℕ
  deriving DecidableEq, Repr

inductive Cmd
  | SHM_LOCK
  | SHM_UNLOCK
  deriving DecidableEq, Repr

/-- Where a process sleeps. -/
inductive Call
  | idle
  /-- `shmget`, in `allocreg` -/
  | get (i r size : ℕ) (phys : Bool)
  /-- `shmat`, in `reglock` -/
  | at (id : ℤ) (i r : ℕ)
  /-- `shmat`, in `growreg` -/
  | grow (id : ℤ) (i r change : ℕ)
  /-- `shmat`, in `regwait` -/
  | wait (id : ℤ)
  /-- `shmctl` with `IPC_RMID`, in `reglock` -/
  | rmid (id : ℤ) (r : ℕ)
  /-- `shmctl`, in `reglock` -/
  | ctl (cmd : Cmd) (id : ℤ) (i r : ℕ)
  /-- `shmdt`, in `reglock` -/
  | dt (r : ℕ)
  deriving DecidableEq, Repr

/-- `att` has a process and a region for each `PT_SHMEM` pregion; `kern` has the regions that are locked
by other parts of the kernel. -/
structure Sys where
  shmem : ℕ → Shmid
  region : ℕ → Region
  rfree : List ℕ
  availrmem : ℤ
  att : List (ℕ × ℕ)
  kern : List ℕ
  call : ℕ → Call

/-- What `shmat` finds out: whether the identifier may be used, whether the process has room for the
region, whether `attachreg` works, and whether `growreg` may begin. -/
structure Answers where
  access : Bool
  room : Bool
  attach : Bool
  grow : Bool
  deriving DecidableEq, Repr

def btoc (x : ℕ) : ℕ := (x + 4095) / 4096

namespace Sys

variable (c : Tune) (s : Sys)

def setCall (p : ℕ) (x : Call) : Sys := { s with call := update s.call p x }

def setRegion (r : ℕ) (x : Region) : Sys := { s with region := update s.region r x }

def setShmid (i : ℕ) (x : Shmid) : Sys := { s with shmem := update s.shmem i x }

/-- `shmconv(s)`. -/
def shmconv (id : ℤ) : Option ℕ :=
  if id < 0 then none
  else
    let sp := id.toNat % c.shmmni
    if (s.shmem sp).IPC_ALLOC = true ∧ id.toNat / c.shmmni = (s.shmem sp).seq then some sp else none

/-! ## Regions -/

/-- `freereg(rp)`. -/
def freereg (r : ℕ) : Sys :=
  { s with
    availrmem := s.availrmem + (s.region r).locked
    region := update s.region r Region.zero
    rfree := r :: s.rfree }

/-- `regrele(rp)`. -/
def regrele (r : ℕ) : Sys := s.setRegion r { s.region r with RG_LOCK := false }

/-- `detachreg(prp, up)`. -/
def detachreg (p r : ℕ) : Sys :=
  let x := s.region r
  let s := { s with att := s.att.erase (p, r) }
  let s := s.setRegion r { x with r_refcnt := x.r_refcnt - 1 }
  if x.r_refcnt - 1 = 0 ∧ x.RG_NOFREE = false then s.freereg r else s.regrele r

/-! ## `shmget` -/

/-- `shmget`, when it has the lock of the new region. -/
def getLocked (p i r size : ℕ) (phys : Bool) : Sys :=
  let sp := s.shmem i
  let rp := s.region r
  let s := s.setShmid i { sp with SHM_INIT := true, shm_segsz := size, shm_reg := some r, shm_lpid := 0 }
  let s := s.setRegion r { rp with
    RG_LOCK := false, RG_NOFREE := true, r_noswapcnt := rp.r_noswapcnt + if phys then 1 else 0 }
  s.setCall p .idle

/-- `shmget`, for a new segment. -/
def shmget (p size : ℕ) (phys : Bool) : Option Sys :=
  match (List.range c.shmmni).find? (fun i => !(s.shmem i).IPC_ALLOC), s.rfree with
  | some i, r :: rest =>
    let sp := s.shmem i
    let rp := s.region r
    let s := { s with rfree := rest }
    let s := s.setShmid i { sp with IPC_ALLOC := true, SHM_INIT := false }
    let s := s.setRegion r { rp with r_type := if phys then .RT_PHMEM else .RT_SHMEM }
    if rp.RG_LOCK then some (s.setCall p (.get i r size phys)) else some (s.getLocked p i r size phys)
  | _, _ => none

/-! ## `shmat` -/

/-- `shmat`, after `growreg` has failed. -/
def growFailed (p i r : ℕ) : Sys :=
  let s := s.setShmid i { s.shmem i with SHM_INIT := true }
  (s.detachreg p r).setCall p .idle

/-- `shmat`, when it has the lock of the region. -/
def atLocked (p : ℕ) (id : ℤ) (i r : ℕ) (a : Answers) : Sys :=
  let sp := s.shmem i
  let rp := s.region r
  if rp.r_pgsz ≠ 0 ∧ a.room = false then s.setCall p .idle
  else if rp.RG_DONE = false ∧ sp.SHM_INIT = false then s.setCall p (.wait id)
  else if a.attach = false then s.setCall p .idle
  else
    let s := { s with att := (p, r) :: s.att }
    let s := s.setRegion r { rp with RG_LOCK := true, r_refcnt := rp.r_refcnt + 1 }
    if sp.SHM_INIT then
      let s := s.setShmid i { sp with SHM_INIT := false }
      let change := btoc sp.shm_segsz
      if a.grow = false ∨
          (rp.r_type ≠ RType.RT_PHMEM ∧ rp.r_noswapcnt ≠ 0 ∧ s.availrmem - change < c.t_minarmem) then
        s.growFailed p i r
      else s.setCall p (.grow id i r change)
    else
      let s := s.regrele r
      (s.setShmid i { sp with shm_lpid := p }).setCall p .idle

/-- `shmat`, after `growreg` has returned. -/
def growreg (p i r change : ℕ) (ok : Bool) : Sys :=
  if ok then
    let rp := { s.region r with r_pgsz := (s.region r).r_pgsz + change }
    let s := { s with
      availrmem := s.availrmem - if rp.r_type ≠ RType.RT_PHMEM ∧ rp.r_noswapcnt ≠ 0 then change else 0 }
    let s := s.setRegion r { rp with RG_DONE := true, RG_LOCK := false }
    (s.setShmid i { s.shmem i with shm_lpid := p }).setCall p .idle
  else s.growFailed p i r

/-- `shmat(id, addr, flag)`; there is no result where the source uses a null pointer. -/
def shmat (p : ℕ) (id : ℤ) (a : Answers) : Option Sys :=
  match s.shmconv c id with
  | none => some (s.setCall p .idle)
  | some i =>
    if a.access = false then some (s.setCall p .idle)
    else
      match (s.shmem i).shm_reg with
      | none => none
      | some r =>
        if (s.region r).RG_LOCK then some (s.setCall p (.at id i r)) else some (s.atLocked c p id i r a)

/-! ## `shmctl` -/

/-- The next number for a slot; `seq` is an unsigned short. -/
def nextSeq (i seq : ℕ) : ℕ :=
  let seq := (seq + 1) % 65536
  if 2 ^ 31 ≤ (seq * c.shmmni + i) % 2 ^ 32 then 0 else seq

/-- `shmctl` with `IPC_RMID`, when it has the lock of the region. -/
def rmidLocked (p r : ℕ) : Sys :=
  let rp := s.region r
  if rp.r_refcnt = 0 then (s.freereg r).setCall p .idle
  else (s.setRegion r { rp with RG_NOFREE := false, RG_LOCK := false }).setCall p .idle

/-- `shmctl(id, IPC_RMID)`. -/
def rmid (p : ℕ) (id : ℤ) : Option Sys :=
  match s.shmconv c id with
  | none => some s
  | some i =>
    match (s.shmem i).shm_reg with
    | none => none
    | some r =>
      let sp := s.shmem i
      let s := s.setShmid i
        ⟨false, false, nextSeq c i sp.seq, 0, none, sp.shm_lpid⟩
      if (s.region r).RG_LOCK then some (s.setCall p (.rmid id r)) else some (s.rmidLocked p r)

/-- `shmctl` with `SHM_LOCK` or `SHM_UNLOCK`, when it has the lock of the region. -/
def ctlLocked (p r : ℕ) : Cmd → Sys
  | .SHM_LOCK =>
    let rp := s.region r
    if rp.r_noswapcnt = 0 ∧ s.availrmem - rp.r_pgsz < c.t_minarmem then s.setCall p .idle
    else
      let s := { s with
        availrmem := s.availrmem - if rp.r_noswapcnt = 0 then rp.r_pgsz else 0 }
      (s.setRegion r { rp with r_noswapcnt := rp.r_noswapcnt + 1 }).setCall p .idle
  | .SHM_UNLOCK =>
    let rp := s.region r
    let s := { s with
      availrmem := s.availrmem + if rp.r_noswapcnt = 1 then rp.r_pgsz else 0 }
    (s.setRegion r { rp with r_noswapcnt := rp.r_noswapcnt - 1 }).setCall p .idle

/-- `shmctl(id, cmd)`. -/
def shmctl (p : ℕ) (id : ℤ) (cmd : Cmd) : Option Sys :=
  match s.shmconv c id with
  | none => some s
  | some i =>
    match (s.shmem i).shm_reg with
    | none => none
    | some r =>
      if (s.region r).r_type = .RT_PHMEM then some s
      else if (s.region r).RG_LOCK then some (s.setCall p (.ctl cmd id i r))
      else some (s.ctlLocked c p r cmd)

/-! ## `shmdt` -/

/-- `shmdt`, when it has the lock of the region. -/
def dtLocked (p r : ℕ) : Sys :=
  let s := s.detachreg p r
  let s :=
    match (List.range c.shmmni).find? fun i => (s.shmem i).shm_reg = some r with
    | none => s
    | some i => s.setShmid i { s.shmem i with shm_lpid := p }
  s.setCall p .idle

/-- `shmdt(addr)`, where region `r` is at the address. -/
def shmdt (p r : ℕ) : Option Sys :=
  if (p, r) ∈ s.att then
    if (s.region r).RG_LOCK then some (s.setCall p (.dt r)) else some (s.dtLocked c p r)
  else none

/-! ## Any order -/

/-- `reglock` goes on when the region is not locked any more. -/
def resume (p : ℕ) (a : Answers) : Option Sys :=
  match s.call p with
  | .get i r size phys => if (s.region r).RG_LOCK then none else some (s.getLocked p i r size phys)
  | .at id i r => if (s.region r).RG_LOCK then none else some (s.atLocked c p id i r a)
  | .wait id => s.shmat c p id a
  | .rmid _ r => if (s.region r).RG_LOCK then none else some (s.rmidLocked p r)
  | .ctl cmd _ _ r => if (s.region r).RG_LOCK then none else some (s.ctlLocked c p r cmd)
  | .dt r => if (s.region r).RG_LOCK then none else some (s.dtLocked c p r)
  | _ => none

end Sys

inductive Event
  | shmget (p size : ℕ) (phys : Bool)
  | shmat (p : ℕ) (id : ℤ) (a : Answers)
  | rmid (p : ℕ) (id : ℤ)
  | shmctl (p : ℕ) (id : ℤ) (cmd : Cmd)
  | shmdt (p r : ℕ)
  | resume (p : ℕ) (a : Answers)
  | grown (p : ℕ) (ok : Bool)
  /-- another part of the kernel locks a region that is in use, or releases it -/
  | lock (r : ℕ)
  | unlock (r : ℕ)
  deriving DecidableEq, Repr

/-- A call begins when the process is in none. -/
def step (c : Tune) (s : Sys) : Event → Option Sys
  | .shmget p size phys => if s.call p = .idle then s.shmget c p size phys else none
  | .shmat p id a => if s.call p = .idle then s.shmat c p id a else none
  | .rmid p id => if s.call p = .idle then s.rmid c p id else none
  | .shmctl p id cmd => if s.call p = .idle then s.shmctl c p id cmd else none
  | .shmdt p r => if s.call p = .idle then s.shmdt c p r else none
  | .resume p a => s.resume c p a
  | .grown p ok =>
    match s.call p with
    | .grow _ i r change => some (s.growreg p i r change ok)
    | _ => none
  | .lock r =>
    if (s.region r).r_type ≠ .none ∧ (s.region r).RG_LOCK = false then
      some { s.setRegion r { s.region r with RG_LOCK := true } with kern := r :: s.kern }
    else none
  | .unlock r =>
    if r ∈ s.kern then some { s.regrele r with kern := s.kern.erase r } else none

/-- No segments, and all regions free. -/
def boot (c : Tune) (availrmem : ℤ) : Sys where
  shmem := fun _ => ⟨false, false, 0, 0, none, 0⟩
  region := fun _ => Region.zero
  rfree := List.range c.v_region
  availrmem := availrmem
  att := []
  kern := []
  call := fun _ => .idle

end Io.Shm
