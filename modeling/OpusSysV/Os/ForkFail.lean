import OpusSysV.Io.SemLedger
import OpusSysV.Os.Flock

/-!
# A fork that fails: `newproc` and `pexit`

`newproc` counts one more reference to the open files and to the directories, duplicates the
regions, and if it cannot, takes all of it back: the regions by `detachreg`, the rest by `pexit`,
which closes every file and calls `semexit`.  It sleeps for the locks of the inodes and for
memory, and other processes go on meanwhile.

* `Forker` — what stays as it is: the parent with its files, directories and regions.
* `turn` — the parts of `newproc` between two sleeps; `Other` — what other processes do.
* `ForkState.base` — the same counts, semaphores and children had the call not been made.
* `fork_failed_iff` — a call that fails leaves the parent as it was if and only if it found no
  process slot, or the parent holds no record locks on its open files, is not registered with
  their streams, has no entries to adjust on exit, and was given no children meanwhile.
-/

namespace Os.ForkFail

open Lib Io Function List Option

/-! ## The parent -/

/-- A region of the parent: its inode, and whether `dupreg` makes a copy of it, since it is
private or of a 407 file. -/
structure PregInfo where
  reg : ℕ
  r_iptr : Option ℕ
  dups : Bool
  deriving DecidableEq

/-- The parent: its slot, the slot found for the child, `p_epid` and `p_sysid`, the open files,
the inodes of the files, the directories and the regions.  `sock` are the inodes of sockets and
`stream` those with an `i_sptr` that are no directory; the others are of an s5 file system.
`room` says that there is a slot, and not too many processes. -/
structure Forker where
  pp : ℕ
  cp : ℕ
  owner : Owner
  u_ofile : List (Option ℕ)
  f_inode : ℕ → ℕ
  sock : ℕ → Bool
  stream : ℕ → Bool
  u_cdir : ℕ
  u_rdir : Option ℕ
  pregs : List PregInfo
  room : Bool

/-- What the call counts up and down, the semaphores, and the children of the parent from
`p_child` on. -/
structure Kern where
  f_count : ℕ → ℤ
  i_count : ℕ → ℤ
  r_refcnt : ℕ → ℤ
  sem : SemState
  p_child : List ℕ

/-- Where the parent is in `newproc`: before it, waiting for the lock of a directory, in
`setuctxt`, at a region to be duplicated, at one to be detached, at a file to be closed, waiting
for a directory that is put; or it has returned 0, -1 from the beginning, or -1 from the end. -/
inductive Pc
  | start
  | cdir
  | rdir
  | setuctxt
  | dup (k : ℕ)
  | detach (k : ℕ)
  | close (n : ℕ)
  | putCdir
  | putRdir
  | made
  | refused
  | failed
  deriving DecidableEq

/-- The kernel with the call, and without it; the record locks of each inode, and the processes
registered with its stream for signals and for `poll`, with their events. -/
structure ForkState where
  cur : Kern
  base : Kern
  i_filocks : ℕ → List Filock
  sd_siglist : ℕ → List (ℕ × ℤ)
  sd_pollist : ℕ → List (ℕ × ℤ)
  pc : Pc

/-! ## `newproc` -/

/-- What fails in `dupreg` or after it: there is not enough memory or no free region, or no
memory for the list, or for a page table, or the use count of a page on swap is at its limit, or
the copy cannot be attached. -/
inductive Fail
  | nomem
  | noregion
  | nolist
  | notable
  | swapuse
  | attach
  deriving DecidableEq

/-- What the memory allocation comes to in a turn. -/
inductive Choice
  | ok
  | fail (how : Fail)
  deriving DecidableEq

namespace Kern

/-- `i_count++` of the inode of a region. -/
def iref (w : Kern) (ip : Option ℕ) : Kern :=
  match ip with
  | none => w
  | some ip => { w with i_count := update w.i_count ip (w.i_count ip + 1) }

/-- `iput`. -/
def iput (w : Kern) (ip : Option ℕ) : Kern :=
  match ip with
  | none => w
  | some ip => { w with i_count := update w.i_count ip (w.i_count ip - 1) }

/-- `r_refcnt` of a region that is shared. -/
def rref (w : Kern) (r : ℕ) (d : ℤ) : Kern :=
  { w with r_refcnt := update w.r_refcnt r (w.r_refcnt r + d) }

/-- `f_count++` for the open files. -/
def frefs (w : Kern) (files : List (Option ℕ)) : Kern :=
  files.foldl (fun w f => match f with
    | none => w
    | some f => { w with f_count := update w.f_count f (w.f_count f + 1) }) w

/-- `dupreg` and `attachreg`: a copy has a reference to the inode. -/
def dupreg (w : Kern) (x : PregInfo) : Kern :=
  if x.dups then w.iref x.r_iptr else w.rref x.reg 1

/-- `detachreg`: a copy is freed, and puts its inode. -/
def detachreg (w : Kern) (x : PregInfo) : Kern :=
  if x.dups then w.iput x.r_iptr else w.rref x.reg (-1)

/-- `dupreg` or `attachreg` fails: the region that was allocated for a copy is freed. -/
def dupfail (w : Kern) (x : PregInfo) : Fail → Kern
  | .nomem => w
  | .noregion => w
  | _ => if x.dups then (w.iref x.r_iptr).iput x.r_iptr else w

end Kern

/-- `strclean` on a list of a stream. -/
def strclean (pp : ℕ) (l : List (ℕ × ℤ)) : List (ℕ × ℤ) := l.filter fun sep => sep.1 ≠ pp

/-- `FS_CLOSEI` of a file that others have open. -/
def closei (P : Forker) (s : ForkState) (ip : ℕ) : ForkState :=
  if P.sock ip then s
  else
    let s := { s with
      i_filocks := update s.i_filocks ip (cleanlocks P.owner false (s.i_filocks ip)) }
    if P.stream ip then
      { s with
        sd_siglist := update s.sd_siglist ip (strclean P.pp (s.sd_siglist ip))
        sd_pollist := update s.sd_pollist ip (strclean P.pp (s.sd_pollist ip)) }
    else s

/-- `closef(fp)`; the last close of a file is not described further. -/
def closef (P : Forker) (s : ForkState) (f : ℕ) : ForkState :=
  if s.cur.f_count f ≤ 0 then s
  else
    let s := closei P s (P.f_inode f)
    if 1 < s.cur.f_count f then
      { s with cur := { s.cur with
        f_count := update s.cur.f_count f (s.cur.f_count f - 1) } }
    else
      let cur := { s.cur with f_count := update s.cur.f_count f 0 }
      { s with cur := cur.iput (some (P.f_inode f)) }

/-- The end of `pexit` and of `newproc`: `semexit`, and the child is taken off the chain. -/
def unlink (cfg : SemInfo) (P : Forker) (s : ForkState) : ForkState :=
  { s with
    cur := { s.cur with
      sem := semexit cfg P.pp s.cur.sem
      p_child := (s.cur.p_child.dropWhile (· ≠ P.cp)).tail }
    pc := .failed }

/-- The parent goes on to where it sleeps next. -/
def turn (cfg : SemInfo) (P : Forker) (s : ForkState) (x : Choice) : Option ForkState :=
  match s.pc with
  | .start =>
    if P.room then
      let cur := { s.cur with p_child := P.cp :: s.cur.p_child }
      some { s with cur := cur.frefs P.u_ofile, pc := .cdir }
    else some { s with pc := .refused }
  | .cdir =>
    some { s with
      cur := s.cur.iref (some P.u_cdir)
      pc := if P.u_rdir.isSome then .rdir else .setuctxt }
  | .rdir => some { s with cur := s.cur.iref P.u_rdir, pc := .setuctxt }
  | .setuctxt => some { s with pc := if x = .ok then .dup 0 else .close 0 }
  | .dup k =>
    match P.pregs[k]? with
    | none => some { s with pc := .made }
    | some y =>
      match x with
      | .ok => some { s with cur := s.cur.dupreg y, pc := .dup (k + 1) }
      | .fail how => some { s with cur := s.cur.dupfail y how, pc := .detach k }
  | .detach 0 => some { s with pc := .close 0 }
  | .detach (k + 1) =>
    match P.pregs[k]? with
    | none => none
    | some y => some { s with cur := s.cur.detachreg y, pc := .detach k }
  | .close n =>
    match P.u_ofile[n]? with
    | none => some { s with pc := .putCdir }
    | some none => some { s with pc := .close (n + 1) }
    | some (some f) => some { closef P s f with pc := .close (n + 1) }
  | .putCdir =>
    let s := { s with cur := s.cur.iput (some P.u_cdir) }
    some (if P.u_rdir.isSome then { s with pc := .putRdir } else unlink cfg P s)
  | .putRdir => some (unlink cfg P { s with cur := s.cur.iput P.u_rdir })
  | _ => none

/-! ## The other processes -/

/-- The process of an event of the semaphores. -/
def semProc : SemEvent → ℕ
  | .semop p .. => p
  | .resume p _ => p
  | .interrupt p => p
  | .semctl p .. => p
  | .semexit p => p

/-- What another process does: it takes or gives back a reference, sets its record locks on an
inode or its registrations with a stream, so that the lists are these, uses the semaphores, or
leaves its children to process 1. -/
inductive Other
  | fref (f : ℕ) (up : Bool)
  | iref (ip : ℕ) (up : Bool)
  | rref (r : ℕ) (up : Bool)
  | flock (ip : ℕ) (l : List Filock)
  | siglist (ip : ℕ) (l : List (ℕ × ℤ))
  | pollist (ip : ℕ) (l : List (ℕ × ℤ))
  | sem (e : SemEvent)
  | adopt (children : List ℕ)

/-- The record locks of the parent. -/
def own (P : Forker) (l : List Filock) : List Flock :=
  (l.filter fun f => cleans P.owner false f.owner).map Filock.set

/-- The registrations of the parent. -/
def mine (P : Forker) (l : List (ℕ × ℤ)) : List (ℕ × ℤ) := l.filter fun sep => sep.1 = P.pp

/-- The references of the parent to a file. -/
def refs (P : Forker) (f : ℕ) : ℕ := P.u_ofile.count (some f)

/-- One or minus one. -/
def unit (up : Bool) : ℤ := if up then 1 else -1

/-- What other processes do to the counts, the semaphores and the children. -/
def Kern.other (cfg : SemInfo) (w : Kern) : Other → Option Kern
  | .fref f up => some { w with f_count := update w.f_count f (w.f_count f + unit up) }
  | .iref ip up => some { w with i_count := update w.i_count ip (w.i_count ip + unit up) }
  | .rref r up => some (w.rref r (unit up))
  | .sem e => (w.sem.step cfg e).map fun sem => { w with sem := sem }
  | .adopt children => some { w with p_child := children ++ w.p_child }
  | _ => some w

/-- The others give back only references of theirs and change no locks or registrations of the
parent, and only process 1 is given children. -/
def allowed (P : Forker) (s : ForkState) : Other → Bool
  | .fref f up => up || decide ((refs P f : ℤ) < s.base.f_count f)
  | .flock ip l => own P l = own P (s.i_filocks ip)
  | .siglist ip l => mine P l = mine P (s.sd_siglist ip)
  | .pollist ip l => mine P l = mine P (s.sd_pollist ip)
  | .sem e => semProc e ≠ P.pp
  | .adopt children => P.pp = 1 ∧ P.cp ∉ children
  | _ => true

/-- The lists that another process sets. -/
def lists (s : ForkState) : Other → ForkState
  | .flock ip l => { s with i_filocks := update s.i_filocks ip l }
  | .siglist ip l => { s with sd_siglist := update s.sd_siglist ip l }
  | .pollist ip l => { s with sd_pollist := update s.sd_pollist ip l }
  | _ => s

/-- What happens: the parent goes on, or another process does something. -/
inductive ForkEvent
  | run (x : Choice)
  | other (o : Other)

/-- One event; the others are looked at from the beginning of the call to its end. -/
def step (cfg : SemInfo) (P : Forker) (s : ForkState) : ForkEvent → Option ForkState
  | .run x => turn cfg P s x
  | .other o =>
    if allowed P s o ∧ s.pc ∉ [.start, .refused, .failed] then
      (s.cur.other cfg o).bind fun cur => (s.base.other cfg o).map fun base =>
        { lists s o with cur := cur, base := base }
    else none

/-! ## A failed call -/

/-- The call begins: the parent has the references that its files say. -/
structure Start (P : Forker) (s : ForkState) : Prop where
  pc : s.pc = .start
  base : s.base = s.cur
  files : ∀ f, (refs P f : ℤ) ≤ s.cur.f_count f
  child : P.cp ∉ s.cur.p_child

/-- The parent is as it was: it holds the same record locks and registrations, and the counts,
the semaphores, its entries to adjust on exit and its children are as without the call. -/
structure LeftAlone (P : Forker) (s t : ForkState) : Prop where
  locks : ∀ ip, own P (t.i_filocks ip) = own P (s.i_filocks ip)
  siglist : ∀ ip, mine P (t.sd_siglist ip) = mine P (s.sd_siglist ip)
  pollist : ∀ ip, mine P (t.sd_pollist ip) = mine P (s.sd_pollist ip)
  f_count : t.cur.f_count = t.base.f_count
  i_count : t.cur.i_count = t.base.i_count
  r_refcnt : t.cur.r_refcnt = t.base.r_refcnt
  semval : ∀ g, (t.cur.sem.sem g).semval = (t.base.sem.sem g).semval
  entries : t.cur.sem.entries P.pp = t.base.sem.entries P.pp
  p_child : t.cur.p_child = t.base.p_child

/-- The inode is that of an open file which is no socket. -/
def Open (P : Forker) (ip : ℕ) : Prop :=
  ∃ f, some f ∈ P.u_ofile ∧ P.f_inode f = ip ∧ P.sock ip = false

/-- The parent has nothing that a close and `semexit` take away, and no children were given to it
meanwhile. -/
structure Clean (P : Forker) (s t : ForkState) : Prop where
  locks : ∀ ip, Open P ip → own P (s.i_filocks ip) = []
  siglist : ∀ ip, Open P ip → P.stream ip = true → mine P (s.sd_siglist ip) = []
  pollist : ∀ ip, Open P ip → P.stream ip = true → mine P (s.sd_pollist ip) = []
  entries : t.base.sem.entries P.pp = []
  p_child : t.base.p_child = s.base.p_child

/-! ## What the call has changed so far -/

/-- The files that are closed again. -/
def closedTo (P : Forker) : Pc → ℕ
  | .close n => n
  | .putCdir => P.u_ofile.length
  | .putRdir => P.u_ofile.length
  | .failed => P.u_ofile.length
  | _ => 0

/-- The regions that are duplicated. -/
def dupTo (P : Forker) : Pc → ℕ
  | .dup k => k
  | .detach k => k
  | .made => P.pregs.length
  | _ => 0

/-- The references to a file that the child has. -/
def fextra (P : Forker) (pc : Pc) (f : ℕ) : ℕ :=
  if pc ∈ [.start, .refused] then 0 else (P.u_ofile.drop (closedTo P pc)).count (some f)

/-- The reference to the current directory is counted. -/
def cdHeld : Pc → Bool
  | .start => false
  | .cdir => false
  | .putRdir => false
  | .refused => false
  | .failed => false
  | _ => true

/-- The reference to the root directory is counted. -/
def rdHeld : Pc → Bool
  | .start => false
  | .cdir => false
  | .rdir => false
  | .refused => false
  | .failed => false
  | _ => true

/-- The references to an inode that the child and its regions have. -/
def iextra (P : Forker) (pc : Pc) (ip : ℕ) : ℤ :=
  (if cdHeld pc ∧ P.u_cdir = ip then 1 else 0) + (if rdHeld pc ∧ P.u_rdir = some ip then 1 else 0) +
    (P.pregs.take (dupTo P pc)).countP fun x => x.dups ∧ x.r_iptr = some ip

/-- The references to a shared region that the child has. -/
def rextra (P : Forker) (pc : Pc) (r : ℕ) : ℤ :=
  (P.pregs.take (dupTo P pc)).countP fun x => ¬ x.dups ∧ x.reg = r

/-- The children that process 1 is given. -/
def Other.adopted : Other → List ℕ
  | .adopt children => children
  | _ => []

/-- A file of the inode is closed again. -/
def Closed (P : Forker) (pc : Pc) (ip : ℕ) : Prop :=
  ∃ f, some f ∈ P.u_ofile.take (closedTo P pc) ∧ P.f_inode f = ip ∧ P.sock ip = false

/-- A list of the parent is emptied or left. -/
def Taken (gone : Prop) {α : Type} (now before : List α) : Prop :=
  (gone → now = []) ∧ (¬ gone → now = before)

/-- The chain of children during the call and without it. -/
def Chain (P : Forker) (before cur base : List ℕ) (pc : Pc) : Prop :=
  if pc ∈ [.start, .refused] then cur = base ∧ base = before
  else if pc = .failed then cur = before
  else ∃ qs, cur = qs ++ P.cp :: before ∧ base = qs ++ before ∧ P.cp ∉ qs

/-- What every event keeps. -/
structure Inv (cfg : SemInfo) (P : Forker) (s t : ForkState) : Prop where
  f_count : ∀ f, t.cur.f_count f = t.base.f_count f + fextra P t.pc f
  files : ∀ f, (refs P f : ℤ) ≤ t.base.f_count f
  i_count : ∀ ip, t.cur.i_count ip = t.base.i_count ip + iextra P t.pc ip
  r_refcnt : ∀ r, t.cur.r_refcnt r = t.base.r_refcnt r + rextra P t.pc r
  locks : ∀ ip, Taken (Closed P t.pc ip) (own P (t.i_filocks ip)) (own P (s.i_filocks ip))
  siglist : ∀ ip, Taken (Closed P t.pc ip ∧ P.stream ip = true) (mine P (t.sd_siglist ip))
    (mine P (s.sd_siglist ip))
  pollist : ∀ ip, Taken (Closed P t.pc ip ∧ P.stream ip = true) (mine P (t.sd_pollist ip))
    (mine P (s.sd_pollist ip))
  sem : t.cur.sem = if t.pc = .failed then semexit cfg P.pp t.base.sem else t.base.sem
  p_child : Chain P s.base.p_child t.cur.p_child t.base.p_child t.pc

section inv

variable {cfg : SemInfo} {P : Forker} {s t u : ForkState} {w : Kern} {f ip r k n : ℕ}

theorem Taken.congr {gone gone' : Prop} {α : Type} {now before : List α}
    (ht : Taken gone now before) (h : gone' ↔ gone) : Taken gone' now before :=
  ⟨fun hg => ht.1 (h.mp hg), fun hg => ht.2 fun hg' => hg (h.mpr hg')⟩

theorem Taken.step {gone gone' q : Prop} {α : Type} {now now' before : List α}
    (ht : Taken gone now before) (h : gone' ↔ gone ∨ q) (hq : q → now' = [])
    (hn : ¬ q → now' = now) : Taken gone' now' before := by
  refine ⟨fun hg => ?_, fun hg => ?_⟩
  · by_cases h' : q
    · exact hq h'
    · rw [hn h']
      exact ht.1 ((h.mp hg).resolve_right h')
  · rw [hn fun h' => hg (h.mpr (Or.inr h'))]
    exact ht.2 fun h' => hg (h.mpr (Or.inl h'))

theorem Start.inv (hs : Start P s) : Inv cfg P s s := by
  have hpc := hs.pc
  have hclosed : ∀ ip, ¬ Closed P s.pc ip := by
    rintro ip ⟨f, hf, -⟩
    rw [hpc] at hf
    exact absurd hf (by simp [closedTo])
  refine ⟨fun f => ?_, fun f => ?_, fun ip => ?_, fun r => ?_, fun ip => ?_, fun ip => ?_,
    fun ip => ?_, ?_, ?_⟩
  · rw [hs.base, hpc, fextra, if_pos (by decide)]
    simp
  · rw [hs.base]
    exact hs.files f
  · rw [hs.base, hpc]
    simp [iextra, cdHeld, rdHeld, dupTo]
  · rw [hs.base, hpc]
    simp [rextra, dupTo]
  · exact ⟨fun h => absurd h (hclosed ip), fun _ => rfl⟩
  · exact ⟨fun h => absurd h.1 (hclosed ip), fun _ => rfl⟩
  · exact ⟨fun h => absurd h.1 (hclosed ip), fun _ => rfl⟩
  · rw [hpc, if_neg (by decide), hs.base]
  · rw [Chain, hpc, if_pos (by decide)]
    exact ⟨by rw [hs.base], rfl⟩

/-! ## The counts -/

@[simp] theorem frefs_other (files : List (Option ℕ)) (w : Kern) :
    (w.frefs files).i_count = w.i_count ∧ (w.frefs files).r_refcnt = w.r_refcnt ∧
      (w.frefs files).sem = w.sem ∧ (w.frefs files).p_child = w.p_child := by
  induction files generalizing w with
  | nil => exact ⟨rfl, rfl, rfl, rfl⟩
  | cons x files ih =>
    cases x with
    | none => exact ih w
    | some f => exact ih { w with f_count := update w.f_count f (w.f_count f + 1) }

theorem frefs_count (files : List (Option ℕ)) (w : Kern) (f : ℕ) :
    (w.frefs files).f_count f = w.f_count f + files.count (some f) := by
  induction files generalizing w with
  | nil => simp [Kern.frefs]
  | cons x files ih =>
    cases x with
    | none => exact (ih w).trans (by simp)
    | some g =>
      refine (ih { w with f_count := update w.f_count g (w.f_count g + 1) }).trans ?_
      rw [count_cons]
      by_cases hg : g = f
      · subst hg
        simp
        omega
      · simp [update_of_ne (Ne.symm hg), hg]

theorem iref_count (w : Kern) (x : Option ℕ) (ip : ℕ) :
    (w.iref x).i_count ip = w.i_count ip + if x = some ip then 1 else 0 := by
  cases x with
  | none => simp [Kern.iref]
  | some y =>
    by_cases hy : y = ip
    · subst hy
      simp [Kern.iref]
    · simp [Kern.iref, update_of_ne (Ne.symm hy), hy]

theorem iput_count (w : Kern) (x : Option ℕ) (ip : ℕ) :
    (w.iput x).i_count ip = w.i_count ip - if x = some ip then 1 else 0 := by
  cases x with
  | none => simp [Kern.iput]
  | some y =>
    by_cases hy : y = ip
    · subst hy
      simp [Kern.iput]
    · simp [Kern.iput, update_of_ne (Ne.symm hy), hy]

theorem rref_count (w : Kern) (x : ℕ) (d : ℤ) (r : ℕ) :
    (w.rref x d).r_refcnt r = w.r_refcnt r + if x = r then d else 0 := by
  by_cases hx : x = r
  · subst hx
    simp [Kern.rref]
  · simp [Kern.rref, update_of_ne (Ne.symm hx), hx]

/-- The fields that a change of `i_count` or `r_refcnt` leaves. -/
structure SameRest (w w' : Kern) : Prop where
  f_count : w'.f_count = w.f_count
  sem : w'.sem = w.sem
  p_child : w'.p_child = w.p_child

theorem sameRest_iref (w : Kern) (x : Option ℕ) : SameRest w (w.iref x) := by
  cases x <;> exact ⟨rfl, rfl, rfl⟩

theorem sameRest_iput (w : Kern) (x : Option ℕ) : SameRest w (w.iput x) := by
  cases x <;> exact ⟨rfl, rfl, rfl⟩

theorem SameRest.trans {w w' w'' : Kern} (h : SameRest w w') (h' : SameRest w' w'') :
    SameRest w w'' :=
  ⟨h'.f_count.trans h.f_count, h'.sem.trans h.sem, h'.p_child.trans h.p_child⟩

theorem iref_refcnt (w : Kern) (x : Option ℕ) : (w.iref x).r_refcnt = w.r_refcnt := by
  cases x <;> rfl

theorem iput_refcnt (w : Kern) (x : Option ℕ) : (w.iput x).r_refcnt = w.r_refcnt := by
  cases x <;> rfl

section

variable (hs : Inv cfg P s t)

include hs

/-- A step of the call that changes `i_count` and `r_refcnt` as its place says. -/
theorem Inv.counts {cur : Kern} {pc : Pc} (hsame : SameRest t.cur cur)
    (hi : ∀ ip, cur.i_count ip - t.cur.i_count ip = iextra P pc ip - iextra P t.pc ip)
    (hr : ∀ r, cur.r_refcnt r - t.cur.r_refcnt r = rextra P pc r - rextra P t.pc r)
    (hold : t.pc ∉ [.start, .refused, .failed]) (hnew : pc ∉ [.start, .refused, .failed])
    (hdrop : ∀ f, (P.u_ofile.drop (closedTo P pc)).count (some f) =
      (P.u_ofile.drop (closedTo P t.pc)).count (some f))
    (htake : ∀ f, some f ∈ P.u_ofile.take (closedTo P pc) ↔
      some f ∈ P.u_ofile.take (closedTo P t.pc)) :
    Inv cfg P s { t with cur := cur, pc := pc } := by
  obtain ⟨hs1, hr1, hf1⟩ : t.pc ≠ .start ∧ t.pc ≠ .refused ∧ t.pc ≠ .failed := by
    simpa using hold
  obtain ⟨hs2, hr2, hf2⟩ : pc ≠ .start ∧ pc ≠ .refused ∧ pc ≠ .failed := by simpa using hnew
  have hsame' : ∀ ip, Closed P pc ip ↔ Closed P t.pc ip := fun ip =>
    exists_congr fun f => and_congr_left' (htake f)
  refine ⟨fun f => ?_, hs.files, fun ip => ?_, fun r => ?_, fun ip => ?_, fun ip => ?_,
    fun ip => ?_, ?_, ?_⟩
  · show cur.f_count f = t.base.f_count f + fextra P pc f
    have hextra : fextra P pc f = fextra P t.pc f := by
      rw [fextra, fextra, if_neg (by simp [hs2, hr2]), if_neg (by simp [hs1, hr1]), hdrop f]
    rw [hsame.f_count, hs.f_count f, hextra]
  · have h1 := hs.i_count ip
    have h2 := hi ip
    show cur.i_count ip = t.base.i_count ip + iextra P pc ip
    omega
  · have h1 := hs.r_refcnt r
    have h2 := hr r
    show cur.r_refcnt r = t.base.r_refcnt r + rextra P pc r
    omega
  · exact (hs.locks ip).congr (hsame' ip)
  · exact (hs.siglist ip).congr (and_congr_left' (hsame' ip))
  · exact (hs.pollist ip).congr (and_congr_left' (hsame' ip))
  · have h := hs.sem
    rw [if_neg hf1] at h
    show cur.sem = if pc = .failed then _ else _
    rw [if_neg hf2, hsame.sem, h]
  · have h := hs.p_child
    rw [Chain, if_neg (by simp [hs1, hr1]), if_neg hf1] at h
    show Chain P s.base.p_child cur.p_child t.base.p_child pc
    rw [Chain, if_neg (by simp [hs2, hr2]), if_neg hf2, hsame.p_child]
    exact h

/-! ## The steps of the call -/

theorem Inv.started (hpc : t.pc = .start) :
    Inv cfg P s
      { t with
        cur := ({ t.cur with p_child := P.cp :: t.cur.p_child } : Kern).frefs P.u_ofile
        pc := .cdir } := by
  obtain ⟨hi, hr, hsem, hchild⟩ :=
    frefs_other P.u_ofile { t.cur with p_child := P.cp :: t.cur.p_child }
  have hclosed : ∀ ip, Closed P .cdir ip ↔ Closed P t.pc ip := fun ip => by
    rw [hpc]
    exact Iff.rfl
  refine ⟨fun f => ?_, hs.files, fun ip => ?_, fun r => ?_, fun ip => ?_, fun ip => ?_,
    fun ip => ?_, ?_, ?_⟩
  · have h := hs.f_count f
    rw [hpc, fextra, if_pos (by decide)] at h
    refine (frefs_count P.u_ofile _ f).trans ?_
    show t.cur.f_count f + _ = t.base.f_count f + fextra P .cdir f
    rw [h, fextra, if_neg (by decide)]
    simp [closedTo]
  · have h := hs.i_count ip
    rw [hpc] at h
    refine (congrFun hi ip).trans (h.trans ?_)
    simp [iextra, cdHeld, rdHeld, dupTo]
  · have h := hs.r_refcnt r
    rw [hpc] at h
    exact (congrFun hr r).trans h
  · exact (hs.locks ip).congr (hclosed ip)
  · exact (hs.siglist ip).congr (and_congr_left' (hclosed ip))
  · exact (hs.pollist ip).congr (and_congr_left' (hclosed ip))
  · have h := hs.sem
    rw [hpc, if_neg (by decide)] at h
    show _ = if Pc.cdir = Pc.failed then _ else t.base.sem
    rw [if_neg (by decide)]
    exact hsem.trans h
  · have h := hs.p_child
    rw [Chain, hpc, if_pos (by decide)] at h
    show Chain P s.base.p_child _ t.base.p_child .cdir
    rw [Chain, if_neg (by decide), if_neg (by decide)]
    refine ⟨[], hchild.trans ?_, h.2, not_mem_nil⟩
    show P.cp :: t.cur.p_child = _
    rw [h.1, h.2, nil_append]

theorem Inv.refused (hpc : t.pc = .start) :
    Inv cfg P s { t with pc := .refused } := by
  obtain ⟨h1, h2, h3, h4, h5, h6, h7, h8, h9⟩ := hs
  rw [hpc] at h1 h3 h4 h5 h6 h7 h8 h9
  exact ⟨h1, h2, h3, h4, h5, h6, h7, h8, h9⟩

omit hs in
/-- A region is duplicated, or a duplicate is detached. -/
theorem take_count (q : PregInfo → Prop) [DecidablePred q] {y : PregInfo}
    (hy : P.pregs[k]? = some y) :
    (P.pregs.take (k + 1)).countP q = (P.pregs.take k).countP q + if q y then 1 else 0 := by
  rw [take_add_one, hy, countP_append]
  simp [countP_cons]

theorem Inv.dupreg {y : PregInfo} (hpc : t.pc = .dup k)
    (hy : P.pregs[k]? = some y) :
    Inv cfg P s { t with cur := t.cur.dupreg y, pc := .dup (k + 1) } := by
  refine hs.counts ?_ (fun ip => ?_) (fun r => ?_) (by simp [hpc]) (by simp)
    (fun f => by rw [hpc]; rfl) (fun f => by rw [hpc]; exact Iff.rfl)
  · rw [Kern.dupreg]
    split_ifs
    · exact sameRest_iref _ _
    · exact ⟨rfl, rfl, rfl⟩
  · have htake := take_count (fun x => x.dups ∧ x.r_iptr = some ip) hy
    simp only [hpc, iextra, cdHeld, rdHeld, dupTo, htake]
    rw [Kern.dupreg]
    by_cases hd : y.dups
    · rw [if_pos hd, iref_count]
      simp [hd]
    · simp [hd, Kern.rref]
  · have htake := take_count (fun x => ¬ x.dups ∧ x.reg = r) hy
    simp only [hpc, rextra, dupTo, htake]
    rw [Kern.dupreg]
    by_cases hd : y.dups
    · simp [hd, iref_refcnt]
    · rw [if_neg hd, rref_count]
      simp [hd]

theorem Inv.detachreg {y : PregInfo} (hpc : t.pc = .detach (k + 1))
    (hy : P.pregs[k]? = some y) :
    Inv cfg P s { t with cur := t.cur.detachreg y, pc := .detach k } := by
  refine hs.counts ?_ (fun ip => ?_) (fun r => ?_) (by simp [hpc]) (by simp)
    (fun f => by rw [hpc]; rfl) (fun f => by rw [hpc]; exact Iff.rfl)
  · rw [Kern.detachreg]
    split_ifs
    · exact sameRest_iput _ _
    · exact ⟨rfl, rfl, rfl⟩
  · have htake := take_count (fun x => x.dups ∧ x.r_iptr = some ip) hy
    simp only [hpc, iextra, cdHeld, rdHeld, dupTo, htake]
    rw [Kern.detachreg]
    by_cases hd : y.dups
    · rw [if_pos hd, iput_count]
      simp [hd]
    · simp [hd, Kern.rref]
  · have htake := take_count (fun x => ¬ x.dups ∧ x.reg = r) hy
    simp only [hpc, rextra, dupTo, htake]
    rw [Kern.detachreg]
    by_cases hd : y.dups
    · simp [hd, iput_refcnt]
    · rw [if_neg hd, rref_count]
      simp [hd]
      split_ifs <;> simp

omit hs in
/-- What a failing `dupreg` or `attachreg` takes it gives back. -/
theorem dupfail_spec (w : Kern) (y : PregInfo) (how : Fail) :
    SameRest w (w.dupfail y how) ∧ (w.dupfail y how).i_count = w.i_count ∧
      (w.dupfail y how).r_refcnt = w.r_refcnt := by
  have hback : SameRest w ((w.iref y.r_iptr).iput y.r_iptr) ∧
      ((w.iref y.r_iptr).iput y.r_iptr).i_count = w.i_count ∧
      ((w.iref y.r_iptr).iput y.r_iptr).r_refcnt = w.r_refcnt := by
    refine ⟨(sameRest_iref _ _).trans (sameRest_iput _ _), ?_, ?_⟩
    · funext ip
      rw [iput_count, iref_count, add_sub_cancel_right]
    · rw [iput_refcnt, iref_refcnt]
  have hsame : SameRest w w ∧ w.i_count = w.i_count ∧ w.r_refcnt = w.r_refcnt :=
    ⟨⟨rfl, rfl, rfl⟩, rfl, rfl⟩
  cases how
  case nomem => exact hsame
  case noregion => exact hsame
  all_goals
    show SameRest w (if y.dups then _ else w) ∧ (if y.dups then _ else w : Kern).i_count = _ ∧
      (if y.dups then _ else w : Kern).r_refcnt = _
    split_ifs
    · exact hback
    · exact hsame

omit hs in
theorem own_cleanlocks (P : Forker) (l : List Filock) : own P (cleanlocks P.owner false l) = [] := by
  simp [own, cleanlocks, List.filter_filter]

omit hs in
theorem mine_strclean (P : Forker) (l : List (ℕ × ℤ)) : mine P (strclean P.pp l) = [] := by
  simp [mine, strclean, List.filter_filter]

omit hs in
/-- A close that is not the last. -/
theorem closef_spec (hf : 1 < s.cur.f_count f) :
    (closef P s f).cur = { s.cur with
      f_count := update s.cur.f_count f (s.cur.f_count f - 1) } ∧
    (closef P s f).base = s.base ∧
    (∀ ip, own P ((closef P s f).i_filocks ip) =
      if P.f_inode f = ip ∧ P.sock ip = false then [] else own P (s.i_filocks ip)) ∧
    (∀ ip, mine P ((closef P s f).sd_siglist ip) =
      if (P.f_inode f = ip ∧ P.sock ip = false) ∧ P.stream ip = true then []
      else mine P (s.sd_siglist ip)) ∧
    ∀ ip, mine P ((closef P s f).sd_pollist ip) =
      if (P.f_inode f = ip ∧ P.sock ip = false) ∧ P.stream ip = true then []
      else mine P (s.sd_pollist ip) := by
  have hupd : ∀ {α β : Type} (g : ℕ → α) (v : α) (m : α → List β) (q : ℕ → Prop)
      [DecidablePred q], (q (P.f_inode f) → m v = []) → q (P.f_inode f) → ∀ ip,
      m (update g (P.f_inode f) v ip) =
        if P.f_inode f = ip ∧ q ip then [] else m (g ip) := by
    intro α β g v m q _ hv hq ip
    by_cases hip : P.f_inode f = ip
    · subst hip
      rw [update_self, if_pos ⟨rfl, hq⟩, hv hq]
    · rw [update_of_ne (Ne.symm hip), if_neg fun h => hip h.1]
  have hcur : (closei P s (P.f_inode f)).cur = s.cur := by
    rw [closei]
    split_ifs <;> rfl
  have hbase : (closei P s (P.f_inode f)).base = s.base := by
    rw [closei]
    split_ifs <;> rfl
  have hclose : closef P s f = { closei P s (P.f_inode f) with cur := { s.cur with
      f_count := update s.cur.f_count f (s.cur.f_count f - 1) } } := by
    rw [closef, if_neg (by omega)]
    dsimp only
    rw [hcur, if_pos hf]
  rw [hclose]
  refine ⟨rfl, hbase, fun ip => ?_, fun ip => ?_, fun ip => ?_⟩
  all_goals
    dsimp only
    rw [closei]
    by_cases hsock : P.sock (P.f_inode f)
    · rw [if_pos hsock, if_neg]
      grind
    rw [if_neg hsock]
    by_cases hst : P.stream (P.f_inode f)
  · rw [if_pos hst]
    exact hupd s.i_filocks _ (own P) (fun ip => P.sock ip = false)
      (fun _ => own_cleanlocks P _) (by simpa using hsock) ip
  · rw [if_neg hst]
    exact hupd s.i_filocks _ (own P) (fun ip => P.sock ip = false)
      (fun _ => own_cleanlocks P _) (by simpa using hsock) ip
  · rw [if_pos hst]
    simp only [and_assoc]
    exact hupd s.sd_siglist _ (mine P) (fun ip => P.sock ip = false ∧ P.stream ip = true)
      (fun _ => mine_strclean P _) ⟨by simpa using hsock, hst⟩ ip
  · rw [if_neg hst, if_neg]
    grind
  · rw [if_pos hst]
    simp only [and_assoc]
    exact hupd s.sd_pollist _ (mine P) (fun ip => P.sock ip = false ∧ P.stream ip = true)
      (fun _ => mine_strclean P _) ⟨by simpa using hsock, hst⟩ ip
  · rw [if_neg hst, if_neg]
    grind

theorem Inv.closef (hpc : t.pc = .close n)
    (hn : P.u_ofile[n]? = some (some f)) :
    Inv cfg P s { closef P t f with pc := .close (n + 1) } := by
  obtain ⟨hlt, hget⟩ := List.getElem?_eq_some_iff.mp hn
  have hdrop : ∀ g, (P.u_ofile.drop n).count (some g) =
      (P.u_ofile.drop (n + 1)).count (some g) + if f = g then 1 else 0 := fun g => by
    rw [drop_eq_getElem_cons hlt, hget, count_cons]
    simp
  have hcount : t.cur.f_count f =
      t.base.f_count f + ((P.u_ofile.drop (n + 1)).count (some f) + 1 : ℕ) := by
    rw [hs.f_count f, hpc, fextra, if_neg (by simp)]
    simp [closedTo, hdrop f]
  have hrefs : 0 < refs P f := count_pos_iff.mpr (mem_of_getElem? hn)
  have hfiles := hs.files f
  obtain ⟨hcur, hbase, hlocks, hsig, hpoll⟩ := closef_spec (P := P) (s := t) (f := f) (by omega)
  have hclosed : ∀ ip, Closed P (.close (n + 1)) ip ↔
      Closed P t.pc ip ∨ (P.f_inode f = ip ∧ P.sock ip = false) := fun ip => by
    rw [hpc]
    simp only [Closed, closedTo, take_add_one, hn, mem_append, toList_some,
      mem_singleton, Option.some.injEq, or_and_right, exists_or]
    simp
  refine ⟨fun g => ?_, fun g => ?_, fun ip => ?_, fun r => ?_, fun ip => ?_, fun ip => ?_,
    fun ip => ?_, ?_, ?_⟩
  · have hg := hs.f_count g
    rw [hpc, fextra, if_neg (by simp)] at hg
    simp only [closedTo, hdrop g] at hg
    dsimp only
    rw [hcur, hbase, fextra, if_neg (by simp)]
    simp only [closedTo]
    by_cases hfg : f = g
    · subst hfg
      rw [update_self]
      simp at hg
      omega
    · rw [update_of_ne (Ne.symm hfg), hg, if_neg hfg, Nat.add_zero]
  · dsimp only
    rw [hbase]
    exact hs.files g
  · have h := hs.i_count ip
    rw [hpc] at h
    dsimp only
    rw [hcur, hbase]
    exact h
  · have h := hs.r_refcnt r
    rw [hpc] at h
    dsimp only
    rw [hcur, hbase]
    exact h
  · refine (hs.locks ip).step (hclosed ip) (fun h => ?_) fun h => ?_
    · exact (hlocks ip).trans (if_pos h)
    · exact (hlocks ip).trans (if_neg h)
  · refine (hs.siglist ip).step ((and_congr_left' (hclosed ip)).trans or_and_right)
      (fun h => ?_) fun h => ?_
    · exact (hsig ip).trans (if_pos h)
    · exact (hsig ip).trans (if_neg h)
  · refine (hs.pollist ip).step ((and_congr_left' (hclosed ip)).trans or_and_right)
      (fun h => ?_) fun h => ?_
    · exact (hpoll ip).trans (if_pos h)
    · exact (hpoll ip).trans (if_neg h)
  · have h := hs.sem
    rw [hpc, if_neg (by simp)] at h
    dsimp only
    rw [hcur, hbase, if_neg (by simp)]
    exact h
  · have h := hs.p_child
    rw [hpc, Chain, if_neg (by simp), if_neg (by simp)] at h
    dsimp only
    rw [hcur, hbase, Chain, if_neg (by simp), if_neg (by simp)]
    exact h

theorem Inv.unlink {cur : Kern} (hpc : t.pc = .putCdir ∨ t.pc = .putRdir)
    (hsame : SameRest t.cur cur) (hr : cur.r_refcnt = t.cur.r_refcnt)
    (hi : ∀ ip, cur.i_count ip = t.base.i_count ip) :
    Inv cfg P s (unlink cfg P { t with cur := cur }) := by
  have hto : closedTo P t.pc = P.u_ofile.length ∧ dupTo P t.pc = 0 ∧
      t.pc ∉ [.start, .refused] ∧ t.pc ≠ .failed := by
    rcases hpc with h | h <;> rw [h] <;> exact ⟨rfl, rfl, by simp, by simp⟩
  obtain ⟨hclose, hdup, hpc1, hpc2⟩ := hto
  have hclosed : ∀ ip, Closed P .failed ip ↔ Closed P t.pc ip := fun ip => by
    rw [Closed, Closed, hclose]
    exact Iff.rfl
  refine ⟨fun g => ?_, hs.files, fun ip => ?_, fun r => ?_, fun ip => ?_, fun ip => ?_,
    fun ip => ?_, ?_, ?_⟩
  · have h := hs.f_count g
    rw [fextra, if_neg hpc1, hclose, drop_length] at h
    show cur.f_count g = t.base.f_count g + fextra P .failed g
    rw [hsame.f_count, h, fextra, if_neg (by simp), closedTo, drop_length]
  · show cur.i_count ip = t.base.i_count ip + iextra P .failed ip
    rw [hi ip]
    simp [iextra, cdHeld, rdHeld, dupTo]
  · have h := hs.r_refcnt r
    rw [rextra, hdup] at h
    show cur.r_refcnt r = t.base.r_refcnt r + rextra P .failed r
    rw [hr, h]
    rfl
  · exact (hs.locks ip).congr (hclosed ip)
  · exact (hs.siglist ip).congr (and_congr_left' (hclosed ip))
  · exact (hs.pollist ip).congr (and_congr_left' (hclosed ip))
  · have h := hs.sem
    rw [if_neg hpc2] at h
    show semexit cfg P.pp cur.sem = if Pc.failed = Pc.failed then _ else _
    rw [if_pos rfl, hsame.sem, h]
    rfl
  · have h := hs.p_child
    rw [Chain, if_neg hpc1, if_neg hpc2] at h
    obtain ⟨qs, hcur, -, hqs⟩ := h
    show Chain P s.base.p_child (cur.p_child.dropWhile (· ≠ P.cp)).tail t.base.p_child .failed
    rw [Chain, if_neg (by simp), if_pos rfl, hsame.p_child, hcur]
    have hskip : ∀ q ∈ qs, decide (q ≠ P.cp) = true := fun q hq =>
      decide_eq_true fun h => hqs (h ▸ hq)
    rw [dropWhile_append_of_pos hskip]
    simp

/-- **The parent goes on.** -/
theorem Inv.turn {x : Choice} (h : turn cfg P t x = some u) :
    Inv cfg P s u := by
  have hid : ∀ pc, (∀ ip, iextra P pc ip = iextra P t.pc ip) →
      (∀ r, rextra P pc r = rextra P t.pc r) → t.pc ∉ [.start, .refused, .failed] →
      pc ∉ [.start, .refused, .failed] →
      (∀ f, (P.u_ofile.drop (closedTo P pc)).count (some f) =
        (P.u_ofile.drop (closedTo P t.pc)).count (some f)) →
      (∀ f, some f ∈ P.u_ofile.take (closedTo P pc) ↔
        some f ∈ P.u_ofile.take (closedTo P t.pc)) →
      Inv cfg P s { t with pc := pc } := fun pc hi hr hold hnew hdrop htake =>
    hs.counts ⟨rfl, rfl, rfl⟩ (fun ip => by rw [hi ip, sub_self, sub_self])
      (fun r => by rw [hr r, sub_self, sub_self]) hold hnew hdrop htake
  obtain ⟨pc, hpc⟩ : ∃ pc, pc = t.pc := ⟨_, rfl⟩
  rw [Os.ForkFail.turn, ← hpc] at h
  cases pc with
  | start =>
    dsimp only at h
    split_ifs at h
    · cases h
      exact hs.started hpc.symm
    · cases h
      exact hs.refused hpc.symm
  | cdir =>
    dsimp only at h
    cases h
    refine hs.counts (sameRest_iref _ _) (fun ip => ?_) (fun r => ?_) (by simp [← hpc])
      (by split_ifs <;> simp) (fun f => ?_) fun f => ?_
    · rw [iref_count, add_sub_cancel_left, ← hpc]
      rcases hrd : P.u_rdir with _ | rd <;> simp [iextra, cdHeld, rdHeld, dupTo, hrd]
    · rw [iref_refcnt, sub_self, ← hpc]
      split_ifs <;> simp [rextra, dupTo]
    · rw [← hpc]
      split_ifs <;> rfl
    · rw [← hpc]
      split_ifs <;> exact Iff.rfl
  | rdir =>
    cases h
    refine hs.counts (sameRest_iref _ _) (fun ip => ?_) (fun r => ?_) (by simp [← hpc])
      (by simp) (fun f => by rw [← hpc]; rfl) fun f => by rw [← hpc]; exact Iff.rfl
    · rw [iref_count, add_sub_cancel_left, ← hpc]
      simp [iextra, cdHeld, rdHeld, dupTo]
    · rw [iref_refcnt, sub_self, ← hpc]
      simp [rextra, dupTo]
  | setuctxt =>
    dsimp only at h
    cases h
    refine hid _ (fun ip => ?_) (fun r => ?_) (by simp [← hpc]) (by split_ifs <;> simp)
      (fun f => ?_) fun f => ?_
    all_goals
      rw [← hpc]
      split_ifs <;> rfl
  | dup k =>
    dsimp only at h
    rcases hy : P.pregs[k]? with _ | y <;> rw [hy] at h
    · cases h
      have hall : P.pregs.take k = P.pregs.take P.pregs.length := by
        rw [take_length, take_of_length_le (List.getElem?_eq_none_iff.mp hy)]
      refine hid _ (fun ip => ?_) (fun r => ?_) (by simp [← hpc]) (by simp)
        (fun f => by rw [← hpc]; rfl) fun f => by rw [← hpc]; exact Iff.rfl
      · simp only [← hpc, iextra, cdHeld, rdHeld, dupTo, hall]
      · simp only [← hpc, rextra, dupTo, hall]
    · cases x with
      | ok =>
        cases h
        exact hs.dupreg hpc.symm hy
      | fail how =>
        cases h
        obtain ⟨hsame, hi, hr⟩ := dupfail_spec t.cur y how
        refine hs.counts hsame (fun ip => ?_) (fun r => ?_) (by simp [← hpc]) (by simp)
          (fun f => by rw [← hpc]; rfl) fun f => by rw [← hpc]; exact Iff.rfl
        · rw [hi, sub_self, ← hpc]
          simp [iextra, cdHeld, rdHeld, dupTo]
        · rw [hr, sub_self, ← hpc]
          simp [rextra, dupTo]
  | detach k =>
    cases k with
    | zero =>
      cases h
      refine hid _ (fun ip => ?_) (fun r => ?_) (by simp [← hpc]) (by simp)
        (fun f => by rw [← hpc]; rfl) fun f => by rw [← hpc]; exact Iff.rfl
      · rw [← hpc]
        rfl
      · rw [← hpc]
        rfl
    | succ k =>
      dsimp only at h
      rcases hy : P.pregs[k]? with _ | y <;> rw [hy] at h
      · exact nomatch h
      · cases h
        exact hs.detachreg hpc.symm hy
  | close n =>
    dsimp only at h
    rcases hn : P.u_ofile[n]? with _ | _ | f <;> rw [hn] at h
    · cases h
      have hle := List.getElem?_eq_none_iff.mp hn
      refine hid _ (fun ip => by rw [← hpc]; rfl) (fun r => by rw [← hpc]; rfl) (by simp [← hpc])
        (by simp) (fun f => ?_) fun f => ?_
      · simp only [← hpc, closedTo, drop_of_length_le hle, drop_length]
      · simp only [← hpc, closedTo, take_of_length_le hle, take_length]
    · cases h
      obtain ⟨hlt, hget⟩ := List.getElem?_eq_some_iff.mp hn
      refine hid _ (fun ip => by rw [← hpc]; rfl) (fun r => by rw [← hpc]; rfl) (by simp [← hpc])
        (by simp) (fun f => ?_) fun f => ?_
      · simp only [← hpc, closedTo, drop_eq_getElem_cons hlt, hget, count_cons]
        simp
      · simp [← hpc, closedTo, take_add_one, hn]
    · cases h
      exact hs.closef hpc.symm hn
  | putCdir =>
    dsimp only at h
    rcases hrd : P.u_rdir with _ | rd <;> rw [hrd] at h
    · rw [if_neg (by simp)] at h
      cases h
      refine hs.unlink (Or.inl hpc.symm) (sameRest_iput _ _) (iput_refcnt _ _) fun ip => ?_
      rw [iput_count, hs.i_count ip, ← hpc]
      simp [iextra, cdHeld, rdHeld, dupTo, hrd]
    · rw [if_pos (by simp)] at h
      cases h
      refine hs.counts (sameRest_iput _ _) (fun ip => ?_) (fun r => ?_) (by simp [← hpc])
        (by simp) (fun f => by rw [← hpc]; rfl) fun f => by rw [← hpc]; exact Iff.rfl
      · rw [iput_count, ← hpc]
        simp [iextra, cdHeld, rdHeld, dupTo]
      · rw [iput_refcnt, sub_self, ← hpc]
        simp [rextra, dupTo]
  | putRdir =>
    dsimp only at h
    cases h
    refine hs.unlink (Or.inr hpc.symm) (sameRest_iput _ _) (iput_refcnt _ _) fun ip => ?_
    rw [iput_count, hs.i_count ip, ← hpc]
    simp [iextra, cdHeld, rdHeld, dupTo]
  | made => exact nomatch h
  | refused => exact nomatch h
  | failed => exact nomatch h

end

/-! ## The steps of the others -/

/-- The lists that another process sets are the same for the parent. -/
theorem lists_spec {o : Other} (ha : allowed P t o = true) :
    (∀ ip, own P ((lists t o).i_filocks ip) = own P (t.i_filocks ip)) ∧
      (∀ ip, mine P ((lists t o).sd_siglist ip) = mine P (t.sd_siglist ip)) ∧
      (∀ ip, mine P ((lists t o).sd_pollist ip) = mine P (t.sd_pollist ip)) ∧
      (lists t o).pc = t.pc := by
  have hupd : ∀ {α β : Type} (g : ℕ → α) (v : α) (m : α → β) (x : ℕ), m v = m (g x) →
      ∀ y, m (update g x v y) = m (g y) := by
    intro α β g v m x hv y
    rw [update_apply]
    split_ifs with hy
    · rw [hy, hv]
    · rfl
  cases o with
  | flock x l =>
    exact ⟨hupd t.i_filocks l (own P) x (of_decide_eq_true ha), fun _ => rfl, fun _ => rfl, rfl⟩
  | siglist x l =>
    exact ⟨fun _ => rfl, hupd t.sd_siglist l (mine P) x (of_decide_eq_true ha), fun _ => rfl, rfl⟩
  | pollist x l =>
    exact ⟨fun _ => rfl, fun _ => rfl, hupd t.sd_pollist l (mine P) x (of_decide_eq_true ha), rfl⟩
  | fref f up => exact ⟨fun _ => rfl, fun _ => rfl, fun _ => rfl, rfl⟩
  | iref ip up => exact ⟨fun _ => rfl, fun _ => rfl, fun _ => rfl, rfl⟩
  | rref r up => exact ⟨fun _ => rfl, fun _ => rfl, fun _ => rfl, rfl⟩
  | sem e => exact ⟨fun _ => rfl, fun _ => rfl, fun _ => rfl, rfl⟩
  | adopt children => exact ⟨fun _ => rfl, fun _ => rfl, fun _ => rfl, rfl⟩

/-- The others change the counts with the call and without it alike. -/
theorem other_counts {o : Other} {v w' v' : Kern} (hw : w.other cfg o = some w')
    (hv : v.other cfg o = some v') (hsem : w.sem = v.sem) :
    (∀ f, w'.f_count f - w.f_count f = v'.f_count f - v.f_count f) ∧
      (∀ ip, w'.i_count ip - w.i_count ip = v'.i_count ip - v.i_count ip) ∧
      (∀ r, w'.r_refcnt r - w.r_refcnt r = v'.r_refcnt r - v.r_refcnt r) ∧ w'.sem = v'.sem := by
  have hupd : ∀ (g g' : ℕ → ℤ) (x : ℕ) (d : ℤ) (y : ℕ),
      update g x (g x + d) y - g y = update g' x (g' x + d) y - g' y := by
    intro g g' x d y
    by_cases hy : y = x
    · rw [hy, update_self, update_self]
      omega
    · rw [update_of_ne hy, update_of_ne hy, sub_self, sub_self]
  have hself : ∀ g g' : ℕ → ℤ, ∀ y, g y - g y = g' y - g' y := fun g g' y => by
    rw [sub_self, sub_self]
  cases o with
  | fref f up =>
    cases hw
    cases hv
    exact ⟨hupd w.f_count v.f_count f (unit up), hself _ _, hself _ _, hsem⟩
  | iref ip up =>
    cases hw
    cases hv
    exact ⟨hself _ _, hupd w.i_count v.i_count ip (unit up), hself _ _, hsem⟩
  | rref r up =>
    cases hw
    cases hv
    exact ⟨hself _ _, hself _ _, hupd w.r_refcnt v.r_refcnt r (unit up), hsem⟩
  | sem e =>
    rw [Kern.other, map_eq_some_iff] at hw hv
    obtain ⟨x, hx, rfl⟩ := hw
    obtain ⟨y, hy, rfl⟩ := hv
    rw [hsem, hy] at hx
    exact ⟨hself _ _, hself _ _, hself _ _, (Option.some.inj hx).symm⟩
  | flock ip l =>
    cases hw
    cases hv
    exact ⟨hself _ _, hself _ _, hself _ _, hsem⟩
  | siglist ip l =>
    cases hw
    cases hv
    exact ⟨hself _ _, hself _ _, hself _ _, hsem⟩
  | pollist ip l =>
    cases hw
    cases hv
    exact ⟨hself _ _, hself _ _, hself _ _, hsem⟩
  | adopt children =>
    cases hw
    cases hv
    exact ⟨hself _ _, hself _ _, hself _ _, hsem⟩

/-- The others give back no reference of the parent. -/
theorem other_files {o : Other} {v v' : Kern} (ha : allowed P t o = true) (hv : t.base = v)
    (ho : v.other cfg o = some v') (hf : ∀ f, (refs P f : ℤ) ≤ v.f_count f) :
    ∀ f, (refs P f : ℤ) ≤ v'.f_count f := by
  cases o with
  | fref f up =>
    cases ho
    intro g
    have hg := hf g
    show (refs P g : ℤ) ≤ update v.f_count f (v.f_count f + unit up) g
    rw [update_apply]
    split_ifs with hgf
    · subst hgf
      cases up with
      | false =>
        rw [allowed, Bool.false_or, decide_eq_true_eq, hv] at ha
        show (refs P g : ℤ) ≤ v.f_count g + -1
        omega
      | true =>
        show (refs P g : ℤ) ≤ v.f_count g + 1
        omega
    · exact hg
  | sem e =>
    rw [Kern.other, map_eq_some_iff] at ho
    obtain ⟨x, -, rfl⟩ := ho
    exact hf
  | iref ip up => cases ho; exact hf
  | rref r up => cases ho; exact hf
  | flock ip l => cases ho; exact hf
  | siglist ip l => cases ho; exact hf
  | pollist ip l => cases ho; exact hf
  | adopt children => cases ho; exact hf

/-- The children that are adopted come in front. -/
theorem other_child {o : Other} {w' : Kern} (ho : w.other cfg o = some w') :
    w'.p_child = o.adopted ++ w.p_child := by
  cases o with
  | sem e =>
    rw [Kern.other, map_eq_some_iff] at ho
    obtain ⟨x, -, rfl⟩ := ho
    rfl
  | fref f up => cases ho; rfl
  | iref ip up => cases ho; rfl
  | rref r up => cases ho; rfl
  | flock ip l => cases ho; rfl
  | siglist ip l => cases ho; rfl
  | pollist ip l => cases ho; rfl
  | adopt children => cases ho; rfl

/-- **Another process does something.** -/
theorem Inv.other {o : Other} {cur base : Kern} (hs : Inv cfg P s t) (ha : allowed P t o = true)
    (hpc : t.pc ∉ [.start, .refused, .failed]) (hc : t.cur.other cfg o = some cur)
    (hb : t.base.other cfg o = some base) :
    Inv cfg P s { lists t o with cur := cur, base := base } := by
  obtain ⟨h1, h2, h3⟩ : t.pc ≠ .start ∧ t.pc ≠ .refused ∧ t.pc ≠ .failed := by simpa using hpc
  have hsem := hs.sem
  rw [if_neg h3] at hsem
  obtain ⟨hf, hi, hr, hsem'⟩ := other_counts hc hb hsem
  obtain ⟨hlocks, hsig, hpoll, hsame⟩ := lists_spec ha
  refine ⟨fun f => ?_, other_files ha rfl hb hs.files, fun ip => ?_, fun r => ?_, fun ip => ?_,
    fun ip => ?_, fun ip => ?_, ?_, ?_⟩
  · dsimp only
    rw [hsame]
    have hold := hs.f_count f
    have hnew := hf f
    omega
  · dsimp only
    rw [hsame]
    have hold := hs.i_count ip
    have hnew := hi ip
    omega
  · dsimp only
    rw [hsame]
    have hold := hs.r_refcnt r
    have hnew := hr r
    omega
  · dsimp only
    rw [hsame, hlocks]
    exact hs.locks ip
  · dsimp only
    rw [hsame, hsig]
    exact hs.siglist ip
  · dsimp only
    rw [hsame, hpoll]
    exact hs.pollist ip
  · dsimp only
    rw [hsame, if_neg h3, hsem']
  · have h := hs.p_child
    rw [Chain, if_neg (by simp [h1, h2]), if_neg h3] at h
    obtain ⟨qs, hcur, hbase, hqs⟩ := h
    dsimp only
    rw [hsame, Chain, if_neg (by simp [h1, h2]), if_neg h3, other_child hc, other_child hb, hcur,
      hbase, ← append_assoc, ← append_assoc]
    refine ⟨_, rfl, rfl, fun hmem => ?_⟩
    rcases mem_append.mp hmem with hnew | hold
    · cases o with
      | adopt children => exact (of_decide_eq_true ha).2 hnew
      | _ => exact not_mem_nil hnew
    · exact hqs hold

/-- The call is refused only when there is no slot. -/
def Room (P : Forker) (t : ForkState) : Prop :=
  (t.pc = .refused → P.room = false) ∧ (t.pc ∉ [.start, .refused] → P.room = true)

theorem Room.turn {x : Choice} (hr : Room P t) (h : turn cfg P t x = some u) : Room P u := by
  by_cases hstart : t.pc = .start
  · rw [Os.ForkFail.turn, hstart] at h
    dsimp only at h
    split_ifs at h with hroom
    · cases h
      exact ⟨fun h => (nomatch h), fun _ => hroom⟩
    · cases h
      exact ⟨fun _ => by simpa using hroom, fun h => absurd h (by simp)⟩
  · have hold : t.pc ≠ .refused := fun hpc => by
      rw [Os.ForkFail.turn, hpc] at h
      exact nomatch h
    have hnew : u.pc ≠ .refused := by
      rw [Os.ForkFail.turn] at h
      intro hpc
      split at h <;> grind [unlink]
    exact ⟨fun h => absurd h hnew, fun _ => hr.2 (by simp [hstart, hold])⟩

/-! ## Every failed call -/

/-- What one event keeps. -/
theorem Inv.step {e : ForkEvent} (hs : Inv cfg P s t) (hr : Room P t)
    (h : step cfg P t e = some u) : Inv cfg P s u ∧ Room P u := by
  cases e with
  | run x => exact ⟨hs.turn h, hr.turn h⟩
  | other o =>
    rw [Os.ForkFail.step] at h
    split_ifs at h with ha
    obtain ⟨cur, hcur, h⟩ := bind_eq_some_iff.mp h
    obtain ⟨base, hbase, rfl⟩ := map_eq_some_iff.mp h
    refine ⟨hs.other ha.1 ha.2 hcur hbase, ?_⟩
    have hsame := (lists_spec ha.1).2.2.2
    rw [Room] at hr ⊢
    rw [hsame]
    exact hr

theorem Start.run {evs : List ForkEvent} (hs : Start P s)
    (h : exec (step cfg P) s evs = some t) : Inv cfg P s t ∧ Room P t := by
  have hroom : Room P s := by
    rw [Room, hs.pc]
    exact ⟨fun h => (nomatch h), fun h => absurd h (by simp)⟩
  exact exec_invariant' (P := fun t => Inv cfg P s t ∧ Room P t)
    (fun _ _ _ hI he => hI.1.step hI.2 he) ⟨hs.inv, hroom⟩ h

/-- Without entries `semexit` changes no semaphore. -/
theorem semexit_idle {p : ℕ} {m : SemState} (h : m.entries p = []) :
    (semexit cfg p m).sem = m.sem := by
  rw [semexit]
  rcases hu : m.undo p with _ | ents
  · rfl
  · rw [entries_of_undo hu] at h
    rw [h]
    rfl

/-- A call that found no slot changed nothing. -/
theorem Inv.refused_same (hs : Inv cfg P s t) (hpc : t.pc = .refused) : LeftAlone P s t := by
  have hclosed : ∀ ip, ¬ Closed P t.pc ip := by
    rintro ip ⟨f, hf, -⟩
    rw [hpc] at hf
    exact absurd hf (by simp [closedTo])
  have hsem := hs.sem
  rw [hpc, if_neg (by decide)] at hsem
  have hchild := hs.p_child
  rw [hpc, Chain, if_pos (by decide)] at hchild
  refine ⟨fun ip => (hs.locks ip).2 (hclosed ip), fun ip => (hs.siglist ip).2 fun h => hclosed ip h.1,
    fun ip => (hs.pollist ip).2 fun h => hclosed ip h.1, funext fun f => ?_, funext fun ip => ?_,
    funext fun r => ?_, fun g => by rw [hsem], by rw [hsem], hchild.1⟩
  · rw [hs.f_count f, hpc, fextra, if_pos (by decide)]
    simp
  · rw [hs.i_count ip, hpc]
    simp [iextra, cdHeld, rdHeld, dupTo]
  · rw [hs.r_refcnt r, hpc]
    simp [rextra, dupTo]

/-- At the end every open file has been closed. -/
theorem closed_failed : Closed P .failed ip ↔ Open P ip := by
  rw [Closed, Open, closedTo, take_length]

/-- **A call that cannot duplicate the parent** changes what the parent has there. -/
theorem Inv.failed_iff (hs : Inv cfg P s t) (hpc : t.pc = .failed) :
    LeftAlone P s t ↔ Clean P s t := by
  have hsem := hs.sem
  rw [hpc, if_pos rfl] at hsem
  have hchild := hs.p_child
  rw [hpc, Chain, if_neg (by decide), if_pos rfl] at hchild
  have hentries : t.cur.sem.entries P.pp = [] := by
    rw [hsem, entries_semexit, if_pos rfl]
  have hlocks := hs.locks
  have hsig := hs.siglist
  have hpoll := hs.pollist
  simp only [hpc, closed_failed] at hlocks hsig hpoll
  refine ⟨fun h => ⟨fun ip ho => ?_, fun ip ho hst => ?_, fun ip ho hst => ?_, ?_, ?_⟩, fun h =>
    ⟨fun ip => ?_, fun ip => ?_, fun ip => ?_, funext fun f => ?_, funext fun ip => ?_,
      funext fun r => ?_, fun g => ?_, ?_, ?_⟩⟩
  · rw [← h.locks ip]
    exact (hlocks ip).1 ho
  · rw [← h.siglist ip]
    exact (hsig ip).1 ⟨ho, hst⟩
  · rw [← h.pollist ip]
    exact (hpoll ip).1 ⟨ho, hst⟩
  · rw [← h.entries, hentries]
  · rw [← h.p_child, hchild]
  · by_cases ho : Open P ip
    · rw [(hlocks ip).1 ho, h.locks ip ho]
    · exact (hlocks ip).2 ho
  · by_cases ho : Open P ip ∧ P.stream ip = true
    · rw [(hsig ip).1 ho, h.siglist ip ho.1 ho.2]
    · exact (hsig ip).2 ho
  · by_cases ho : Open P ip ∧ P.stream ip = true
    · rw [(hpoll ip).1 ho, h.pollist ip ho.1 ho.2]
    · exact (hpoll ip).2 ho
  · rw [hs.f_count f, hpc, fextra, if_neg (by simp), closedTo, drop_length]
    simp
  · rw [hs.i_count ip, hpc]
    simp [iextra, cdHeld, rdHeld, dupTo]
  · rw [hs.r_refcnt r, hpc]
    simp [rextra, dupTo]
  · rw [hsem, semexit_idle h.entries]
  · rw [hentries, h.entries]
  · rw [hchild, h.p_child]

/-- **A failed fork leaves the parent as it was** if and only if no slot was found, or the parent
had nothing that `closef` and `semexit` take from a process that goes away, and no children were
given to it while the call slept. -/
theorem fork_failed_iff (cfg : SemInfo) (P : Forker) (s t : ForkState) (evs : List ForkEvent)
    (hs : Start P s) (hrun : exec (step cfg P) s evs = some t)
    (hpc : t.pc = .refused ∨ t.pc = .failed) :
    LeftAlone P s t ↔ P.room = false ∨ Clean P s t := by
  obtain ⟨hinv, hroom⟩ := hs.run hrun
  rcases hpc with hpc | hpc
  · exact iff_of_true (hinv.refused_same hpc) (Or.inl (hroom.1 hpc))
  · have hyes : P.room = true := hroom.2 (by simp [hpc])
    rw [hinv.failed_iff hpc, hyes]
    simp

end inv

/-! ## Two runs -/

/-- Process 5 with one open file, of inode 3, and two regions. -/
def forker : Forker where
  pp := 5
  cp := 9
  owner := ⟨7, 0⟩
  u_ofile := [some 0, none]
  f_inode _ := 3
  sock _ := false
  stream _ := false
  u_cdir := 2
  u_rdir := none
  pregs := [⟨0, some 3, false⟩, ⟨1, some 3, true⟩]
  room := true

/-- The counts before the call; `undo` are the entries of process 5. -/
def kern (undo : Option (List Undo)) : Kern where
  f_count _ := 1
  i_count _ := 1
  r_refcnt _ := 1
  sem := { idle with undo := fun p => if p = 5 then undo else none }
  p_child := [8]

/-- The call begins; `locks` are the record locks of inode 3. -/
def before (undo : Option (List Undo)) (locks : List Filock) : ForkState where
  cur := kern undo
  base := kern undo
  i_filocks ip := if ip = 3 then locks else []
  sd_siglist _ := []
  sd_pollist _ := []
  pc := .start

theorem before_start (undo : Option (List Undo)) (locks : List Filock) :
    Start forker (before undo locks) := by
  have hchild : 9 ∉ [8] := by decide
  refine ⟨rfl, rfl, fun f => ?_, hchild⟩
  show ((forker.u_ofile.count (some f) : ℕ) : ℤ) ≤ 1
  have hle : forker.u_ofile.count (some f) ≤ 1 := by
    simp only [forker, count_cons, count_nil]
    split_ifs <;> simp_all
  exact_mod_cast hle

/-- The second region cannot be copied; another process opens the file meanwhile. -/
def failing : List ForkEvent :=
  [.run .ok, .run .ok, .run .ok, .run .ok, .other (.fref 0 true), .run (.fail .nomem), .run .ok,
    .run .ok, .run .ok, .run .ok, .run .ok, .run .ok]

/-- A parent without locks and entries is left alone. -/
theorem fork_failed_clean :
    ∃ t, exec (step shipped forker) (before none []) failing = some t ∧ t.pc = .failed ∧
      LeftAlone forker (before none []) t := by
  have hrun : (exec (step shipped forker) (before none []) failing).any (fun t =>
      decide (t.pc = .failed ∧ t.base.sem.entries 5 = [] ∧ t.base.p_child = [8])) = true := by
    decide +kernel
  obtain ⟨t, ht, hend⟩ := (Option.any_eq_true _ _).mp hrun
  obtain ⟨hpc, hentries, hchild⟩ := of_decide_eq_true hend
  have hnone : ∀ ip, own forker ((before none []).i_filocks ip) = [] := fun ip => by
    show own forker (if ip = 3 then [] else []) = []
    rw [ite_self]
    rfl
  exact ⟨t, ht, hpc, (fork_failed_iff shipped forker (before none []) t failing
    (before_start none []) ht (Or.inr hpc)).mpr
    (Or.inr ⟨fun ip _ => hnone ip, fun _ _ _ => rfl, fun _ _ _ => rfl, hentries, hchild⟩)⟩

/-- A record lock of the parent on a file that it has open is gone after a failed call, its entry
for a semaphore too, and the semaphore is adjusted. -/
theorem fork_failed_lost :
    ∃ s t, Start forker s ∧ exec (step shipped forker) s failing = some t ∧ t.pc = .failed ∧
      own forker (s.i_filocks 3) = [⟨.wrlck, 0, 9⟩] ∧ own forker (t.i_filocks 3) = [] ∧
      t.cur.sem.entries 5 ≠ t.base.sem.entries 5 ∧
      (t.cur.sem.sem 1).semval ≠ (t.base.sem.sem 1).semval ∧ ¬ LeftAlone forker s t := by
  obtain ⟨s, hs⟩ : ∃ s, s = before (some [⟨1, 0, 0⟩]) [⟨⟨.wrlck, 0, 9⟩, ⟨7, 0⟩, 0⟩] := ⟨_, rfl⟩
  have hrun : (exec (step shipped forker) s failing).any (fun t =>
      decide (t.pc = .failed ∧ own forker (t.i_filocks 3) = [] ∧
        t.cur.sem.entries 5 ≠ t.base.sem.entries 5 ∧
        (t.cur.sem.sem 1).semval ≠ (t.base.sem.sem 1).semval)) = true := by
    rw [hs]
    decide +kernel
  obtain ⟨t, ht, hend⟩ := (Option.any_eq_true _ _).mp hrun
  obtain ⟨hpc, hlocks, hentries, hval⟩ := of_decide_eq_true hend
  exact ⟨s, t, hs ▸ before_start _ _, ht, hpc, by rw [hs]; decide, hlocks, hentries, hval,
    fun h => hentries h.entries⟩

end Os.ForkFail
