import OpusSysV.Os.SleepQueue

/-!
# Parents that wait: `waitpid`, `exit`, `stop` and `psignal`

A parent asleep in `waitpid` is woken by `psignal(parent, SIGCLD)` when a child exits, and by a
`wakeup` of its own address when one stops; it then looks through its children again.

* `Wait` — the processes of `Slp` with their families, process groups and held signals.
* `waitpid`, `exit`, `stop`, `psignal` — as in the source.
* `Wait.step` — any order of these, of forks, and of all that `Slp` does.
* `NoneLeft` — nobody asleep in `waitpid` has a child to report.
* `none_left_run` — so it is as long as those who wait are told when they are to be (`Told`).

`request` is not in the source: what a process asked `waitpid` for when it went to sleep there.
-/

namespace Os

open Lib Slp Function List Option

def PWAIT : ℕ := 30
def SIGKILL : ℕ := 9
def SIGCLD : ℕ := 18

/-- The fields of `proc_t` about its family and its signals; `SIDL` is that value of `p_stat`. -/
structure WaitProc where
  p_pid : ℕ
  p_ppid : ℕ
  p_pgrp : ℕ
  p_sgid : ℕ
  p_parent : ℕ
  p_hold : ℕ → Bool
  STRC : Bool
  SWTED : Bool
  SIDL : Bool

/-- The arguments of `waitpid` by which a child is chosen. -/
structure Request where
  pid : ℤ
  wuntraced : Bool
  deriving DecidableEq

/-- The processes, their families and their lists of children; `addr` is where the process table
has its entries. -/
structure Wait where
  addr : ℕ → ℕ+
  slp : Slp
  fam : ℕ → WaitProc
  kids : ℕ → List ℕ
  request : ℕ → Option Request

namespace Wait

/-- Change the family fields of one process. -/
def setFam (s : Wait) (p : ℕ) (f : WaitProc → WaitProc) : Wait :=
  { s with fam := update s.fam p (f (s.fam p)) }

def stat (s : Wait) (p : ℕ) : ProcStat := (s.slp.proc p).p_stat

/-- The process group that `waitpid` looks at. -/
def pgrp (s : Wait) (c : ℕ) : ℕ := if s.stat c = .SZOMB then (s.fam c).p_sgid else (s.fam c).p_pgrp

/-- The test of `waitpid` whether a child is asked for. -/
def asked (pid : ℤ) (p_pid pgrp mine : ℕ) : Bool :=
  if pid = -1 then true
  else if 0 < pid then decide ((p_pid : ℤ) = pid)
  else if pid = 0 then decide (pgrp = mine)
  else decide ((pgrp : ℤ) = -pid)

/-- Process `w` asks for its child `c`. -/
def asks (s : Wait) (w : ℕ) (r : Request) (c : ℕ) : Bool :=
  asked r.pid (s.fam c).p_pid (s.pgrp c) (s.fam w).p_pgrp

/-- A child that has exited, or has stopped and was not yet reported. -/
def reportable (s : Wait) (r : Request) (c : ℕ) : Bool :=
  decide (s.stat c = .SZOMB) ||
    (decide (s.stat c = .SSTOP) && ((s.fam c).STRC || r.wuntraced) && !(s.fam c).SWTED)

/-- `psignal(p, sig)`. -/
def psignal (s : Wait) (p sig : ℕ) : Wait :=
  { s with slp := s.slp.psignal p (decide (sig = SIGKILL)) ((s.fam p).p_hold sig) }

/-- `freeproc(z, flag)`. -/
def freeproc (s : Wait) (z : ℕ) : Wait :=
  { s with
    slp := s.slp.setProc z fun x => { x with p_stat := .NULL, p_wchan := 0 }
    fam := update s.fam z { s.fam z with STRC := false, SWTED := false }
    kids := update s.kids (s.fam z).p_parent ((s.kids (s.fam z).p_parent).erase z) }

/-- `waitpid` by `p`, once through the loop; `intr` says whether `sleep` finds a signal to take. -/
def waitpid (s : Wait) (p : ℕ) (r : Request) (wnohang intr : Bool) : Wait :=
  match (s.kids p).find? fun c => s.asks p r c && s.reportable r c with
  | some c =>
    if s.stat c = .SZOMB then s.freeproc c else s.setFam c fun x => { x with SWTED := true }
  | none =>
    if (s.kids p).any (s.asks p r) && !wnohang then
      { s with
        slp := s.slp.sleep p (s.addr p) PWAIT intr
        request := update s.request p (some r) }
    else s

/-- The loop of `exit` over the children as far as it sets them running. -/
def contTraced (s : Wait) (ks : List ℕ) (slp : Slp) : Slp :=
  ks.foldl (fun slp q =>
    if (slp.proc q).p_stat = .SSTOP ∧ (s.fam q).STRC = true then slp.setrun q else slp) slp

/-- The children of `p` become those of process 1. -/
def handOver (s : Wait) (p : ℕ) : Wait :=
  let ks := s.kids p
  if ks = [] then s
  else
    { s with
      slp := s.contTraced ks s.slp
      fam := fun q => if q ∈ ks then { s.fam q with p_ppid := 1, p_parent := 1 } else s.fam q
      kids := update (update s.kids 1 (ks ++ s.kids 1)) p [] }

/-- If `p` leads its process group, there is no such group any more. -/
def dropGroup (s : Wait) (p : ℕ) : Wait :=
  if (s.fam p).p_pid = (s.fam p).p_pgrp then
    { s with
      fam := fun q =>
        if q ≠ 0 ∧ (s.fam q).p_pgrp = (s.fam p).p_pid then { s.fam q with p_pgrp := 0 }
        else s.fam q }
  else s

/-- `exit` by `p`, from where it hands over the children. -/
def exit (s : Wait) (p : ℕ) : Wait :=
  let flag := (s.kids p).any fun q => decide (s.stat q = .SZOMB)
  let s := s.handOver p
  let s := if flag then s.psignal 1 SIGCLD else s
  let s := s.dropGroup p
  let s := s.setFam p fun x => { x with p_sgid := x.p_pgrp, p_pgrp := 0 }
  let s := { s with
    slp := { s.slp.setProc p fun x => { x with p_stat := .SZOMB } with current := none } }
  s.psignal (s.fam p).p_parent SIGCLD

/-- `stop(p)` by `p` itself, which calls `swtch` then. -/
def stop (s : Wait) (p : ℕ) : Wait :=
  if (s.fam p).p_ppid = 1 ∨ (s.fam p).p_ppid ≠ (s.fam (s.fam p).p_parent).p_pid then s.exit p
  else
    { s.setFam p fun x => { x with SWTED := false } with
      slp := s.slp.stop p p (s.addr (s.fam p).p_parent) false }

/-- `newproc` by `pp` up to where it may sleep, for the free slot `cp`. -/
def newproc (s : Wait) (pp cp mpid : ℕ) : Wait :=
  { s.setFam cp fun x =>
      { x with
        p_pid := mpid
        p_ppid := (s.fam pp).p_pid
        p_pgrp := (s.fam pp).p_pgrp
        p_hold := (s.fam pp).p_hold
        p_parent := pp
        STRC := false
        SWTED := false
        SIDL := true } with
    kids := update s.kids pp (cp :: s.kids pp) }

/-- `procdup` has succeeded. -/
def procdup (s : Wait) (cp : ℕ) : Wait :=
  { s.setFam cp fun x => { x with SIDL := false } with
    slp := (s.slp.setProc cp fun x => { x with p_stat := .SRUN }).setrq cp }

/-- `procdup` has failed. -/
def newprocFail (s : Wait) (pp cp : ℕ) : Wait :=
  { s.setFam cp fun x => { x with SIDL := false, p_ppid := 0 } with
    kids := update s.kids pp ((s.kids pp).dropWhile (· ≠ cp)).tail }

end Wait

/-- What the process that runs, or an interrupt, does. -/
inductive WaitEvent
  | waitpid (r : Request) (wnohang intr : Bool)
  | exit
  | stop
  | psignal (p sig : ℕ)
  | sigprocmask (hold : ℕ → Bool)
  | reap (z : ℕ)
  | newproc (cp mpid : ℕ)
  | procdup (cp : ℕ)
  | newprocFail (cp : ℕ)
  | setpgrp
  | traceme
  | sleep (chan : ℕ+) (disp : ℕ) (intr : Bool)
  | slp (e : SlpEvent)

/-- The events of `Slp` that are not of a process's own making here. -/
def SlpEvent.outside : SlpEvent → Bool
  | .wakeup _ => true
  | .setrun _ => true
  | .qswtch => true
  | .disp => true
  | .sched _ _ _ _ => true
  | _ => false

/-- One event.  `reap` is what `issig` does where `SIGCLD` is ignored, `sleep` a sleep elsewhere than
in `waitpid`. -/
def Wait.step (s : Wait) : WaitEvent → Option Wait
  | .waitpid r wnohang intr => s.slp.current.map fun p => s.waitpid p r wnohang intr
  | .exit => s.slp.current.map fun p => s.exit p
  | .stop => s.slp.current.map fun p => s.stop p
  | .psignal p sig => if p < s.slp.v_proc then some (s.psignal p sig) else none
  | .sigprocmask hold =>
    s.slp.current.map fun p => s.setFam p fun x => { x with p_hold := hold }
  | .reap z =>
    s.slp.current.bind fun p =>
      if z ∈ s.kids p ∧ s.stat z = .SZOMB then some (s.freeproc z) else none
  | .newproc cp mpid =>
    s.slp.current.bind fun p =>
      if cp < s.slp.v_proc ∧ s.stat cp = .NULL ∧ (s.fam cp).SIDL = false then
        some (s.newproc p cp mpid)
      else none
  | .procdup cp =>
    s.slp.current.bind fun p =>
      if cp ∈ s.kids p ∧ cp < s.slp.v_proc ∧ s.stat cp = .NULL ∧ (s.fam cp).SIDL = true then
        some (s.procdup cp)
      else none
  | .newprocFail cp =>
    s.slp.current.bind fun p =>
      if cp ∈ s.kids p ∧ s.stat cp = .NULL ∧ (s.fam cp).SIDL = true then
        some (s.newprocFail p cp)
      else none
  | .setpgrp => s.slp.current.map fun p => s.setFam p fun x => { x with p_pgrp := x.p_pid }
  | .traceme => s.slp.current.map fun p => s.setFam p fun x => { x with STRC := true }
  | .sleep chan disp intr =>
    s.slp.current.map fun p =>
      { s with
        slp := s.slp.sleep p chan disp intr
        request := update s.request p none }
  | .slp e => if e.outside then (s.slp.step e).map fun u => { s with slp := u } else none

/-! ## What the operations of `Slp` leave alone -/

namespace Slp

variable {s t u : Slp} {p q k n chan : ℕ}

/-- Each process runs or is as it was, and waits for the same if it sleeps. -/
structure Keeps (s t : Slp) : Prop where
  snwake : ∀ x, (s.proc x).SNWAKE = false → (t.proc x).SNWAKE = false
  stat : ∀ x, (t.proc x).p_stat = .SRUN ∨ ((t.proc x).p_stat = (s.proc x).p_stat ∧
    ((s.proc x).p_stat = .SSLEEP → (t.proc x).p_wchan = (s.proc x).p_wchan))
  current : t.current = s.current

theorem Keeps.refl (s : Slp) : s.Keeps s :=
  ⟨fun _ h => h, fun _ => Or.inr ⟨rfl, fun _ => rfl⟩, rfl⟩

theorem Keeps.trans (h : s.Keeps t) (h' : t.Keeps u) : s.Keeps u := by
  refine ⟨fun x hx => h'.snwake x (h.snwake x hx), fun x => ?_, h'.current.trans h.current⟩
  rcases h'.stat x with hx | ⟨hx, hw⟩
  · exact Or.inl hx
  · rcases h.stat x with hy | ⟨hy, hv⟩
    · exact Or.inl (hx.trans hy)
    · exact Or.inr ⟨hx.trans hy, fun hs => (hw (hy.trans hs)).trans (hv hs)⟩

/-- Who sleeps afterwards did so before. -/
theorem Keeps.sleeping (h : s.Keeps t) {x : ℕ} (hx : (t.proc x).p_stat = .SSLEEP) :
    (s.proc x).p_stat = .SSLEEP ∧ (t.proc x).p_wchan = (s.proc x).p_wchan := by
  rcases h.stat x with hr | ⟨hr, hw⟩
  · rw [hr] at hx
    cases hx
  · exact ⟨hr.symm.trans hx, hw (hr.symm.trans hx)⟩

/-- Who does not run afterwards was in the same state before. -/
theorem Keeps.stat_eq (h : s.Keeps t) {x : ℕ} (hx : (t.proc x).p_stat ≠ .SRUN) :
    (t.proc x).p_stat = (s.proc x).p_stat :=
  (h.stat x).elim (fun hr => absurd hr hx) And.left

theorem store_snwake (s : Slp) (k : ℕ) (q v : Option ℕ) (x : ℕ) :
    ((s.store k q v).proc x).SNWAKE = (s.proc x).SNWAKE := by
  cases q with
  | none => rfl
  | some p =>
    unfold store
    dsimp only
    rw [proc_setProc]
    split_ifs <;> rfl

theorem unsleep_proc (s : Slp) (p x : ℕ) :
    ((s.unsleep p).proc x).SNWAKE = (s.proc x).SNWAKE ∧
      ((s.unsleep p).proc x).p_stat = (s.proc x).p_stat ∧
      (x ≠ p → ((s.unsleep p).proc x).p_wchan = (s.proc x).p_wchan) := by
  unfold unsleep
  split_ifs
  · dsimp only
    rw [proc_setProc]
    obtain ⟨h1, h2, -⟩ := store_proc s (sqhash (s.proc p).p_wchan)
      (s.findPlace (sqhash (s.proc p).p_wchan) p s.v_proc none) (s.proc p).p_link x
    have h3 := store_snwake s (sqhash (s.proc p).p_wchan)
      (s.findPlace (sqhash (s.proc p).p_wchan) p s.v_proc none) (s.proc p).p_link x
    split_ifs with hx
    · exact ⟨h3, h1, fun hn => absurd hx hn⟩
    · exact ⟨h3, h1, fun _ => h2⟩
  · exact ⟨rfl, rfl, fun _ => rfl⟩

theorem setrq_snwake (s : Slp) (p x : ℕ) :
    (((s.setProc p fun x => { x with p_stat := .SRUN }).setrq p).proc x).SNWAKE =
      (s.proc x).SNWAKE := by
  unfold setrq
  dsimp only
  rw [proc_setProc, proc_setProc]
  split_ifs <;> rfl

/-- A process that is made to run keeps all others as they are. -/
theorem keeps_setrq (hsn : ∀ x, (t.proc x).SNWAKE = (s.proc x).SNWAKE)
    (hother : ∀ x, x ≠ p → (t.proc x).p_stat = (s.proc x).p_stat ∧
      (t.proc x).p_wchan = (s.proc x).p_wchan) (hcur : t.current = s.current) :
    s.Keeps ((t.setProc p fun x => { x with p_stat := .SRUN }).setrq p) := by
  refine ⟨fun x hx => ?_, fun x => ?_, hcur⟩
  · rw [setrq_snwake, hsn, hx]
  · obtain ⟨h1, h2, -⟩ := setrq_proc t p x
    rw [h1, h2]
    split_ifs with hx
    · exact Or.inl rfl
    · exact Or.inr ⟨(hother x hx).1, fun _ => (hother x hx).2⟩

theorem setrunN_succ {m : ℕ} (hm : ∀ s p, Keeps s (setrunN m s p)) (s : Slp) (p : ℕ) :
    s.Keeps (setrunN (m + 1) s p) ∧ ((setrunN (m + 1) s p).proc p).p_stat = .SRUN := by
  rw [setrunN]
  by_cases hs : (s.proc p).p_stat = .SRUN
  · rw [if_pos hs]
    exact ⟨Keeps.refl s, hs⟩
  · rw [if_neg hs]
    obtain ⟨u, hu⟩ : ∃ u, u = if (s.proc p).p_stat = .SSLEEP ∨ (s.proc p).p_stat = .SSTOP then
      s.unsleep p else s := ⟨_, rfl⟩
    have huproc : ∀ x, (u.proc x).SNWAKE = (s.proc x).SNWAKE ∧
        (u.proc x).p_stat = (s.proc x).p_stat ∧
        (x ≠ p → (u.proc x).p_wchan = (s.proc x).p_wchan) := by
      intro x
      rw [hu]
      split_ifs
      · exact unsleep_proc s p x
      · exact ⟨rfl, rfl, fun _ => rfl⟩
    have hucur : u.current = s.current := by
      rw [hu]
      split_ifs
      · exact (unsleep_same s p).2.1
      · rfl
    rw [← hu]
    obtain ⟨w, hw⟩ : ∃ w, w = (u.setProc p fun x => { x with p_stat := .SRUN }).setrq p :=
      ⟨_, rfl⟩
    have hsw : s.Keeps w := by
      rw [hw]
      exact keeps_setrq (fun x => (huproc x).1)
        (fun x hx => ⟨(huproc x).2.1, (huproc x).2.2 hx⟩) hucur
    have hwp : (w.proc p).p_stat = .SRUN := by
      rw [hw]
      exact (setrq_proc u p p).1.trans (if_pos rfl)
    dsimp only
    rw [← hw]
    split_ifs
    · have h1 := hm { w with runout := 0 } 0
      have h0 : w.Keeps (setrunN m { w with runout := 0 } 0) := ⟨h1.snwake, h1.stat, h1.current⟩
      exact ⟨hsw.trans h0, (h0.stat p).elim id fun h2 => h2.1.trans hwp⟩
    · exact ⟨hsw, hwp⟩

theorem setrunN_keeps (n : ℕ) (s : Slp) (p : ℕ) : s.Keeps (setrunN n s p) := by
  induction n generalizing s p with
  | zero => exact Keeps.refl s
  | succ n ih => exact (setrunN_succ ih s p).1

theorem setrun_keeps (s : Slp) (p : ℕ) :
    s.Keeps (s.setrun p) ∧ ((s.setrun p).proc p).p_stat = .SRUN :=
  setrunN_succ (setrunN_keeps 1) s p

theorem wakeupLoop_keeps (chan n : ℕ) (q : Option ℕ) (s : Slp) (b : Bool) :
    s.Keeps (wakeupLoop chan n q s b).1 := by
  induction n generalizing q s b with
  | zero => exact Keeps.refl s
  | succ n ih =>
    rw [wakeupLoop]
    cases s.load (sqhash chan) q with
    | none => exact Keeps.refl s
    | some p =>
      dsimp only
      split_ifs with hpanic hp hsl
      · exact ⟨fun _ hx => hx, fun _ => Or.inr ⟨rfl, fun _ => rfl⟩, rfl⟩
      all_goals
        obtain ⟨u, hu⟩ : ∃ u, u = (s.setProc p fun x => { x with p_wchan := 0 }).store (sqhash chan)
          q ((s.setProc p fun x => { x with p_wchan := 0 }).proc p).p_link := ⟨_, rfl⟩
        have huproc : ∀ x, (u.proc x).SNWAKE = (s.proc x).SNWAKE ∧
            (u.proc x).p_stat = (s.proc x).p_stat ∧
            (x ≠ p → (u.proc x).p_wchan = (s.proc x).p_wchan) := by
          intro x
          obtain ⟨h1, h2, -⟩ := store_proc (s.setProc p fun x => { x with p_wchan := 0 })
            (sqhash chan) q ((s.setProc p fun x => { x with p_wchan := 0 }).proc p).p_link x
          have h3 := store_snwake (s.setProc p fun x => { x with p_wchan := 0 })
            (sqhash chan) q ((s.setProc p fun x => { x with p_wchan := 0 }).proc p).p_link x
          rw [hu, h1, h2, h3, proc_setProc]
          split_ifs with hx
          · exact ⟨rfl, rfl, fun hn => absurd hx hn⟩
          · exact ⟨rfl, rfl, fun _ => rfl⟩
        have hucur : u.current = s.current := by
          rw [hu]
          exact (store_same _ _ _ _).2.1
      · rw [← hu]
        exact (keeps_setrq (fun x => (huproc x).1)
          (fun x hx => ⟨(huproc x).2.1, (huproc x).2.2 hx⟩) hucur).trans (ih ..)
      · rw [← hu]
        refine Keeps.trans ⟨fun x hx => (huproc x).1.trans hx, fun x => ?_, hucur⟩ (ih ..)
        refine Or.inr ⟨(huproc x).2.1, fun hs => (huproc x).2.2 ?_⟩
        rintro rfl
        rw [← hu] at hsl
        exact hsl ((huproc x).2.1.trans hs)
      · exact ih ..

theorem wakeup_keeps (s : Slp) (chan : ℕ) : s.Keeps (s.wakeup chan) := by
  have h := wakeupLoop_keeps chan (s.v_proc + 1) none s false
  unfold wakeup
  cases hw : wakeupLoop chan (s.v_proc + 1) none s false with
  | mk u b =>
    rw [hw] at h
    cases b with
    | false => exact h
    | true =>
      have h1 := (setrun_keeps { u with runout := 0 } 0).1
      exact h.trans ⟨h1.snwake, h1.stat, h1.current⟩

theorem psignal_keeps (s : Slp) (p : ℕ) (kill held : Bool) : s.Keeps (s.psignal p kill held) := by
  unfold psignal
  split_ifs with h1 h2 h3 h4 h5
  · exact Keeps.refl s
  · exact (setrun_keeps s p).1
  · exact (setrun_keeps s p).1
  · obtain ⟨hcur⟩ := (unsleep_same s p).2
    refine ⟨fun x hx => (unsleep_proc s p x).1.trans hx, fun x => ?_, hcur⟩
    refine Or.inr ⟨(unsleep_proc s p x).2.1, fun hs => (unsleep_proc s p x).2.2 ?_⟩
    rintro rfl
    rw [h3] at hs
    cases hs
  · exact Keeps.refl s
  · exact Keeps.refl s

/-- A signal that is not held wakes a process that may be woken. -/
theorem psignal_wakes (hs : (s.proc p).p_stat = .SSLEEP) (hn : (s.proc p).SNWAKE = false)
    (kill : Bool) : ((s.psignal p kill false).proc p).p_stat = .SRUN := by
  unfold psignal
  rw [if_pos ⟨hs, hn⟩, if_neg Bool.false_ne_true]
  exact (setrun_keeps s p).2

/-- A signal is sent to a slot that may be free. -/
theorem Queues.psignal' {chains : ℕ → List ℕ} {run : List ℕ} (h : s.Queues chains run) (p : ℕ)
    (kill held : Bool) : ∃ chains' run', (s.psignal p kill held).Queues chains' run' := by
  by_cases hp : (s.proc p).p_stat = .NULL
  · have hsame : s.psignal p kill held = s := by
      unfold Slp.psignal
      rw [if_neg fun hc => ?_, if_neg fun hc => ?_]
      · rw [hp] at hc
        cases hc
      · rw [hp] at hc
        cases hc.1
    rw [hsame]
    exact ⟨chains, run, h⟩
  · exact h.psignal (h.bound p hp) kill held

/-- What `sleep` does to the process that calls it and to others. -/
theorem sleep_proc (hpanic : s.panicstr = false) (p chan disp : ℕ) (intr : Bool) :
    (∀ x, x ≠ p → (s.sleep p chan disp intr).proc x = s.proc x) ∧
      (((s.sleep p chan disp intr).current = s.current ∧
          ((s.sleep p chan disp intr).proc p).p_stat = .SRUN ∧
          ((s.sleep p chan disp intr).proc p).SNWAKE = (s.proc p).SNWAKE) ∨
        ((s.sleep p chan disp intr).current = none ∧
          ((s.sleep p chan disp intr).proc p).p_stat = .SSLEEP ∧
          ((s.sleep p chan disp intr).proc p).p_wchan = chan ∧
          (PZERO < disp &&& PMASK →
            ((s.sleep p chan disp intr).proc p).SNWAKE = (s.proc p).SNWAKE))) := by
  have hself : ∀ (s : Slp) (f : SlpProc → SlpProc), (s.setProc p f).proc p = f (s.proc p) :=
    fun s f => (proc_setProc s p f p).trans (if_pos rfl)
  have hother : ∀ (s : Slp) (f : SlpProc → SlpProc) (x : ℕ), x ≠ p →
      (s.setProc p f).proc x = s.proc x := fun s f x hx =>
    (proc_setProc s p f x).trans (if_neg hx)
  unfold sleep
  rw [if_neg (by rw [hpanic]; exact Bool.false_ne_true)]
  dsimp only
  obtain ⟨u, hu⟩ : ∃ u, u = s.setProc p fun x =>
    { x with
      p_stat := .SSLEEP
      p_wchan := chan
      p_link := s.hsque (sqhash chan)
      p_pri := min x.p_pri (disp &&& PMASK) } := ⟨_, rfl⟩
  have hup := hself s fun x =>
    { x with
      p_stat := .SSLEEP
      p_wchan := chan
      p_link := s.hsque (sqhash chan)
      p_pri := min x.p_pri (disp &&& PMASK) }
  have huo := hother s fun x =>
    { x with
      p_stat := .SSLEEP
      p_wchan := chan
      p_link := s.hsque (sqhash chan)
      p_pri := min x.p_pri (disp &&& PMASK) }
  have hucur : u.current = s.current := by
    rw [hu]
    rfl
  rw [← hu] at hup huo ⊢
  obtain ⟨v, hv⟩ : ∃ v, v = { u with
    hsque := update u.hsque (sqhash chan) (some p) } := ⟨_, rfl⟩
  have hvu : v.proc = u.proc := by rw [hv]
  have hvcur : v.current = s.current := by
    rw [hv]
    exact hucur
  split_ifs with hpri hintr
  · rw [← hv]
    refine ⟨fun x hx => ?_, Or.inl ⟨hvcur, ?_, ?_⟩⟩ <;> dsimp only
    · rw [hother v _ x hx, hvu, huo x hx]
    · rw [hself]
    · rw [hself, hvu, hup]
  · refine ⟨fun x hx => huo x hx, Or.inr ⟨rfl, ?_, ?_, fun _ => ?_⟩⟩
    all_goals
      dsimp only
      rw [hup]
  · rw [← hv]
    refine ⟨fun x hx => ?_, Or.inr ⟨rfl, ?_, ?_, fun hc => absurd hc hpri⟩⟩ <;> dsimp only
    · rw [hother v _ x hx, hvu, huo x hx]
    · rw [hself, hvu, hup]
    · rw [hself, hvu, hup]

/-- A process that has exited is freed. -/
theorem Queues.free {chains : ℕ → List ℕ} {run : List ℕ} (h : s.Queues chains run)
    (hs : (s.proc p).p_stat = .SZOMB) :
    (s.setProc p fun x => { x with p_stat := .NULL, p_wchan := 0 }).Queues chains run := by
  obtain ⟨t, ht⟩ : ∃ t, t = s.setProc p fun x => { x with p_stat := .NULL, p_wchan := 0 } :=
    ⟨_, rfl⟩
  have hw : (s.proc p).p_wchan = 0 := h.wchan_eq_zero (by rw [hs]; decide)
  have hproc : ∀ x, (t.proc x).p_stat = (if x = p then .NULL else (s.proc x).p_stat) ∧
      (t.proc x).p_wchan = (s.proc x).p_wchan ∧ t.link x = s.link x := by
    intro x
    unfold link
    rw [ht, proc_setProc]
    split_ifs with hx
    · exact ⟨rfl, (hx ▸ hw).symm, rfl⟩
    · exact ⟨rfl, rfl, rfl⟩
  obtain ⟨h1, h2, h3, h4, h5⟩ : t.hsque = s.hsque ∧ t.runq = s.runq ∧ t.current = s.current ∧
      t.v_proc = s.v_proc ∧ t.panicstr = s.panicstr := by
    rw [ht]
    exact ⟨rfl, rfl, rfl, rfl, rfl⟩
  rw [← ht]
  refine ⟨fun k => ?_, ?_, h.chain_nodup, h.run_nodup, fun k x => ?_, fun x => ?_, fun x hx => ?_,
    fun x hx => ?_, fun x hx => ?_, h5.trans h.no_panic, h4 ▸ h.pos⟩
  · rw [h1]
    exact (h.chain_linked k).congr fun x _ => (hproc x).2.2
  · rw [h2]
    exact h.run_linked.congr fun x _ => (hproc x).2.2
  · rw [(hproc x).2.1]
    exact h.mem_chain k x
  · rw [(hproc x).1, h3, h.mem_run]
    split_ifs with hx
    · rw [hx, hs]
      exact iff_of_false (fun hc => nomatch hc.1) fun hc => nomatch hc.1
    · rfl
  · rw [(hproc x).2.1] at hx
    have hxp : x ≠ p := fun hxp => hx (hxp ▸ hw)
    rw [(hproc x).1, if_neg hxp]
    exact h.waiting x hx
  · rw [h3] at hx
    have hxp : x ≠ p := by
      rintro rfl
      have := h.running x hx
      rw [hs] at this
      cases this
    rw [(hproc x).1, if_neg hxp]
    exact h.running x hx
  · rw [h4]
    rw [(hproc x).1] at hx
    split_ifs at hx
    · exact absurd rfl hx
    · exact h.bound x hx

end Slp

/-! ## Parents asleep in `waitpid` -/

namespace Wait

variable {s t : Wait} {p w c z cp pp : ℕ} {r : Request} {u : Slp}

/-- Process `w` is asleep in `waitpid`. -/
def Waiting (s : Wait) (w : ℕ) (r : Request) : Prop :=
  s.request w = some r ∧ s.stat w = .SSLEEP

/-- Nobody who is asleep in `waitpid` has a child to report. -/
def NoneLeft (s : Wait) : Prop :=
  ∀ w r, s.Waiting w r → ∀ c ∈ s.kids w, s.asks w r c = true → s.reportable r c = false

/-- What the operations rely on. -/
structure Inv (s : Wait) : Prop where
  queues : ∃ chains run, s.slp.Queues chains run
  parent : ∀ w, ∀ c ∈ s.kids w, (s.fam c).p_parent = w
  nodup : ∀ w, (s.kids w).Nodup
  used : ∀ w, ∀ c ∈ s.kids w, s.stat c ≠ .NULL ∨ (s.fam c).SIDL = true
  awake : ∀ p, s.slp.current = some p → (s.slp.proc p).SNWAKE = false
  asleep : ∀ w r, s.Waiting w r →
    (s.slp.proc w).p_wchan = s.addr w ∧ (s.slp.proc w).SNWAKE = false
  none_left : s.NoneLeft
  self : ∀ p, p ∈ s.kids p → p = 1

theorem Inv.running (h : s.Inv) (hp : s.slp.current = some p) : s.stat p = .SRUN := by
  obtain ⟨chains, run, hq⟩ := h.queues
  exact hq.running p hp

/-- What has exited or is stopped is all that is reported. -/
theorem reportable_stat (h : s.reportable r c = true) : s.stat c = .SZOMB ∨ s.stat c = .SSTOP := by
  unfold reportable at h
  rw [Bool.or_eq_true, Bool.and_eq_true, Bool.and_eq_true] at h
  exact h.imp of_decide_eq_true fun h => of_decide_eq_true h.1.1

/-- Whether a child is reported is a matter of its own fields. -/
theorem reportable_congr (hs : t.stat c = s.stat c) (h1 : (t.fam c).STRC = (s.fam c).STRC)
    (h2 : (t.fam c).SWTED = (s.fam c).SWTED) : t.reportable r c = s.reportable r c := by
  unfold reportable
  rw [hs, h1, h2]

theorem asks_congr (hs : t.stat c = s.stat c) (hc : (t.fam c).p_pid = (s.fam c).p_pid ∧
      (t.fam c).p_pgrp = (s.fam c).p_pgrp ∧ (t.fam c).p_sgid = (s.fam c).p_sgid)
    (hw : (t.fam w).p_pgrp = (s.fam w).p_pgrp) : t.asks w r c = s.asks w r c := by
  unfold asks pgrp
  rw [hs, hc.1, hc.2.1, hc.2.2, hw]

/-- A child that is as it was is not to be reported to who was asleep before. -/
theorem NoneLeft.of_same (h : s.NoneLeft) (hw : s.Waiting w r) (hc : c ∈ s.kids w)
    (hst : t.stat c = s.stat c) (hf : t.fam c = s.fam c)
    (hg : (t.fam w).p_pgrp = (s.fam w).p_pgrp) (hask : t.asks w r c = true) :
    t.reportable r c = false := by
  rw [reportable_congr hst (by rw [hf]) (by rw [hf])]
  refine h w r hw c hc ?_
  rw [← asks_congr hst (by rw [hf]; exact ⟨rfl, rfl, rfl⟩) hg]
  exact hask

section

variable (h : s.Inv)

include h

/-- **Only the lists of `Slp` change**, and nobody falls asleep. -/
theorem Inv.keep (hq : ∃ chains run, u.Queues chains run)
    (hsn : ∀ x, (s.slp.proc x).SNWAKE = false → (u.proc x).SNWAKE = false)
    (hst : ∀ x, (u.proc x).p_stat = .SRUN ∨ ((u.proc x).p_stat = (s.slp.proc x).p_stat ∧
      ((s.slp.proc x).p_stat = .SSLEEP → (u.proc x).p_wchan = (s.slp.proc x).p_wchan)))
    (hawake : ∀ p, u.current = some p → (u.proc p).SNWAKE = false) :
    ({ s with slp := u } : Wait).Inv := by
  have hback : ∀ w r, ({ s with slp := u } : Wait).Waiting w r → s.Waiting w r ∧
      (u.proc w).p_wchan = (s.slp.proc w).p_wchan := by
    rintro w r ⟨hr, hs⟩
    have hs : (u.proc w).p_stat = .SSLEEP := hs
    rcases hst w with hx | ⟨hx, hw⟩
    · rw [hx] at hs
      cases hs
    · exact ⟨⟨hr, hx.symm.trans hs⟩, hw (hx.symm.trans hs)⟩
  refine ⟨hq, h.parent, h.nodup, fun w c hc => ?_, hawake, fun w r hw => ?_,
    fun w r hw c hc hask => ?_, h.self⟩
  · rcases hst c with hx | ⟨hx, -⟩
    · refine Or.inl fun hn => ?_
      have hn : (u.proc c).p_stat = .NULL := hn
      rw [hx] at hn
      cases hn
    · exact (h.used w c hc).imp (fun hn hc => hn (hx.symm.trans hc)) id
  · obtain ⟨hws, hwc⟩ := hback w r hw
    obtain ⟨h1, h2⟩ := h.asleep w r hws
    exact ⟨hwc.trans h1, hsn w h2⟩
  · by_contra hrep
    rw [Bool.not_eq_false] at hrep
    have hsc : (u.proc c).p_stat = (s.slp.proc c).p_stat := by
      rcases hst c with hx | ⟨hx, -⟩
      · have h2 := reportable_stat hrep
        have h2 : (u.proc c).p_stat = .SZOMB ∨ (u.proc c).p_stat = .SSTOP := h2
        rw [hx] at h2
        rcases h2 with h2 | h2 <;> cases h2
      · exact hx
    have h1 := h.none_left.of_same (hback w r hw).1 hc (t := { s with slp := u }) hsc rfl rfl hask
    rw [hrep] at h1
    cases h1

theorem Inv.keeps (hq : ∃ chains run, u.Queues chains run) (hk : s.slp.Keeps u) :
    ({ s with slp := u } : Wait).Inv := by
  refine h.keep hq hk.snwake hk.stat fun p hp => hk.snwake p (h.awake p ?_)
  rw [← hk.current]
  exact hp

omit h in
theorem setFam_fam (s : Wait) (p : ℕ) (f : WaitProc → WaitProc) (x : ℕ) :
    (s.setFam p f).fam x = if x = p then f (s.fam x) else s.fam x := by
  split_ifs with hx
  · rw [hx]
    exact update_self ..
  · exact update_of_ne hx ..

/-- **A process that runs changes its group, its flags or its signals.** -/
theorem Inv.setFam (hp : s.stat p = .SRUN) {f : WaitProc → WaitProc}
    (hf : ∀ x, (f x).p_parent = x.p_parent) : (s.setFam p f).Inv := by
  have hfam := setFam_fam s p f
  have hne : ∀ x, s.stat x ≠ .SRUN → (s.setFam p f).fam x = s.fam x := fun x hx => by
    rw [hfam, if_neg]
    rintro rfl
    exact hx hp
  refine ⟨h.queues, fun w c hc => ?_, h.nodup, fun w c hc => ?_, h.awake, h.asleep,
    fun w r hw c hc hask => ?_, h.self⟩
  · rw [hfam]
    split_ifs
    · exact (hf _).trans (h.parent w c hc)
    · exact h.parent w c hc
  · rw [hfam]
    split_ifs with hcp
    · refine Or.inl fun hn => ?_
      have hn : s.stat c = .NULL := hn
      rw [hcp, hp] at hn
      cases hn
    · exact h.used w c hc
  · by_contra hrep
    rw [Bool.not_eq_false] at hrep
    have hcr : s.stat c ≠ .SRUN := fun hr => by
      have h2 : s.stat c = .SZOMB ∨ s.stat c = .SSTOP := reportable_stat (s := s.setFam p f) hrep
      rw [hr] at h2
      rcases h2 with h2 | h2 <;> cases h2
    have hwr : s.stat w ≠ .SRUN := fun hr => by
      have h2 : s.stat w = .SSLEEP := hw.2
      rw [hr] at h2
      cases h2
    have h1 := h.none_left.of_same hw hc (t := s.setFam p f) rfl (hne c hcr) (by rw [hne w hwr]) hask
    rw [hrep] at h1
    cases h1

theorem Inv.freeproc (hz : z ∈ s.kids p) (hs : s.stat z = .SZOMB) :
    (s.freeproc z).Inv := by
  obtain ⟨chains, run, hq⟩ := h.queues
  have hpar := h.parent p z hz
  have hproc : ∀ x, (s.freeproc z).slp.proc x =
      if x = z then { s.slp.proc x with p_stat := .NULL, p_wchan := 0 } else s.slp.proc x :=
    proc_setProc s.slp z fun x => { x with p_stat := .NULL, p_wchan := 0 }
  have hstat : ∀ x, (s.freeproc z).stat x = if x = z then .NULL else s.stat x := fun x => by
    unfold stat
    rw [hproc]
    split_ifs <;> rfl
  have hslp : ∀ x, x ≠ z → (s.freeproc z).slp.proc x = s.slp.proc x := fun x hx =>
    (hproc x).trans (if_neg hx)
  have hfam : ∀ x, x ≠ z → (s.freeproc z).fam x = s.fam x := fun x hx =>
    update_of_ne hx ..
  have hfamz : (s.freeproc z).fam z = { s.fam z with STRC := false, SWTED := false } :=
    update_self ..
  have hkids : ∀ w, (s.freeproc z).kids w = if w = p then (s.kids p).erase z else s.kids w := by
    intro w
    unfold Wait.freeproc
    dsimp only
    rw [hpar, update_apply]
  -- `z` is on no list any more
  have hmem : ∀ w, ∀ c ∈ (s.freeproc z).kids w, c ∈ s.kids w ∧ c ≠ z := by
    intro w c hc
    rw [hkids] at hc
    split_ifs at hc with hw
    · rw [hw]
      exact ((List.Nodup.mem_erase_iff (h.nodup p)).mp hc).symm
    · refine ⟨hc, fun hcz => hw ?_⟩
      rw [hcz] at hc
      exact (h.parent w z hc).symm.trans hpar
  have hback : ∀ w r, (s.freeproc z).Waiting w r → s.Waiting w r ∧ w ≠ z := by
    rintro w r ⟨hr, hw⟩
    rw [hstat] at hw
    split_ifs at hw with hwz
    exact ⟨⟨hr, hw⟩, hwz⟩
  refine ⟨⟨chains, run, hq.free hs⟩, fun w c hc => ?_, fun w => ?_, fun w c hc => ?_, fun x hx => ?_,
    fun w r hw => ?_, fun w r hw c hc hask => ?_, fun x hx => h.self x (hmem x x hx).1⟩
  · obtain ⟨hc, hcz⟩ := hmem w c hc
    rw [hfam c hcz]
    exact h.parent w c hc
  · rw [hkids]
    split_ifs
    · exact (h.nodup p).erase z
    · exact h.nodup w
  · obtain ⟨hc, hcz⟩ := hmem w c hc
    rw [hstat, if_neg hcz, hfam c hcz]
    exact h.used w c hc
  · have hx' : s.slp.current = some x := hx
    have hxz : x ≠ z := by
      rintro rfl
      have := h.running hx'
      rw [hs] at this
      cases this
    rw [hslp x hxz]
    exact h.awake x hx'
  · obtain ⟨hw, hwz⟩ := hback w r hw
    rw [hslp w hwz]
    exact h.asleep w r hw
  · obtain ⟨hw, hwz⟩ := hback w r hw
    obtain ⟨hc, hcz⟩ := hmem w c hc
    exact h.none_left.of_same hw hc ((hstat c).trans (if_neg hcz)) (hfam c hcz)
      (by rw [hfam w hwz]) hask

/-- **The process that runs goes to sleep**, in `waitpid` if it is to have a request. -/
theorem Inv.sleep (hp : s.slp.current = some p) (chan : ℕ+) (disp : ℕ) (intr : Bool)
    (ro : Option Request) (hro : ∀ r, ro = some r → chan = s.addr p ∧ PZERO < disp &&& PMASK ∧
      ∀ c ∈ s.kids p, s.asks p r c = true → s.reportable r c = false) :
    ({ s with
      slp := s.slp.sleep p chan disp intr
      request := update s.request p ro } : Wait).Inv := by
  obtain ⟨chains, run, hq⟩ := h.queues
  obtain ⟨hother, hself⟩ := sleep_proc hq.no_panic p chan disp intr
  obtain ⟨u, hu⟩ : ∃ u, u = s.slp.sleep p chan disp intr := ⟨_, rfl⟩
  rw [← hu] at hother hself ⊢
  have hrun := h.running hp
  have hcur : ∀ x, u.current = some x → x = p ∧ (u.proc p).SNWAKE = (s.slp.proc p).SNWAKE := by
    intro x hx
    rcases hself with ⟨h1, -, h3⟩ | ⟨h1, -⟩
    · rw [h1, hp] at hx
      exact ⟨(some_inj.mp hx).symm, h3⟩
    · rw [h1] at hx
      cases hx
  have hpstat : (u.proc p).p_stat = .SRUN ∨ (u.proc p).p_stat = .SSLEEP :=
    hself.imp (fun hx => hx.2.1) fun hx => hx.2.1
  obtain ⟨t, ht⟩ : ∃ t : Wait, t = { s with
    slp := u
    request := update s.request p ro } := ⟨_, rfl⟩
  obtain ⟨hslp, hfam, hkids, haddr⟩ : t.slp = u ∧ t.fam = s.fam ∧ t.kids = s.kids ∧
      t.addr = s.addr := by
    rw [ht]
    exact ⟨rfl, rfl, rfl, rfl⟩
  have hreq : ∀ w, t.request w = if w = p then ro else s.request w := fun w => by
    rw [ht]
    exact update_apply ..
  have hstat : ∀ x, t.stat x = (u.proc x).p_stat := fun x => by
    unfold stat
    rw [hslp]
  have hsame : ∀ x, x ≠ p → t.stat x = s.stat x := fun x hx => by
    rw [hstat, hother x hx]
    rfl
  have hback : ∀ w r, t.Waiting w r → (w = p ∧ ro = some r) ∨ (w ≠ p ∧ s.Waiting w r) := by
    rintro w r ⟨hr, hs⟩
    rw [hreq] at hr
    split_ifs at hr with hwp
    · exact Or.inl ⟨hwp, hr⟩
    · exact Or.inr ⟨hwp, hr, (hsame w hwp).symm.trans hs⟩
  rw [← ht]
  refine ⟨?_, fun w c hc => ?_, fun w => ?_, fun w c hc => ?_, fun x hx => ?_, fun w r hw => ?_,
    fun w r hw c hc hask => ?_, fun x hx => h.self x (hkids ▸ hx)⟩
  · obtain ⟨c, hc⟩ := hq.sleep hp chan.pos.ne' disp intr
    rw [hslp, hu]
    exact ⟨c, run, hc⟩
  · rw [hkids] at hc
    rw [hfam]
    exact h.parent w c hc
  · rw [hkids]
    exact h.nodup w
  · rw [hkids] at hc
    rw [hfam]
    by_cases hcp : c = p
    · refine Or.inl fun hn => ?_
      rw [hstat, hcp] at hn
      rcases hpstat with h1 | h1 <;> rw [h1] at hn <;> cases hn
    · rw [hsame c hcp]
      exact h.used w c hc
  · rw [hslp] at hx ⊢
    obtain ⟨rfl, hsn⟩ := hcur x hx
    exact hsn.trans (h.awake x hp)
  · rw [hslp, haddr]
    rcases hback w r hw with ⟨rfl, hr⟩ | ⟨hwp, hw'⟩
    · obtain ⟨h1, h2, -⟩ := hro r hr
      have hs := hw.2
      rw [hstat] at hs
      rcases hself with ⟨-, h3, -⟩ | ⟨-, -, h4, h5⟩
      · rw [h3] at hs
        cases hs
      · exact ⟨h4.trans (congrArg PNat.val h1), (h5 h2).trans (h.awake w hp)⟩
    · rw [hother w hwp]
      exact h.asleep w r hw'
  · rw [hkids] at hc
    by_contra hrep
    have hcp : c ≠ p := by
      rintro rfl
      have h2 := reportable_stat (Bool.not_eq_false _ ▸ hrep)
      rw [hstat] at h2
      rcases hpstat with h1 | h1 <;> rw [h1] at h2 <;> rcases h2 with h2 | h2 <;> cases h2
    rcases hback w r hw with ⟨rfl, hr⟩ | ⟨hwp, hw'⟩
    · refine hrep ?_
      rw [reportable_congr (hsame c hcp) (by rw [hfam]) (by rw [hfam])]
      refine (hro r hr).2.2 c hc ?_
      rw [← asks_congr (hsame c hcp) (by rw [hfam]; exact ⟨rfl, rfl, rfl⟩) (by rw [hfam])]
      exact hask
    · exact hrep (h.none_left.of_same hw' hc (hsame c hcp) (by rw [hfam]) (by rw [hfam]) hask)

theorem Inv.waitpid (hp : s.slp.current = some p) (r : Request) (wnohang intr : Bool) :
    (s.waitpid p r wnohang intr).Inv := by
  unfold Wait.waitpid
  cases hf : (s.kids p).find? fun c => s.asks p r c && s.reportable r c with
  | none =>
    dsimp only
    split_ifs
    · refine h.sleep hp (s.addr p) PWAIT intr (some r) fun r' hr => ⟨rfl, by decide, ?_⟩
      cases hr
      intro c hc hask
      have := List.find?_eq_none.mp hf c hc
      rwa [hask, Bool.true_and, Bool.not_eq_true] at this
    · exact h
  | some c =>
    dsimp only
    have hc : c ∈ s.kids p := mem_of_find?_eq_some hf
    split_ifs with hz
    · exact h.freeproc hc hz
    · have hfam := setFam_fam s c fun x => { x with SWTED := true }
      refine ⟨h.queues, fun w x hx => ?_, h.nodup, fun w x hx => ?_, h.awake, h.asleep,
        fun w r' hw x hx hask => ?_, h.self⟩
      · rw [hfam]
        split_ifs <;> exact h.parent w x hx
      · rw [hfam]
        split_ifs <;> exact h.used w x hx
      · have hgroup : ((s.setFam c fun x => { x with SWTED := true }).fam w).p_pgrp =
            (s.fam w).p_pgrp := by
          rw [hfam]
          split_ifs <;> rfl
        by_cases hxc : x = c
        · unfold reportable
          rw [hfam, if_pos hxc]
          have hnz : ¬ (s.setFam c fun x => { x with SWTED := true }).stat x = .SZOMB := hxc ▸ hz
          rw [decide_eq_false hnz, Bool.false_or, Bool.not_true, Bool.and_false]
        · exact h.none_left.of_same hw hx rfl (by rw [hfam, if_neg hxc]) hgroup hask

/-- A waiter is not the process that runs. -/
theorem Inv.ne_current (hp : s.slp.current = some p) (hw : s.Waiting w r) : w ≠ p := by
  rintro rfl
  have := h.running hp
  rw [hw.2] at this
  cases this

theorem Inv.newproc (hp : s.slp.current = some p) (hnull : s.stat cp = .NULL)
    (hidl : (s.fam cp).SIDL = false) (mpid : ℕ) : (s.newproc p cp mpid).Inv := by
  have hnot : ∀ w, cp ∉ s.kids w := by
    intro w hc
    rcases h.used w cp hc with h1 | h1
    · exact h1 hnull
    · rw [hidl] at h1
      cases h1
  have hfam : ∀ x, x ≠ cp → (s.newproc p cp mpid).fam x = s.fam x := fun x hx =>
    update_of_ne hx ..
  have hself : ((s.newproc p cp mpid).fam cp).p_parent = p ∧
      ((s.newproc p cp mpid).fam cp).SIDL = true := by
    unfold Wait.newproc
    dsimp only
    rw [setFam_fam, if_pos rfl]
    exact ⟨rfl, rfl⟩
  have hkids : ∀ w, (s.newproc p cp mpid).kids w =
      if w = p then cp :: s.kids p else s.kids w := fun w => update_apply ..
  refine ⟨h.queues, fun w c hc => ?_, fun w => ?_, fun w c hc => ?_, h.awake, h.asleep,
    fun w r hw c hc hask => ?_, fun x hx => ?_⟩
  · rw [hkids] at hc
    by_cases hcc : c = cp
    · split_ifs at hc with hwp
      · rw [hcc, hself.1, hwp]
      · exact absurd (hcc ▸ hc) (hnot w)
    · rw [hfam c hcc]
      split_ifs at hc with hwp
      · rw [hwp]
        exact h.parent p c ((mem_cons.mp hc).resolve_left hcc)
      · exact h.parent w c hc
  · rw [hkids]
    split_ifs
    · exact nodup_cons.mpr ⟨hnot p, h.nodup p⟩
    · exact h.nodup w
  · by_cases hcc : c = cp
    · rw [hcc, hself.2]
      exact Or.inr rfl
    · rw [hkids] at hc
      rw [hfam c hcc]
      split_ifs at hc with hwp
      · exact h.used p c ((mem_cons.mp hc).resolve_left hcc)
      · exact h.used w c hc
  · have hw : s.Waiting w r := hw
    rw [hkids, if_neg (h.ne_current hp hw)] at hc
    have hcc : c ≠ cp := fun hcc => hnot w (hcc ▸ hc)
    have hwc : w ≠ cp := by
      rintro rfl
      have hs : s.stat w = .SSLEEP := hw.2
      rw [hnull] at hs
      cases hs
    exact h.none_left.of_same hw hc rfl (hfam c hcc) (by rw [hfam w hwc]) hask
  · rw [hkids] at hx
    split_ifs at hx with hxp
    · subst hxp
      rcases mem_cons.mp hx with rfl | hx
      · have := h.running hp
        rw [hnull] at this
        cases this
      · exact h.self x hx
    · exact h.self x hx

theorem Inv.procdup (hnull : s.stat cp = .NULL) (hlt : cp < s.slp.v_proc) :
    (s.procdup cp).Inv := by
  obtain ⟨chains, run, hq⟩ := h.queues
  obtain ⟨u, hu⟩ : ∃ u, u = (s.slp.setProc cp fun x => { x with p_stat := .SRUN }).setrq cp :=
    ⟨_, rfl⟩
  have hne : (s.slp.proc cp).p_stat ≠ .SRUN := by
    rw [show (s.slp.proc cp).p_stat = .NULL from hnull]
    decide
  have hk : s.slp.Keeps u := by
    rw [hu]
    exact keeps_setrq (fun _ => rfl) (fun _ _ => ⟨rfl, rfl⟩) rfl
  have hqu : ∃ chains run, u.Queues chains run := by
    rw [hu]
    refine ⟨chains, _, hq.setRun (hq.wchan_eq_zero ?_) hlt hne⟩
    rw [show (s.slp.proc cp).p_stat = .NULL from hnull]
    decide
  have hrun : ({ s with slp := u } : Wait).stat cp = .SRUN := by
    refine Eq.trans ?_ ((setrq_proc s.slp cp cp).1.trans (if_pos rfl))
    rw [← hu]
    rfl
  have := (h.keeps hqu hk).setFam hrun (f := fun x => { x with SIDL := false }) fun _ => rfl
  unfold Wait.procdup
  rw [← hu]
  exact this

omit h in
theorem mem_dropWhile_tail {l : List ℕ} (hnd : l.Nodup) (hc : c ∈ (l.dropWhile (· ≠ cp)).tail) :
    c ∈ l ∧ c ≠ cp := by
  have hsub : (l.dropWhile (· ≠ cp)) <:+ l := dropWhile_suffix _
  refine ⟨hsub.subset (mem_of_mem_tail hc), ?_⟩
  rintro rfl
  have hnd' := hsub.sublist.nodup hnd
  cases hl : l.dropWhile (· ≠ c) with
  | nil =>
    rw [hl] at hc
    cases hc
  | cons a l' =>
    have ha : a = c := by
      have := head_dropWhile_not (· ≠ c) (l := l) (by rw [hl]; exact cons_ne_nil a l')
      simp only [hl, head_cons] at this
      simpa using this
    rw [hl] at hc hnd'
    rw [ha] at hnd'
    exact (nodup_cons.mp hnd').1 hc

theorem Inv.newprocFail (hmem : cp ∈ s.kids p)
    (hnull : s.stat cp = .NULL) : (s.newprocFail p cp).Inv := by
  have hfam : ∀ x, x ≠ cp → (s.newprocFail p cp).fam x = s.fam x := fun x hx =>
    update_of_ne hx ..
  have hkids : ∀ w, (s.newprocFail p cp).kids w =
      if w = p then ((s.kids p).dropWhile (· ≠ cp)).tail else s.kids w := fun w =>
    update_apply ..
  have hin : ∀ w, ∀ c ∈ (s.newprocFail p cp).kids w, c ∈ s.kids w ∧ c ≠ cp := by
    intro w c hc
    rw [hkids] at hc
    split_ifs at hc with hwp
    · rw [hwp]
      exact mem_dropWhile_tail (h.nodup p) hc
    · refine ⟨hc, fun hcc => hwp ?_⟩
      rw [hcc] at hc
      rw [← h.parent w cp hc, h.parent p cp hmem]
  refine ⟨h.queues, fun w c hc => ?_, fun w => ?_, fun w c hc => ?_, h.awake, h.asleep,
    fun w r hw c hc hask => ?_, fun x hx => h.self x (hin x x hx).1⟩
  · obtain ⟨hc, hcc⟩ := hin w c hc
    rw [hfam c hcc]
    exact h.parent w c hc
  · rw [hkids]
    split_ifs
    · exact ((tail_sublist _).trans (dropWhile_suffix _).sublist).nodup (h.nodup p)
    · exact h.nodup w
  · obtain ⟨hc, hcc⟩ := hin w c hc
    rw [hfam c hcc]
    exact h.used w c hc
  · obtain ⟨hc, hcc⟩ := hin w c hc
    have hw : s.Waiting w r := hw
    have hwc : w ≠ cp := by
      rintro rfl
      have hs : s.stat w = .SSLEEP := hw.2
      rw [hnull] at hs
      cases hs
    exact h.none_left.of_same hw hc rfl (hfam c hcc) (by rw [hfam w hwc]) hask

/-! ## `stop` -/

/-- **A child that stops wakes its parent.** -/
theorem Inv.stops (hp : s.slp.current = some p) :
    ({ s.setFam p fun x => { x with SWTED := false } with
      slp := s.slp.stop p p (s.addr (s.fam p).p_parent) false } : Wait).Inv := by
  obtain ⟨chains, run, hq⟩ := h.queues
  have hrun := h.running hp
  obtain ⟨chan, hchan⟩ : ∃ chan : ℕ, chan = s.addr (s.fam p).p_parent := ⟨_, rfl⟩
  have hc0 : chan ≠ 0 := by
    rw [hchan]
    exact (s.addr (s.fam p).p_parent).pos.ne'
  obtain ⟨v, hv⟩ : ∃ v : Slp, v = { s.slp.setProc p fun x => { x with p_stat := .SSTOP } with
    current := none } := ⟨_, rfl⟩
  have hvq : v.Queues chains run := by
    rw [hv]
    exact hq.giveUp hp (fun _ => ⟨rfl, rfl⟩) fun _ hc => nomatch hc
  have hvproc : ∀ x, v.proc x =
      if x = p then { s.slp.proc x with p_stat := .SSTOP } else s.slp.proc x := fun x => by
    rw [hv]
    exact proc_setProc s.slp p (fun x => { x with p_stat := .SSTOP }) x
  obtain ⟨c', r', huq, hwakes⟩ := hvq.wakeup chan
  have hk := wakeup_keeps v chan
  obtain ⟨u, hu⟩ : ∃ u, u = v.wakeup chan := ⟨_, rfl⟩
  have hstop : s.slp.stop p p (s.addr (s.fam p).p_parent) false = u := by
    rw [hu, hv, hchan]
    unfold Slp.stop
    rw [if_neg Bool.false_ne_true, if_pos rfl]
    rfl
  rw [← hu] at huq hwakes hk
  rw [hstop]
  obtain ⟨t, ht⟩ : ∃ t : Wait, t = { s.setFam p fun x => { x with SWTED := false } with slp := u } :=
    ⟨_, rfl⟩
  have hfam : ∀ x, t.fam x = if x = p then { s.fam x with SWTED := false } else s.fam x :=
    fun x => by
      rw [ht]
      exact setFam_fam s p (fun x => { x with SWTED := false }) x
  obtain ⟨hslp, hkids, hreq, haddr⟩ : t.slp = u ∧ t.kids = s.kids ∧ t.request = s.request ∧
      t.addr = s.addr := by
    rw [ht]
    exact ⟨rfl, rfl, rfl, rfl⟩
  rw [← ht]
  have hvstat : ∀ x, x ≠ p → v.proc x = s.slp.proc x := fun x hx => by rw [hvproc, if_neg hx]
  have hback : ∀ w r, t.Waiting w r → s.Waiting w r ∧ w ≠ p ∧
      (u.proc w).p_wchan = (s.slp.proc w).p_wchan := by
    rintro w r ⟨hr, hs⟩
    unfold stat at hs
    rw [hslp] at hs
    rw [hreq] at hr
    obtain ⟨h1, h2⟩ := hk.sleeping hs
    have hwp : w ≠ p := by
      rintro rfl
      rw [hvproc, if_pos rfl] at h1
      cases h1
    rw [hvstat w hwp] at h1 h2
    exact ⟨⟨hr, h1⟩, hwp, h2⟩
  refine ⟨⟨c', r', hslp ▸ huq⟩, fun w c hc => ?_, fun w => ?_, fun w c hc => ?_, fun x hx => ?_,
    fun w r hw => ?_, fun w r hw c hc hask => ?_, fun x hx => h.self x (hkids ▸ hx)⟩
  · rw [hkids] at hc
    rw [hfam]
    split_ifs <;> exact h.parent w c hc
  · rw [hkids]
    exact h.nodup w
  · rw [hkids] at hc
    have hidl : (t.fam c).SIDL = (s.fam c).SIDL := by
      rw [hfam]
      split_ifs <;> rfl
    unfold stat
    rw [hidl, hslp]
    rcases hk.stat c with hx | ⟨hx, -⟩
    · rw [hx]
      exact Or.inl fun hc => nomatch hc
    · rw [hx]
      by_cases hcp : c = p
      · rw [hvproc, if_pos hcp]
        exact Or.inl fun hc => nomatch hc
      · rw [hvstat c hcp]
        exact h.used w c hc
  · rw [hslp, hk.current, hv] at hx
    cases hx
  · obtain ⟨hw, hwp, hwc⟩ := hback w r hw
    obtain ⟨h1, h2⟩ := h.asleep w r hw
    rw [hslp, haddr]
    refine ⟨hwc.trans h1, hk.snwake w ?_⟩
    rw [hvstat w hwp]
    exact h2
  · rw [hkids] at hc
    obtain ⟨hw', hwp, -⟩ := hback w r hw
    by_cases hcp : c = p
    · -- the parent has been woken
      exfalso
      have hpar : (s.fam p).p_parent = w := hcp ▸ h.parent w c hc
      have hwc : (v.proc w).p_wchan = chan := by
        rw [hvstat w hwp, (h.asleep w r hw').1, hchan, hpar]
      have hsl : (v.proc w).p_stat = .SSLEEP := by
        rw [hvstat w hwp]
        exact hw'.2
      have h1 := (hwakes w hwc).2 hc0 hsl
      have h2 := hw.2
      unfold stat at h2
      rw [hslp, h1] at h2
      cases h2
    · by_contra hrep
      have h2 := reportable_stat (Bool.not_eq_false _ ▸ hrep)
      have hst : t.stat c = s.stat c := by
        unfold stat at h2 ⊢
        rw [hslp] at h2 ⊢
        rw [hk.stat_eq (by rcases h2 with h2 | h2 <;> rw [h2] <;> decide), hvstat c hcp]
      exact hrep (h.none_left.of_same hw' hc hst (by rw [hfam, if_neg hcp])
        (by rw [hfam, if_neg hwp]) hask)

/-! ## `exit` -/

omit h in
/-- The stopped children that are traced run; all else stays. -/
theorem contTraced_spec {chains : ℕ → List ℕ} {run : List ℕ} (ks : List ℕ)
    (hq : u.Queues chains run) :
    (∃ chains run, (s.contTraced ks u).Queues chains run) ∧ u.Keeps (s.contTraced ks u) ∧
      ∀ q ∈ ks, (u.proc q).p_stat = .SSTOP → (s.fam q).STRC = true →
        ((s.contTraced ks u).proc q).p_stat = .SRUN := by
  induction ks generalizing u chains run with
  | nil => exact ⟨⟨chains, run, hq⟩, Keeps.refl u, fun _ hq => nomatch hq⟩
  | cons a ks ih =>
    obtain ⟨v, hv⟩ : ∃ v, v = if (u.proc a).p_stat = .SSTOP ∧ (s.fam a).STRC = true then u.setrun a
      else u := ⟨_, rfl⟩
    have hcons : s.contTraced (a :: ks) u = s.contTraced ks v := by
      rw [hv]
      rfl
    obtain ⟨⟨c, r, hvq⟩, hk, ha⟩ : (∃ chains run, v.Queues chains run) ∧ u.Keeps v ∧
        ((u.proc a).p_stat = .SSTOP → (s.fam a).STRC = true → (v.proc a).p_stat = .SRUN) := by
      rw [hv]
      split_ifs with hc
      · obtain ⟨c, r, hcr, -⟩ := hq.setrunN 2
          (hq.bound a (by rw [hc.1]; exact fun hx => nomatch hx))
        exact ⟨⟨c, r, hcr⟩, (setrun_keeps u a).1, fun _ _ => (setrun_keeps u a).2⟩
      · exact ⟨⟨chains, run, hq⟩, Keeps.refl u, fun h1 h2 => absurd ⟨h1, h2⟩ hc⟩
    obtain ⟨hq', hk', hall⟩ := ih hvq
    rw [hcons]
    refine ⟨hq', hk.trans hk', fun q hqk h1 h2 => ?_⟩
    have hafter : (v.proc q).p_stat = .SRUN → ((s.contTraced ks v).proc q).p_stat = .SRUN :=
      fun hr => (hk'.stat q).elim id fun hx => hx.1.trans hr
    rcases mem_cons.mp hqk with rfl | hqk
    · exact hafter (ha h1 h2)
    · rcases hk.stat q with hx | ⟨hx, -⟩
      · exact hafter hx
      · exact hall q hqk (hx.trans h1) h2

theorem Inv.handOver_spec (p : ℕ) :
    (∃ chains run, (s.handOver p).slp.Queues chains run) ∧ s.slp.Keeps (s.handOver p).slp ∧
      (∀ q ∈ s.kids p, s.stat q = .SSTOP → (s.fam q).STRC = true →
        (s.handOver p).stat q = .SRUN) ∧
      (∀ x, (s.handOver p).fam x =
        if x ∈ s.kids p then { s.fam x with p_ppid := 1, p_parent := 1 } else s.fam x) ∧
      (∀ w, (s.handOver p).kids w =
        if w = p then [] else if w = 1 then s.kids p ++ s.kids 1 else s.kids w) ∧
      (s.handOver p).request = s.request ∧ (s.handOver p).addr = s.addr := by
  obtain ⟨chains, run, hq⟩ := h.queues
  unfold handOver
  dsimp only
  split_ifs with hk
  · refine ⟨⟨chains, run, hq⟩, Keeps.refl _, fun q hqk => ?_, fun x => ?_, fun w => ?_, rfl, rfl⟩
    · rw [hk] at hqk
      cases hqk
    · rw [hk, if_neg not_mem_nil]
    · split_ifs with hw hw1
      · rw [hw, hk]
      · rw [hw1, hk, nil_append]
      · rfl
  · obtain ⟨hq', hkeep, hall⟩ := contTraced_spec (s := s) (s.kids p) hq
    refine ⟨hq', hkeep, hall, fun x => rfl, fun w => ?_, rfl, rfl⟩
    dsimp only
    rw [update_apply, update_apply]

/-- The group of a process after `p` has exited. -/
def groupAfter (s : Wait) (p x : ℕ) : ℕ :=
  if (s.fam p).p_pid = (s.fam p).p_pgrp ∧ x ≠ 0 ∧ (s.fam x).p_pgrp = (s.fam p).p_pid then 0
  else (s.fam x).p_pgrp

omit h in
theorem dropGroup_spec (s : Wait) (p : ℕ) :
    (∀ x, (s.dropGroup p).fam x = { s.fam x with p_pgrp := s.groupAfter p x }) ∧
      (s.dropGroup p).slp = s.slp ∧ (s.dropGroup p).kids = s.kids ∧
      (s.dropGroup p).request = s.request ∧ (s.dropGroup p).addr = s.addr := by
  unfold dropGroup groupAfter
  by_cases hp : (s.fam p).p_pid = (s.fam p).p_pgrp
  · rw [if_pos hp]
    refine ⟨fun x => ?_, rfl, rfl, rfl, rfl⟩
    dsimp only
    by_cases hx : x ≠ 0 ∧ (s.fam x).p_pgrp = (s.fam p).p_pid
    · rw [if_pos hx, if_pos ⟨hp, hx⟩]
    · rw [if_neg hx, if_neg fun hc => hx hc.2]
  · rw [if_neg hp]
    refine ⟨fun x => ?_, rfl, rfl, rfl, rfl⟩
    rw [if_neg fun hc => hp hc.1]

/-- **What `exit` leaves behind**: `d` are the lists of processes when `p` has become a zombie and
before its parent is told. -/
theorem Inv.exit_spec (hp : s.slp.current = some p) :
    ∃ v d : Slp, s.slp.Keeps v ∧
      (∀ q ∈ s.kids p, s.stat q = .SSTOP → (s.fam q).STRC = true →
        (v.proc q).p_stat = .SRUN) ∧
      ((∃ z ∈ s.kids p, s.stat z = .SZOMB) → s.stat 1 = .SSLEEP →
        (s.slp.proc 1).SNWAKE = false → (s.fam 1).p_hold SIGCLD = false →
        (v.proc 1).p_stat = .SRUN) ∧
      d = { v.setProc p fun x => { x with p_stat := .SZOMB } with current := none } ∧
      (∃ chains run, d.Queues chains run) ∧
      (s.exit p).slp = d.psignal ((s.exit p).fam p).p_parent false
        ((s.fam ((s.exit p).fam p).p_parent).p_hold SIGCLD) ∧
      (∀ x, ((s.exit p).fam x).p_pid = (s.fam x).p_pid ∧
        ((s.exit p).fam x).STRC = (s.fam x).STRC ∧ ((s.exit p).fam x).SWTED = (s.fam x).SWTED ∧
        ((s.exit p).fam x).SIDL = (s.fam x).SIDL ∧
        ((s.exit p).fam x).p_parent = (if x ∈ s.kids p then 1 else (s.fam x).p_parent) ∧
        (x ≠ p → ((s.exit p).fam x).p_sgid = (s.fam x).p_sgid ∧
          ((s.exit p).fam x).p_pgrp = s.groupAfter p x)) ∧
      (∀ w, (s.exit p).kids w =
        if w = p then [] else if w = 1 then s.kids p ++ s.kids 1 else s.kids w) ∧
      (s.exit p).request = s.request ∧ (s.exit p).addr = s.addr := by
  obtain ⟨⟨c1, r1, hq1⟩, hk1, htraced, hfam1, hkids1, hreq1, haddr1⟩ := h.handOver_spec p
  obtain ⟨t1, ht1⟩ : ∃ t1, t1 = s.handOver p := ⟨_, rfl⟩
  obtain ⟨flag, hflag⟩ : ∃ flag, flag = (s.kids p).any fun q => decide (s.stat q = .SZOMB) :=
    ⟨_, rfl⟩
  rw [← ht1] at hq1 hk1 htraced hfam1 hkids1 hreq1 haddr1
  have hother : ∀ x, (t1.fam x).p_pid = (s.fam x).p_pid ∧ (t1.fam x).STRC = (s.fam x).STRC ∧
      (t1.fam x).SWTED = (s.fam x).SWTED ∧ (t1.fam x).SIDL = (s.fam x).SIDL ∧
      (t1.fam x).p_hold = (s.fam x).p_hold ∧ (t1.fam x).p_sgid = (s.fam x).p_sgid ∧
      (t1.fam x).p_pgrp = (s.fam x).p_pgrp := fun x => by
    rw [hfam1]
    split_ifs <;> exact ⟨rfl, rfl, rfl, rfl, rfl, rfl, rfl⟩
  -- process 1 is told of the zombies
  obtain ⟨t2, ht2⟩ : ∃ t2, t2 = if flag = true then t1.psignal 1 SIGCLD else t1 := ⟨_, rfl⟩
  obtain ⟨hfam2, hkids2, hreq2, haddr2⟩ : t2.fam = t1.fam ∧ t2.kids = t1.kids ∧
      t2.request = t1.request ∧ t2.addr = t1.addr := by
    rw [ht2]
    split_ifs <;> exact ⟨rfl, rfl, rfl, rfl⟩
  obtain ⟨⟨c2, r2, hq2⟩, hk2, htold⟩ : (∃ chains run, t2.slp.Queues chains run) ∧
      t1.slp.Keeps t2.slp ∧ (flag = true → t1.stat 1 = .SSLEEP → (t1.slp.proc 1).SNWAKE = false →
        (t1.fam 1).p_hold SIGCLD = false → (t2.slp.proc 1).p_stat = .SRUN) := by
    rw [ht2]
    split_ifs with hf
    · refine ⟨hq1.psignal' 1 _ _, psignal_keeps .., fun _ h1 h2 h3 => ?_⟩
      unfold Wait.psignal
      dsimp only
      rw [h3]
      exact psignal_wakes h1 h2 _
    · exact ⟨⟨c1, r1, hq1⟩, Keeps.refl _, fun h1 => absurd h1 hf⟩
  obtain ⟨hfam3, hslp3, hkids3, hreq3, haddr3⟩ := t2.dropGroup_spec p
  obtain ⟨t3, ht3⟩ : ∃ t3, t3 = t2.dropGroup p := ⟨_, rfl⟩
  rw [← ht3] at hfam3 hslp3 hkids3 hreq3 haddr3
  have hgroup : ∀ x, t2.groupAfter p x = s.groupAfter p x := fun x => by
    unfold groupAfter
    rw [hfam2, (hother p).1, (hother p).2.2.2.2.2.2, (hother x).2.2.2.2.2.2]
  have hcur : t2.slp.current = some p := by
    rw [hk2.current, hk1.current, hp]
  obtain ⟨t4, ht4⟩ : ∃ t4, t4 = t3.setFam p fun x => { x with p_sgid := x.p_pgrp, p_pgrp := 0 } :=
    ⟨_, rfl⟩
  have hfam4 : ∀ x, t4.fam x =
      if x = p then { t3.fam x with p_sgid := (t3.fam x).p_pgrp, p_pgrp := 0 } else t3.fam x :=
    fun x => by
      rw [ht4]
      exact setFam_fam t3 p (fun x => { x with p_sgid := x.p_pgrp, p_pgrp := 0 }) x
  obtain ⟨hslp4, hkids4, hreq4, haddr4⟩ : t4.slp = t3.slp ∧ t4.kids = t3.kids ∧
      t4.request = t3.request ∧ t4.addr = t3.addr := by
    rw [ht4]
    exact ⟨rfl, rfl, rfl, rfl⟩
  obtain ⟨d, hd⟩ : ∃ d : Slp, d = { t2.slp.setProc p fun x => { x with p_stat := .SZOMB } with
    current := none } := ⟨_, rfl⟩
  have hexit : s.exit p = ({ t4 with slp := d } : Wait).psignal (t4.fam p).p_parent SIGCLD := by
    rw [hd, ← hslp3, ← hslp4, ht4, ht3, ht2, ht1, hflag]
    rfl
  have hall : ∀ x, (t4.fam x).p_pid = (s.fam x).p_pid ∧ (t4.fam x).STRC = (s.fam x).STRC ∧
      (t4.fam x).SWTED = (s.fam x).SWTED ∧ (t4.fam x).SIDL = (s.fam x).SIDL ∧
      (t4.fam x).p_hold = (s.fam x).p_hold ∧ (t4.fam x).p_parent = (t1.fam x).p_parent := fun x => by
    obtain ⟨g1, g2, g3, g4, g5, -⟩ := hother x
    rw [hfam4, hfam3, hfam2, ← g1, ← g2, ← g3, ← g4, ← g5]
    split_ifs <;> exact ⟨rfl, rfl, rfl, rfl, rfl, rfl⟩
  refine ⟨t2.slp, d, hk1.trans hk2, fun q hq h1 h2 => ?_, fun hz h1 h2 h3 => ?_, hd, ?_, ?_,
    fun x => ?_, fun w => ?_, ?_, ?_⟩
  · have h3 := htraced q hq h1 h2
    exact (hk2.stat q).elim id fun hx => hx.1.trans h3
  · obtain ⟨z, hz, hzs⟩ := hz
    have hf : flag = true := by
      rw [hflag]
      exact any_eq_true.mpr ⟨z, hz, decide_eq_true hzs⟩
    rcases hk1.stat 1 with hx | ⟨hx, -⟩
    · exact (hk2.stat 1).elim id fun hy => hy.1.trans hx
    · exact htold hf (hx.trans h1) (hk1.snwake 1 h2) (by rw [(hother 1).2.2.2.2.1]; exact h3)
  · rw [hd]
    exact ⟨c2, r2, hq2.giveUp hcur (fun _ => ⟨rfl, rfl⟩) fun _ hc => nomatch hc⟩
  · rw [hexit]
    unfold Wait.psignal
    dsimp only
    rw [(hall _).2.2.2.2.1]
    rfl
  · obtain ⟨g1, g2, g3, g4, -, g6⟩ := hall x
    rw [hexit]
    unfold Wait.psignal
    dsimp only
    refine ⟨g1, g2, g3, g4, ?_, fun hx => ?_⟩
    · rw [g6, hfam1]
      split_ifs <;> rfl
    · rw [hfam4, if_neg hx, hfam3, hfam2]
      exact ⟨(hother x).2.2.2.2.2.1, hgroup x⟩
  · rw [hexit, ← hkids1, ← hkids2, ← hkids3, ← hkids4]
    rfl
  · rw [hexit, ← hreq1, ← hreq2, ← hreq3, ← hreq4]
    rfl
  · rw [hexit, ← haddr1, ← haddr2, ← haddr3, ← haddr4]
    rfl

/-- Who asks for the process `c`, or for processes by their group. -/
def Wants (s : Wait) (r : Request) (c : ℕ) : Prop := r.pid ≤ 0 ∨ r.pid = (s.fam c).p_pid

/-- The parent of `p` does not hold `SIGCLD` if it is asleep in `waitpid` and asks for `p`. -/
def ParentTold (s : Wait) (p : ℕ) : Prop :=
  ∀ r ∈ s.request (s.fam p).p_parent, s.stat (s.fam p).p_parent = .SSLEEP →
    p ∈ s.kids (s.fam p).p_parent → s.Wants r p →
      (s.fam (s.fam p).p_parent).p_hold SIGCLD = false

/-- Nor does process 1 if it is given a child to report, and then one of those it is given is a
zombie. -/
def InitTold (s : Wait) (p : ℕ) : Prop :=
  ∀ r ∈ s.request 1, s.stat 1 = .SSLEEP → ∀ c ∈ s.kids p, s.Wants r c →
    (s.stat c = .SZOMB ∨ s.stat c = .SSTOP ∧ (s.fam c).STRC = false ∧ (s.fam c).SWTED = false ∧
      r.wuntraced = true) →
      (s.fam 1).p_hold SIGCLD = false ∧ ∃ z ∈ s.kids p, s.stat z = .SZOMB

/-- If `p` leads its process group, nobody who is in that one or in none waits for the processes of
his own group. -/
def GroupTold (s : Wait) (p : ℕ) : Prop :=
  (s.fam p).p_pid = (s.fam p).p_pgrp → ∀ w < s.slp.v_proc, ∀ r ∈ s.request w,
    s.stat w = .SSLEEP → r.pid = 0 →
      (s.fam w).p_pgrp ≠ (s.fam p).p_pid ∧ (s.fam w).p_pgrp ≠ 0

/-- The exit of `p` wakes whom it has to. -/
def Told (s : Wait) (p : ℕ) : Prop := s.ParentTold p ∧ s.InitTold p ∧ s.GroupTold p

omit h in
theorem asked_wants {pid : ℤ} {a g m : ℕ} (h : asked pid a g m = true) : pid ≤ 0 ∨ pid = a := by
  unfold asked at h
  split_ifs at h with h1 h2
  · exact Or.inl (by omega)
  · exact Or.inr (of_decide_eq_true h).symm
  all_goals exact Or.inl (by omega)

omit h in
/-- A group that was given up is asked for by nobody who did not ask before. -/
theorem asked_of_after {pid : ℤ} {a g g' m m' : ℕ} (hg : g' = g ∨ g' = 0)
    (hm : pid = 0 → m' = m ∧ (g' = g ∨ m ≠ 0)) (h : asked pid a g' m' = true) :
    asked pid a g m = true := by
  unfold asked at h ⊢
  by_cases h1 : pid = -1
  · rw [if_pos h1]
  · rw [if_neg h1] at h ⊢
    by_cases h2 : 0 < pid
    · rw [if_pos h2] at h ⊢
      exact h
    · rw [if_neg h2] at h ⊢
      by_cases h3 : pid = 0
      · rw [if_pos h3] at h ⊢
        obtain ⟨rfl, h4⟩ := hm h3
        have h := of_decide_eq_true h
        refine decide_eq_true ?_
        rcases h4 with h4 | h4
        · exact h4.symm.trans h
        · exact (hg.resolve_right fun h5 => h4 (h.symm.trans h5)).symm.trans h
      · rw [if_neg h3] at h ⊢
        have h := of_decide_eq_true h
        refine decide_eq_true ?_
        rcases hg with hg | hg
        · rw [← hg]
          exact h
        · rw [hg] at h
          omega

theorem Inv.exits (hp : s.slp.current = some p) (htold : s.Told p) :
    (s.exit p).Inv := by
  obtain ⟨v, d, hk1, htraced, hone, hd, ⟨c0, r0, hdq⟩, hslp, hfam, hkids, hreq, haddr⟩ :=
    h.exit_spec hp
  obtain ⟨chains, run, hq⟩ := h.queues
  obtain ⟨t, ht⟩ : ∃ t, t = s.exit p := ⟨_, rfl⟩
  rw [← ht] at hslp hfam hkids hreq haddr ⊢
  have hk2 : d.Keeps t.slp := by
    rw [hslp]
    exact psignal_keeps ..
  have hdproc : ∀ x, d.proc x =
      if x = p then { v.proc x with p_stat := .SZOMB } else v.proc x := fun x => by
    rw [hd]
    exact proc_setProc v p (fun x => { x with p_stat := .SZOMB }) x
  have hdne : ∀ x, x ≠ p → d.proc x = v.proc x := fun x hx => by rw [hdproc, if_neg hx]
  have hback : ∀ w r, t.Waiting w r → s.Waiting w r ∧ w ≠ p ∧ (d.proc w).p_stat = .SSLEEP ∧
      (d.proc w).SNWAKE = false ∧ (t.slp.proc w).p_wchan = (s.slp.proc w).p_wchan := by
    rintro w r ⟨hr, hs⟩
    rw [hreq] at hr
    obtain ⟨h1, h2⟩ := hk2.sleeping hs
    have hwp : w ≠ p := by
      rintro rfl
      rw [hdproc, if_pos rfl] at h1
      cases h1
    have h1' := h1
    rw [hdne w hwp] at h1' h2
    obtain ⟨h3, h4⟩ := hk1.sleeping h1'
    refine ⟨⟨hr, h3⟩, hwp, h1, ?_, h2.trans h4⟩
    rw [hdne w hwp]
    exact hk1.snwake w (h.asleep w r ⟨hr, h3⟩).2
  -- what is neither running nor `p` is as it was
  have hstat : ∀ x, x ≠ p → t.stat x ≠ .SRUN →
      t.stat x = s.stat x ∧ (v.proc x).p_stat = s.stat x := by
    intro x hx hr
    have h1 : (t.slp.proc x).p_stat = (d.proc x).p_stat := hk2.stat_eq hr
    rw [hdne x hx] at h1
    have hr : (v.proc x).p_stat ≠ .SRUN := by
      rw [← h1]
      exact hr
    have h2 := hk1.stat_eq hr
    exact ⟨h1.trans h2, h2⟩
  have hmem : ∀ w, w ≠ p → ∀ c ∈ t.kids w, (w = 1 ∧ c ∈ s.kids p) ∨ c ∈ s.kids w := by
    intro w hwp c hc
    rw [hkids, if_neg hwp] at hc
    split_ifs at hc with hw1
    · rw [hw1]
      exact (mem_append.mp hc).imp (fun hx => ⟨rfl, hx⟩) id
    · exact Or.inr hc
  refine ⟨?_, fun w c hc => ?_, fun w => ?_, fun w c hc => ?_, fun x hx => ?_, fun w r hw => ?_,
    fun w r hw c hc hask => ?_, fun x hx => ?_⟩
  · rw [hslp]
    exact hdq.psignal' ..
  · rw [(hfam c).2.2.2.2.1]
    have hwp : w ≠ p := by
      rintro rfl
      rw [hkids, if_pos rfl] at hc
      cases hc
    rcases hmem w hwp c hc with ⟨hw1, hc⟩ | hc
    · rw [if_pos hc, hw1]
    · have hpar := h.parent w c hc
      rw [if_neg fun hcp => hwp (hpar.symm.trans (h.parent p c hcp)), hpar]
  · rw [hkids]
    split_ifs with hwp hw1
    · exact nodup_nil
    · refine nodup_append'.mpr ⟨h.nodup p, h.nodup 1, fun c hcp hc1 => hwp ?_⟩
      rw [hw1, ← h.parent 1 c hc1, h.parent p c hcp]
    · exact h.nodup w
  · have hwp : w ≠ p := by
      rintro rfl
      rw [hkids, if_pos rfl] at hc
      cases hc
    rw [(hfam c).2.2.2.1]
    have hu : s.stat c ≠ .NULL ∨ (s.fam c).SIDL = true := by
      rcases hmem w hwp c hc with ⟨-, hc⟩ | hc
      · exact h.used p c hc
      · exact h.used w c hc
    refine hu.imp (fun hn hc => hn ?_) id
    by_cases hcp : c = p
    · have h1 : (t.slp.proc c).p_stat = (d.proc c).p_stat :=
        hk2.stat_eq (by rw [show (t.slp.proc c).p_stat = .NULL from hc]; decide)
      rw [hdproc, if_pos hcp, show (t.slp.proc c).p_stat = .NULL from hc] at h1
      cases h1
    · rw [← (hstat c hcp (by rw [hc]; decide)).1]
      exact hc
  · rw [hk2.current, hd] at hx
    cases hx
  · obtain ⟨hw', hwp, -, hsn, hwc⟩ := hback w r hw
    rw [haddr]
    exact ⟨hwc.trans (h.asleep w r hw').1, hk2.snwake w hsn⟩
  · obtain ⟨hw', hwp, hds, hdn, -⟩ := hback w r hw
    by_contra hrep
    have hrep : t.reportable r c = true := Bool.not_eq_false _ ▸ hrep
    have h2 := reportable_stat hrep
    have hnr : t.stat c ≠ .SRUN := by rcases h2 with h2 | h2 <;> rw [h2] <;> decide
    have hwants : s.Wants r c := by
      have := asked_wants hask
      rwa [(hfam c).1] at this
    by_cases hcp : c = p
    · -- its parent is told
      subst hcp
      have hself : c ∉ s.kids c := fun hc1 => by
        have h1 := h.self c hc1
        rcases hmem w hwp c hc with ⟨hw1, -⟩ | hcw
        · exact hwp (hw1.trans h1.symm)
        · exact hwp ((h.parent w c hcw).symm.trans (h.parent c c hc1))
      have hcw : c ∈ s.kids w := (hmem w hwp c hc).resolve_left fun hx => hself hx.2
      have hpar := h.parent w c hcw
      have hpar' : (t.fam c).p_parent = w := by rw [(hfam c).2.2.2.2.1, if_neg hself, hpar]
      have hhold := htold.1 r (hpar ▸ hw'.1) (hpar ▸ hw'.2) (hpar ▸ hcw) hwants
      rw [hpar] at hhold
      rw [hpar', hhold] at hslp
      have h3 : (t.slp.proc w).p_stat = .SRUN := by
        rw [hslp]
        exact psignal_wakes hds hdn false
      have h4 := hw.2
      unfold stat at h4
      rw [h3] at h4
      cases h4
    · obtain ⟨hst, hvst⟩ := hstat c hcp hnr
      rw [reportable_congr hst (hfam c).2.1 (hfam c).2.2.1] at hrep
      rcases hmem w hwp c hc with ⟨rfl, hcp'⟩ | hcw
      · -- process 1 is told
        have hcond : s.stat c = .SZOMB ∨ s.stat c = .SSTOP ∧ (s.fam c).STRC = false ∧
            (s.fam c).SWTED = false ∧ r.wuntraced = true := by
          rw [hst] at h2
          refine h2.imp id fun hs => ?_
          have htr : (s.fam c).STRC = false := by
            by_contra htr
            have := htraced c hcp' hs (Bool.not_eq_false _ ▸ htr)
            rw [hvst, hs] at this
            cases this
          unfold reportable at hrep
          rw [hs, htr] at hrep
          simp only [reduceCtorEq, decide_false, decide_true, Bool.false_or, Bool.true_and,
            Bool.and_eq_true, Bool.not_eq_true'] at hrep
          exact ⟨hs, htr, hrep.2, hrep.1⟩
        obtain ⟨hhold, hz⟩ := htold.2.1 r hw'.1 hw'.2 c hcp' hwants hcond
        have h3 := hone hz hw'.2 (h.asleep 1 r hw').2 hhold
        rw [hdne 1 hwp, h3] at hds
        cases hds
      · have hask' : s.asks w r c = true := by
          have hpg : t.pgrp c = s.pgrp c ∨
              (t.pgrp c = s.groupAfter p c ∧ s.pgrp c = (s.fam c).p_pgrp) := by
            unfold pgrp
            rw [hst, ((hfam c).2.2.2.2.2 hcp).1, ((hfam c).2.2.2.2.2 hcp).2]
            split_ifs
            · exact Or.inl rfl
            · exact Or.inr ⟨rfl, rfl⟩
          unfold asks at hask ⊢
          rw [(hfam c).1, ((hfam w).2.2.2.2.2 hwp).2] at hask
          refine asked_of_after ?_ (fun h0 => ?_) hask
          · rcases hpg with hpg | ⟨h3, h4⟩
            · exact Or.inl hpg
            · rw [h3, h4]
              unfold groupAfter
              split_ifs
              · exact Or.inr rfl
              · exact Or.inl rfl
          · by_cases hlead : (s.fam p).p_pid = (s.fam p).p_pgrp
            · have hwv : w < s.slp.v_proc := hq.bound w (by
                rw [show (s.slp.proc w).p_stat = .SSLEEP from hw'.2]
                decide)
              obtain ⟨h3, h4⟩ := htold.2.2 hlead w hwv r hw'.1 hw'.2 h0
              refine ⟨?_, Or.inr h4⟩
              unfold groupAfter
              exact if_neg fun hx => h3 hx.2.2
            · have hsame : ∀ x, s.groupAfter p x = (s.fam x).p_pgrp := fun x =>
                if_neg fun hx => hlead hx.1
              refine ⟨hsame w, Or.inl ?_⟩
              rcases hpg with hpg | ⟨h3, h4⟩
              · exact hpg
              · rw [h3, h4, hsame]
        have := h.none_left w r hw' c hcw hask'
        rw [hrep] at this
        cases this
  · by_cases hxp : x = p
    · rw [hkids, if_pos hxp] at hx
      cases hx
    · rcases hmem x hxp x hx with ⟨hx1, -⟩ | hx
      · exact hx1
      · exact h.self x hx

/-! ## Runs -/

omit h in
/-- `disp` changes no state; who is chosen is not in an undisturbed sleep any more. -/
theorem disp_proc (u : Slp) (hcur : u.current = none) :
    (∀ x, (u.disp.proc x).p_stat = (u.proc x).p_stat ∧
      (u.disp.proc x).p_wchan = (u.proc x).p_wchan ∧
      ((u.proc x).SNWAKE = false → (u.disp.proc x).SNWAKE = false)) ∧
      ∀ x, u.disp.current = some x → (u.disp.proc x).SNWAKE = false := by
  unfold Slp.disp
  cases u.dispScan u.v_proc none u.runq 128 none with
  | none => exact ⟨fun x => ⟨rfl, rfl, id⟩, fun x hx => by rw [hcur] at hx; cases hx⟩
  | some pq =>
    obtain ⟨p, q⟩ := pq
    dsimp only
    have hproc : ∀ x, ((u.takeRun p q).proc x).p_stat = (u.proc x).p_stat ∧
        ((u.takeRun p q).proc x).p_wchan = (u.proc x).p_wchan ∧
        ((u.takeRun p q).proc x).SNWAKE = (u.proc x).SNWAKE := by
      intro x
      cases q with
      | none => exact ⟨rfl, rfl, rfl⟩
      | some q =>
        unfold takeRun
        dsimp only
        rw [proc_setProc]
        split_ifs <;> exact ⟨rfl, rfl, rfl⟩
    refine ⟨fun x => ?_, fun x hx => ?_⟩
    · obtain ⟨h1, h2, h3⟩ := hproc x
      rw [proc_setProc, ← h1, ← h2, ← h3]
      split_ifs
      · exact ⟨rfl, rfl, fun _ => rfl⟩
      · exact ⟨rfl, rfl, id⟩
    · cases hx
      rw [proc_setProc, if_pos rfl]

/-- `p` has been given to process 1, or its parent is not the one it had. -/
def Orphan (s : Wait) (p : ℕ) : Prop :=
  (s.fam p).p_ppid = 1 ∨ (s.fam p).p_ppid ≠ (s.fam (s.fam p).p_parent).p_pid

/-- Whoever exits wakes whom he has to. -/
def Safe (s : Wait) : WaitEvent → Prop
  | .exit => ∀ p ∈ s.slp.current, s.Told p
  | .stop => ∀ p ∈ s.slp.current, s.Orphan p → s.Told p
  | _ => True

theorem Inv.slp_step {e : SlpEvent} (he : e.outside = true)
    (hstep : s.slp.step e = some u) : ({ s with slp := u } : Wait).Inv := by
  obtain ⟨chains, run, hq⟩ := h.queues
  have hqu := queues_step hq hstep
  cases e with
  | wakeup chan =>
    cases hstep
    exact h.keeps hqu (wakeup_keeps s.slp chan)
  | setrun p =>
    rw [Slp.step] at hstep
    split_ifs at hstep
    cases hstep
    exact h.keeps hqu (setrun_keeps s.slp p).1
  | qswtch =>
    obtain ⟨rp, -, rfl⟩ := map_eq_some_iff.mp hstep
    have hproc : ∀ x, ((s.slp.qswtch rp).proc x).p_stat = (s.slp.proc x).p_stat ∧
        ((s.slp.qswtch rp).proc x).p_wchan = (s.slp.proc x).p_wchan ∧
        ((s.slp.qswtch rp).proc x).SNWAKE = (s.slp.proc x).SNWAKE := fun x => by
      unfold Slp.qswtch setrq
      dsimp only
      rw [proc_setProc]
      split_ifs <;> exact ⟨rfl, rfl, rfl⟩
    refine h.keep hqu (fun x hx => (hproc x).2.2.trans hx)
      (fun x => Or.inr ⟨(hproc x).1, fun _ => (hproc x).2.1⟩) fun p hp => by cases hp
  | disp =>
    rw [Slp.step] at hstep
    split_ifs at hstep with hcur
    cases hstep
    obtain ⟨hproc, hawake⟩ := disp_proc s.slp hcur
    exact h.keep hqu (fun x => (hproc x).2.2)
      (fun x => Or.inr ⟨(hproc x).1, fun _ => (hproc x).2.1⟩) hawake
  | sched pri sload procio runout =>
    cases hstep
    exact h.keep hqu (fun x hx => hx) (fun x => Or.inr ⟨rfl, fun _ => rfl⟩) h.awake
  | sleep => cases he
  | psignal => cases he
  | stop => cases he
  | procdup => cases he

theorem Inv.step {e : WaitEvent} (hsafe : s.Safe e) (hstep : s.step e = some t) :
    t.Inv := by
  obtain ⟨chains, run, hq⟩ := h.queues
  cases e with
  | waitpid r wnohang intr =>
    obtain ⟨p, hp, rfl⟩ := map_eq_some_iff.mp hstep
    exact h.waitpid hp r wnohang intr
  | exit =>
    obtain ⟨p, hp, rfl⟩ := map_eq_some_iff.mp hstep
    exact h.exits hp (hsafe p hp)
  | stop =>
    obtain ⟨p, hp, rfl⟩ := map_eq_some_iff.mp hstep
    unfold Wait.stop
    split_ifs with ho
    · exact h.exits hp (hsafe p hp ho)
    · exact h.stops hp
  | psignal p sig =>
    rw [Wait.step] at hstep
    split_ifs at hstep
    cases hstep
    exact h.keeps (hq.psignal' p _ _) (psignal_keeps ..)
  | sigprocmask hold =>
    obtain ⟨p, hp, rfl⟩ := map_eq_some_iff.mp hstep
    exact h.setFam (h.running hp) fun _ => rfl
  | reap z =>
    obtain ⟨p, hp, hz⟩ := bind_eq_some_iff.mp hstep
    split_ifs at hz with hc
    cases hz
    exact h.freeproc hc.1 hc.2
  | newproc cp mpid =>
    obtain ⟨p, hp, hn⟩ := bind_eq_some_iff.mp hstep
    split_ifs at hn with hc
    cases hn
    exact h.newproc hp hc.2.1 hc.2.2 mpid
  | procdup cp =>
    obtain ⟨p, hp, hn⟩ := bind_eq_some_iff.mp hstep
    split_ifs at hn with hc
    cases hn
    exact h.procdup hc.2.2.1 hc.2.1
  | newprocFail cp =>
    obtain ⟨p, hp, hn⟩ := bind_eq_some_iff.mp hstep
    split_ifs at hn with hc
    cases hn
    exact h.newprocFail hc.1 hc.2.1
  | setpgrp =>
    obtain ⟨p, hp, rfl⟩ := map_eq_some_iff.mp hstep
    exact h.setFam (h.running hp) fun _ => rfl
  | traceme =>
    obtain ⟨p, hp, rfl⟩ := map_eq_some_iff.mp hstep
    exact h.setFam (h.running hp) fun _ => rfl
  | sleep chan disp intr =>
    obtain ⟨p, hp, rfl⟩ := map_eq_some_iff.mp hstep
    exact h.sleep hp chan disp intr none fun _ hr => nomatch hr
  | slp e =>
    rw [Wait.step] at hstep
    split_ifs at hstep with he
    obtain ⟨u, hu, rfl⟩ := map_eq_some_iff.mp hstep
    exact h.slp_step he hu

end

/-- Process 0 runs in a table of `n + 1` slots. -/
def boot (addr : ℕ → ℕ+) (n : ℕ) : Wait :=
  { addr := addr
    slp := Slp.boot n
    fam := fun _ => ⟨0, 0, 0, 0, 0, fun _ => false, false, false, false⟩
    kids := fun _ => []
    request := fun _ => none }

theorem inv_boot (addr : ℕ → ℕ+) (n : ℕ) : (boot addr n).Inv :=
  ⟨⟨_, _, queues_boot n⟩, fun _ _ h => (nomatch h), fun _ => nodup_nil,
    fun _ _ h => (nomatch h), fun _ _ => rfl, fun _ _ h => (nomatch h.1),
    fun _ _ h => (nomatch h.1), fun _ h => (nomatch h)⟩

/-- **Waiting parents are never left asleep** in a run in which whoever exits wakes whom he has
to. -/
theorem none_left_run {addr : ℕ → ℕ+} {n : ℕ} {es : List WaitEvent}
    (hsafe : StepsMeet Safe Wait.step (boot addr n) es)
    (h : exec Wait.step (boot addr n) es = some t) : t.NoneLeft :=
  (exec_invariant (P := Inv) (fun _ _ _ hs hC hstep => hs.step hC hstep) (inv_boot addr n) hsafe
    h).none_left

instance decidableWants (s : Wait) (r : Request) (c : ℕ) : Decidable (s.Wants r c) :=
  inferInstanceAs (Decidable (_ ∨ _))

instance decidableParentTold (s : Wait) (p : ℕ) : Decidable (s.ParentTold p) :=
  inferInstanceAs (Decidable (∀ r ∈ s.request (s.fam p).p_parent, _ → _ → _ → _))

instance decidableInitTold (s : Wait) (p : ℕ) : Decidable (s.InitTold p) :=
  inferInstanceAs (Decidable (∀ r ∈ s.request 1, _ → ∀ c ∈ s.kids p, _ → _ → _))

instance decidableGroupTold (s : Wait) (p : ℕ) : Decidable (s.GroupTold p) :=
  inferInstanceAs (Decidable (_ → ∀ w < s.slp.v_proc, ∀ r ∈ s.request w, _ → _ → _))

instance decidableTold (s : Wait) (p : ℕ) : Decidable (s.Told p) :=
  inferInstanceAs (Decidable (_ ∧ _ ∧ _))

instance decidableOrphan (s : Wait) (p : ℕ) : Decidable (s.Orphan p) :=
  inferInstanceAs (Decidable (_ ∨ _))

instance decidableSafe (s : Wait) : (e : WaitEvent) → Decidable (s.Safe e)
  | .exit => inferInstanceAs (Decidable (∀ p ∈ s.slp.current, s.Told p))
  | .stop => inferInstanceAs (Decidable (∀ p ∈ s.slp.current, s.Orphan p → s.Told p))
  | .waitpid _ _ _ => inferInstanceAs (Decidable True)
  | .psignal _ _ => inferInstanceAs (Decidable True)
  | .sigprocmask _ => inferInstanceAs (Decidable True)
  | .reap _ => inferInstanceAs (Decidable True)
  | .newproc _ _ => inferInstanceAs (Decidable True)
  | .procdup _ => inferInstanceAs (Decidable True)
  | .newprocFail _ => inferInstanceAs (Decidable True)
  | .setpgrp => inferInstanceAs (Decidable True)
  | .traceme => inferInstanceAs (Decidable True)
  | .sleep _ _ _ => inferInstanceAs (Decidable True)
  | .slp _ => inferInstanceAs (Decidable True)

/-- Where the entries of the process table lie in the runs below. -/
def slots (p : ℕ) : ℕ+ := ⟨4096 + 256 * p, by omega⟩

/-- A child stops, is reported and killed, and exits; its parent waits each time. -/
def someWaits : List WaitEvent :=
  [.newproc 1 5, .procdup 1, .waitpid ⟨-1, true⟩ false false, .slp .disp, .stop, .slp .disp,
    .waitpid ⟨-1, true⟩ false false, .psignal 1 SIGKILL, .waitpid ⟨5, true⟩ false false,
    .slp .disp, .exit, .slp .disp, .waitpid ⟨5, true⟩ false false]

theorem none_left_run_some : ∃ t, exec Wait.step (boot slots 4) someWaits = some t ∧
    t.NoneLeft := by
  obtain ⟨t, ht⟩ : ∃ t, exec Wait.step (boot slots 4) someWaits = some t :=
    isSome_iff_exists.mp (by decide +kernel)
  refine ⟨t, ht, none_left_run ?_ ht⟩
  exact stepsMeet_of_allSteps (c := fun s e => decide (s.Safe e))
    (fun _ _ => of_decide_eq_true) (by decide +kernel)

/-- A parent that holds `SIGCLD` is not woken when its child exits. -/
theorem parent_left : ¬ ∀ es t, exec Wait.step (boot slots 4) es = some t → t.NoneLeft := by
  intro h
  have hrun : (exec Wait.step (boot slots 4)
      [.newproc 1 5, .procdup 1, .sigprocmask (fun sig => decide (sig = SIGCLD)),
        .waitpid ⟨-1, false⟩ false false, .slp .disp, .exit]).any (fun t =>
      decide (t.request 0 = some ⟨-1, false⟩ ∧ t.stat 0 = .SSLEEP ∧ 1 ∈ t.kids 0 ∧
        t.asks 0 ⟨-1, false⟩ 1 = true ∧ t.reportable ⟨-1, false⟩ 1 = true)) = true := by
    decide +kernel
  obtain ⟨t, ht, hfacts⟩ := (any_eq_true _ _).mp hrun
  obtain ⟨hreq, hstat, hmem, hask, hrep⟩ := of_decide_eq_true hfacts
  have := h _ t ht 0 _ ⟨hreq, hstat⟩ 1 hmem hask
  rw [hrep] at this
  cases this

end Wait

end Os
