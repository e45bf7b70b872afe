import OpusSysV.Lib.Linked
import OpusSysV.Lib.Run
import Mathlib.Data.List.Perm.Subperm
import Mathlib.Data.PNat.Basic

/-!
# Sleeping and running: `sleep`, `wakeup`, `setrun`, `psignal`, `stop`, `qswtch` and `disp`

Processes that wait for something are on one of the chains `hsque`, those that may run on `runq`;
all of these lists go along `p_link`.

* `Slp` — the process table and the heads of the lists.
* `unsleep`, `setrq`, `setrun`, `sleep`, `wakeup`, `psignal`, `stop`, `qswtch`, `disp` — as in the
  source.
* `Slp.step` — any order of these, by the process that runs and by interrupts.
* `Queues` — each process is on the list that its state says.
* `queues_run` — this is so in every reachable state, and `wakeup` wakes all it should.

`current` is the process that runs; it is `none` while `swtch` looks for one.
-/

namespace Os

open Lib Function List Option

namespace Slp

/-- `p_stat`; `NULL` is a free slot. -/
inductive ProcStat
  | NULL
  | SSLEEP
  | SRUN
  | SZOMB
  | SSTOP
  deriving DecidableEq

/-- The fields and flags of `proc_t` that say where a process waits and whether it may run. -/
structure SlpProc where
  p_stat : ProcStat
  p_wchan : ℕ
  p_link : Option ℕ
  p_pri : ℕ
  SNWAKE : Bool
  SLOAD : Bool
  SPROCIO : Bool

end Slp

/-- The lists of processes, which are known by their slots. -/
structure Slp where
  v_proc : ℕ
  proc : ℕ → Slp.SlpProc
  hsque : ℕ → Option ℕ
  runq : Option ℕ
  current : Option ℕ
  runout : ℕ
  panicstr : Bool

namespace Slp

def NHSQUE : ℕ := 64
def PZERO : ℕ := 25
def PMASK : ℕ := 127

/-- The chain of a channel. -/
def sqhash (chan : ℕ) : ℕ := chan / 8 % NHSQUE

/-- Change one slot. -/
def setProc (s : Slp) (p : ℕ) (f : SlpProc → SlpProc) : Slp :=
  { s with proc := update s.proc p (f (s.proc p)) }

/-- `*q`, where `q` is the head of chain `k` or the link of a process. -/
def load (s : Slp) (k : ℕ) : Option ℕ → Option ℕ
  | none => s.hsque k
  | some p => (s.proc p).p_link

/-- `*q = v`. -/
def store (s : Slp) (k : ℕ) (q v : Option ℕ) : Slp :=
  match q with
  | none => { s with hsque := update s.hsque k v }
  | some p => s.setProc p fun x => { x with p_link := v }

/-- The loop of `unsleep`: the place, from `q` on, that names `p`. -/
def findPlace (s : Slp) (k p : ℕ) : ℕ → Option ℕ → Option ℕ
  | 0, q => q
  | n + 1, q => if s.load k q = some p then q else findPlace s k p n (s.load k q)

/-- `unsleep(p)`. -/
def unsleep (s : Slp) (p : ℕ) : Slp :=
  if (s.proc p).p_wchan ≠ 0 then
    let k := sqhash (s.proc p).p_wchan
    let s := s.store k (s.findPlace k p s.v_proc none) (s.proc p).p_link
    s.setProc p fun x => { x with p_wchan := 0 }
  else s

/-- `setrq(p)`. -/
def setrq (s : Slp) (p : ℕ) : Slp :=
  { s.setProc p fun x => { x with p_link := s.runq } with runq := some p }

/-- `setrun(p)`, which calls itself at most once: `setrunN_eq`. -/
def setrunN : ℕ → Slp → ℕ → Slp
  | 0, s, _ => s
  | n + 1, s, p =>
    if (s.proc p).p_stat = .SRUN then s
    else
      let s := if (s.proc p).p_stat = .SSLEEP ∨ (s.proc p).p_stat = .SSTOP then s.unsleep p else s
      let s := s.setProc p fun x => { x with p_stat := .SRUN }
      let s := s.setrq p
      if (s.proc p).SLOAD = false ∧ 0 < s.runout then setrunN n { s with runout := 0 } 0 else s

/-- `setrun(p)`. -/
def setrun (s : Slp) (p : ℕ) : Slp := setrunN 2 s p

/-- The loop of `wakeup`, from the place `q` on, and whether the scheduler is to be run. -/
def wakeupLoop (chan : ℕ) : ℕ → Option ℕ → Slp → Bool → Slp × Bool
  | 0, _, s, runsched => (s, runsched)
  | n + 1, q, s, runsched =>
    match s.load (sqhash chan) q with
    | none => (s, runsched)
    | some p =>
      if (s.proc p).p_stat ≠ .SSLEEP ∧ (s.proc p).p_stat ≠ .SSTOP then
        ({ s with panicstr := true }, runsched)
      else if (s.proc p).p_wchan = chan then
        let s := s.setProc p fun x => { x with p_wchan := 0 }
        let s := s.store (sqhash chan) q (s.proc p).p_link
        if (s.proc p).p_stat = .SSLEEP then
          let s := s.setProc p fun x => { x with p_stat := .SRUN }
          let s := s.setrq p
          wakeupLoop chan n q s (runsched || (!(s.proc p).SLOAD && decide (0 < s.runout)))
        else wakeupLoop chan n q s runsched
      else wakeupLoop chan n (some p) s runsched

/-- `wakeup(chan)`. -/
def wakeup (s : Slp) (chan : ℕ) : Slp :=
  match wakeupLoop chan (s.v_proc + 1) none s false with
  | (s, true) => setrun { s with runout := 0 } 0
  | (s, false) => s

/-- `sleep(chan, disp)` by `rp`, up to where it calls `swtch` or returns; `intr` says whether it is
to stop or has a signal to take. -/
def sleep (s : Slp) (rp chan disp : ℕ) (intr : Bool) : Slp :=
  if s.panicstr then s
  else
    let k := sqhash chan
    let tmpdisp := disp &&& PMASK
    let s := s.setProc rp fun x =>
      { x with
        p_stat := .SSLEEP
        p_wchan := chan
        p_link := s.hsque k
        p_pri := min x.p_pri tmpdisp }
    let s := { s with hsque := update s.hsque k (some rp) }
    if PZERO < tmpdisp then
      if intr then
        let s := s.setProc rp fun x => { x with p_wchan := 0, p_stat := .SRUN }
        { s with hsque := update s.hsque k (s.proc rp).p_link }
      else { s with current := none }
    else { s.setProc rp fun x => { x with SNWAKE := true } with current := none }

/-- `psignal(p, sig)` for one of the signals; `kill` says whether `sig` is `SIGKILL`, `held` whether `p` holds it. -/
def psignal (s : Slp) (p : ℕ) (kill held : Bool) : Slp :=
  if (s.proc p).p_stat = .SSLEEP ∧ (s.proc p).SNWAKE = false then
    if held then s else s.setrun p
  else if (s.proc p).p_stat = .SSTOP then
    if kill then s.setrun p
    else if (s.proc p).p_wchan ≠ 0 ∧ (s.proc p).SNWAKE = false then s.unsleep p
    else s
  else s

/-- `stop(cp)`, where `pp` is the address of its parent; `orphan` says whether the parent is process
1 or another than it was, when `rp`, who runs, exits instead.  Who stops itself calls `swtch`. -/
def stop (s : Slp) (rp cp pp : ℕ) (orphan : Bool) : Slp :=
  if orphan then { s.setProc rp fun x => { x with p_stat := .SZOMB } with current := none }
  else
    let s := if rp = cp then { s with current := none } else s
    let s := s.setProc cp fun x => { x with p_stat := .SSTOP }
    s.wakeup pp

/-- `qswtch()` by `rp`. -/
def qswtch (s : Slp) (rp : ℕ) : Slp := { s.setrq rp with current := none }

/-- The loop of `disp` from `p` on, which stands behind `q`: the best process so far, with the one
before it. -/
def dispScan (s : Slp) : ℕ → Option ℕ → Option ℕ → ℕ → Option (ℕ × Option ℕ) →
    Option (ℕ × Option ℕ)
  | 0, _, _, _, best => best
  | _, _, none, _, best => best
  | m + 1, q, some p, n, best =>
    if n < (s.proc p).p_pri then dispScan s m (some p) (s.proc p).p_link n best
    else if ¬ ((s.proc p).SLOAD = true ∧ SlpProc.SPROCIO (s.proc p) = false) then
      dispScan s m (some p) (s.proc p).p_link n best
    else dispScan s m (some p) (s.proc p).p_link (s.proc p).p_pri (some (p, q))

/-- "Take p off the runq", where it stands behind `q`. -/
def takeRun (s : Slp) (p : ℕ) : Option ℕ → Slp
  | none => { s with runq := (s.proc p).p_link }
  | some q => s.setProc q fun x => { x with p_link := (s.proc p).p_link }

/-- `disp()`, and what a process does first when it runs again inside `sleep`. -/
def disp (s : Slp) : Slp :=
  match s.dispScan s.v_proc none s.runq 128 none with
  | none => s
  | some (p, q) =>
    let s := s.takeRun p q
    { s.setProc p fun x => { x with SNWAKE := false } with current := some p }

end Slp

/-- What the process that runs, or an interrupt, does.  One sleeps on the address of something, which
is not 0. -/
inductive SlpEvent
  | sleep (chan : ℕ+) (disp : ℕ) (intr : Bool)
  | wakeup (chan : ℕ)
  | setrun (p : ℕ)
  | psignal (p : ℕ) (kill held : Bool)
  | stop (cp pp : ℕ) (orphan : Bool)
  | qswtch
  | disp
  | procdup (cp : ℕ)
  | sched (pri : ℕ → ℕ) (sload procio : ℕ → Bool) (runout : ℕ)

/-- One event.  Only the process that runs may sleep, give up the processor or stop a process, which
is itself or one that sleeps.  `procdup` makes a new process, `sched` stands for all that is done to
priorities and by swapping. -/
def Slp.step (s : Slp) : SlpEvent → Option Slp
  | .sleep chan disp intr => s.current.map fun rp => s.sleep rp chan disp intr
  | .wakeup chan => some (s.wakeup chan)
  | .setrun p => if p < s.v_proc then some (s.setrun p) else none
  | .psignal p kill held => if p < s.v_proc then some (s.psignal p kill held) else none
  | .stop cp pp orphan =>
    match s.current with
    | none => none
    | some rp =>
      if rp = cp ∨ (s.proc cp).p_stat = .SSLEEP then some (s.stop rp cp pp orphan) else none
  | .qswtch => s.current.map fun rp => s.qswtch rp
  | .disp => if s.current = none then some s.disp else none
  | .procdup cp =>
    if cp < s.v_proc ∧ (s.proc cp).p_stat = .NULL then
      some ((s.setProc cp fun x => { x with p_stat := .SRUN }).setrq cp)
    else none
  | .sched pri sload procio runout =>
    some { s with
      proc := fun p => { s.proc p with p_pri := pri p, SLOAD := sload p, SPROCIO := procio p }
      runout := runout }

/-! ## The lists -/

namespace Slp

variable {s t : Slp} {chains : ℕ → List ℕ} {run : List ℕ} {k p q n chan : ℕ} {l₁ l₂ : List ℕ}

/-- The next process on a list. -/
def link (s : Slp) (p : ℕ) : Option ℕ := (s.proc p).p_link

/-- A process is on one chain exactly when it waits, and it is the chain of what it waits for; it is
on the run queue exactly when it may run and does not; no process is on two lists or twice on
one; on the chains there are only processes that sleep or are stopped; and nothing has panicked. -/
structure OnQueues (s : Slp) (chains : ℕ → List ℕ) (run : List ℕ) : Prop where
  chain_linked : ∀ k, Linked s.link (s.hsque k) (chains k)
  run_linked : Linked s.link s.runq run
  chain_nodup : ∀ k, (chains k).Nodup
  run_nodup : run.Nodup
  mem_chain : ∀ k p, p ∈ chains k ↔ (s.proc p).p_wchan ≠ 0 ∧ sqhash (s.proc p).p_wchan = k
  mem_run : ∀ p, p ∈ run ↔ (s.proc p).p_stat = .SRUN ∧ s.current ≠ some p
  waiting : ∀ p, (s.proc p).p_wchan ≠ 0 → (s.proc p).p_stat = .SSLEEP ∨ (s.proc p).p_stat = .SSTOP
  disjoint : ∀ k, ∀ p ∈ chains k, p ∉ run
  no_panic : s.panicstr = false

/-- The lists, and what else the operations rely on. -/
structure Queues (s : Slp) (chains : ℕ → List ℕ) (run : List ℕ) : Prop where
  chain_linked : ∀ k, Linked s.link (s.hsque k) (chains k)
  run_linked : Linked s.link s.runq run
  chain_nodup : ∀ k, (chains k).Nodup
  run_nodup : run.Nodup
  mem_chain : ∀ k p, p ∈ chains k ↔ (s.proc p).p_wchan ≠ 0 ∧ sqhash (s.proc p).p_wchan = k
  mem_run : ∀ p, p ∈ run ↔ (s.proc p).p_stat = .SRUN ∧ s.current ≠ some p
  waiting : ∀ p, (s.proc p).p_wchan ≠ 0 → (s.proc p).p_stat = .SSLEEP ∨ (s.proc p).p_stat = .SSTOP
  running : ∀ p, s.current = some p → (s.proc p).p_stat = .SRUN
  bound : ∀ p, (s.proc p).p_stat ≠ .NULL → p < s.v_proc
  no_panic : s.panicstr = false
  pos : 0 < s.v_proc

section

variable (h : s.Queues chains run)

include h

/-- Who may run does not wait. -/
theorem Queues.wchan_eq_zero
    (hp : (s.proc p).p_stat ≠ .SSLEEP ∧ (s.proc p).p_stat ≠ .SSTOP) : (s.proc p).p_wchan = 0 := by
  by_contra hw
  exact (h.waiting p hw).elim hp.1 hp.2

theorem Queues.not_mem_chain (hp : (s.proc p).p_wchan = 0) (k : ℕ) :
    p ∉ chains k :=
  fun hc => ((h.mem_chain k p).mp hc).1 hp

theorem Queues.onQueues : s.OnQueues chains run := by
  refine ⟨h.chain_linked, h.run_linked, h.chain_nodup, h.run_nodup, h.mem_chain, h.mem_run, h.waiting,
    fun k p hc hr => ?_, h.no_panic⟩
  have hw := h.wchan_eq_zero (p := p) (by rw [((h.mem_run p).mp hr).1]; decide)
  exact h.not_mem_chain hw k hc

theorem Queues.length_le {l : List ℕ} (hnd : l.Nodup)
    (hl : ∀ p ∈ l, (s.proc p).p_stat ≠ .NULL) : l.length ≤ s.v_proc := by
  have hsub : l ⊆ List.range s.v_proc := fun p hp => mem_range.mpr (h.bound p (hl p hp))
  have := (subperm_of_subset hnd hsub).length_le
  rwa [length_range] at this

theorem Queues.chain_length (k : ℕ) : (chains k).length ≤ s.v_proc := by
  refine h.length_le (h.chain_nodup k) fun p hp hnull => ?_
  rcases h.waiting p ((h.mem_chain k p).mp hp).1 with hs | hs
  · rw [hs] at hnull
    cases hnull
  · rw [hs] at hnull
    cases hnull

omit h in
/-- What the place behind a part of a list holds. -/
theorem load_eq (h : Linked s.link (s.hsque k) (l₁ ++ l₂)) : s.load k l₁.getLast? = l₂.head? := by
  rcases eq_nil_or_concat l₁ with rfl | ⟨l, z, rfl⟩
  · exact h.head?
  · rw [concat_eq_append] at h ⊢
    rw [List.getLast?_concat]
    rw [append_assoc] at h
    exact h.next_eq

/-! ## What a step of an operation does to the lists -/

/-- Only what does not matter to the lists has changed. -/
theorem Queues.congr
    (hstat : ∀ x, (t.proc x).p_stat = (s.proc x).p_stat)
    (hwchan : ∀ x, (t.proc x).p_wchan = (s.proc x).p_wchan)
    (hlink : ∀ x, (s.proc x).p_wchan ≠ 0 ∨ x ∈ run → t.link x = s.link x)
    (hhsque : t.hsque = s.hsque) (hrunq : t.runq = s.runq) (hcur : t.current = s.current)
    (hv : t.v_proc = s.v_proc) (hpanic : t.panicstr = s.panicstr) : t.Queues chains run := by
  refine ⟨fun k => ?_, ?_, h.chain_nodup, h.run_nodup, fun k p => ?_, fun p => ?_, fun p hp => ?_,
    fun p hp => ?_, fun p hp => ?_, hpanic.trans h.no_panic, hv ▸ h.pos⟩
  · rw [hhsque]
    exact (h.chain_linked k).congr fun x hx => hlink x (Or.inl ((h.mem_chain k x).mp hx).1)
  · rw [hrunq]
    exact h.run_linked.congr fun x hx => hlink x (Or.inr hx)
  · rw [hwchan]
    exact h.mem_chain k p
  · rw [hstat, hcur]
    exact h.mem_run p
  · rw [hwchan] at hp
    rw [hstat]
    exact h.waiting p hp
  · rw [hcur] at hp
    rw [hstat]
    exact h.running p hp
  · rw [hstat] at hp
    rw [hv]
    exact h.bound p hp

/-- **A process is taken off its chain.** -/
theorem Queues.unlink (hk : chains k = l₁ ++ p :: l₂)
    (hproc : ∀ x, (t.proc x).p_stat = (s.proc x).p_stat ∧
      (t.proc x).p_wchan = (if x = p then 0 else (s.proc x).p_wchan) ∧
      t.link x = (if l₁.getLast? = some x then s.link p else s.link x))
    (hhsque : ∀ j, t.hsque j = if j = k ∧ l₁ = [] then s.link p else s.hsque j)
    (hrunq : t.runq = s.runq) (hcur : t.current = s.current) (hv : t.v_proc = s.v_proc)
    (hpanic : t.panicstr = s.panicstr) :
    t.Queues (update chains k (l₁ ++ l₂)) run := by
  have hlinked := h.chain_linked k
  have hnd := h.chain_nodup k
  rw [hk] at hlinked hnd
  have hnext : s.link p = l₂.head? := hlinked.next_eq
  have hnd' := hnd
  rw [nodup_middle] at hnd'
  obtain ⟨hpl, hnd'⟩ := nodup_cons.mp hnd'
  have hmemk : ∀ x ∈ l₁, x ∈ chains k := fun x hx => by
    rw [hk]
    exact mem_append_left _ hx
  -- processes on other lists keep their links
  have hkeep : ∀ x, x ∉ chains k → t.link x = s.link x := fun x hx => by
    rw [(hproc x).2.2, if_neg fun hlast => hx (hmemk x (mem_of_getLast? hlast))]
  have hdisj : ∀ x ∈ run, x ∉ chains k := fun x hr hc => h.onQueues.disjoint k x hc hr
  refine ⟨fun j => ?_, ?_, fun j => ?_, h.run_nodup, fun j x => ?_, fun x => ?_, fun x hx => ?_,
    fun x hx => ?_, fun x hx => ?_, hpanic.trans h.no_panic, hv ▸ h.pos⟩
  · rw [update_apply]
    split_ifs with hj
    · rw [hj]
      refine hlinked.remove hnd ?_ (fun z hz => ?_) fun b _ hb => ?_
      · rw [hhsque]
        cases l₁ with
        | nil => rw [if_pos ⟨rfl, rfl⟩, hnext, nil_append]
        | cons a l₁ =>
          rw [if_neg fun hc => cons_ne_nil a l₁ hc.2]
          exact hlinked.head?
      · rw [(hproc z).2.2, if_pos hz, hnext]
      · rw [(hproc b).2.2, if_neg hb]
    · rw [hhsque, if_neg fun hc => hj hc.1]
      refine (h.chain_linked j).congr fun x hx => hkeep x fun hxk => hj ?_
      rw [← ((h.mem_chain j x).mp hx).2, ← ((h.mem_chain k x).mp hxk).2]
  · rw [hrunq]
    exact h.run_linked.congr fun x hx => hkeep x (hdisj x hx)
  · rw [update_apply]
    split_ifs with hj
    · exact hnd'
    · exact h.chain_nodup j
  · rw [(hproc x).2.1]
    split_ifs with hx
    · refine iff_of_false (fun hc => ?_) fun hc => hc.1 rfl
      by_cases hj : j = k
      · rw [hj, update_self, hx] at hc
        exact hpl hc
      · rw [update_of_ne hj, hx] at hc
        have hpk : p ∈ chains k := by
          rw [hk]
          exact mem_append_right _ mem_cons_self
        exact hj (((h.mem_chain j p).mp hc).2.symm.trans ((h.mem_chain k p).mp hpk).2)
    · rw [← h.mem_chain]
      rw [update_apply]
      split_ifs with hj
      · rw [hj, hk, mem_append, mem_append, mem_cons, or_iff_right hx]
      · rfl
  · rw [(hproc x).1, hcur]
    exact h.mem_run x
  · rw [(hproc x).1]
    rw [(hproc x).2.1] at hx
    split_ifs at hx with hxp
    · exact absurd rfl hx
    · exact h.waiting x hx
  · rw [(hproc x).1]
    rw [hcur] at hx
    exact h.running x hx
  · rw [hv]
    rw [(hproc x).1] at hx
    exact h.bound x hx

/-- **A process that does not wait is put on the run queue.** -/
theorem Queues.ready (hw : (s.proc p).p_wchan = 0) (hp : p < s.v_proc)
    (hnot : p ∉ run)
    (hproc : ∀ x, (t.proc x).p_stat = (if x = p then .SRUN else (s.proc x).p_stat) ∧
      (t.proc x).p_wchan = (s.proc x).p_wchan ∧
      t.link x = (if x = p then s.runq else s.link x))
    (hhsque : t.hsque = s.hsque) (hrunq : t.runq = some p) (hcurp : t.current ≠ some p)
    (hcur : ∀ x, x ≠ p → (t.current = some x ↔ s.current = some x)) (hv : t.v_proc = s.v_proc)
    (hpanic : t.panicstr = s.panicstr) : t.Queues chains (p :: run) := by
  have hkeep : ∀ x, x ≠ p → t.link x = s.link x := fun x hx => by rw [(hproc x).2.2, if_neg hx]
  refine ⟨fun k => ?_, ?_, h.chain_nodup, nodup_cons.mpr ⟨hnot, h.run_nodup⟩, fun k x => ?_,
    fun x => ?_, fun x hx => ?_, fun x hx => ?_, fun x hx => ?_, hpanic.trans h.no_panic, hv ▸ h.pos⟩
  · rw [hhsque]
    exact (h.chain_linked k).congr fun x hx => hkeep x fun hxp => h.not_mem_chain hw k (hxp ▸ hx)
  · rw [hrunq]
    refine h.run_linked.push (fun x hx => hkeep x fun hxp => hnot (hxp ▸ hx)) ?_
    rw [(hproc p).2.2, if_pos rfl]
  · rw [(hproc x).2.1]
    exact h.mem_chain k x
  · rw [(hproc x).1, mem_cons]
    split_ifs with hx
    · rw [hx]
      exact iff_of_true (Or.inl rfl) ⟨rfl, hcurp⟩
    · rw [or_iff_right hx, Ne, hcur x hx]
      exact h.mem_run x
  · rw [(hproc x).2.1] at hx
    have hxp : x ≠ p := fun hxp => hx (hxp ▸ hw)
    rw [(hproc x).1, if_neg hxp]
    exact h.waiting x hx
  · rw [(hproc x).1]
    split_ifs with hxp
    · rfl
    · exact h.running x ((hcur x hxp).mp hx)
  · rw [hv]
    by_cases hxp : x = p
    · rw [hxp]
      exact hp
    · rw [(hproc x).1, if_neg hxp] at hx
      exact h.bound x hx

theorem Queues.withRunout (r : ℕ) :
    ({ s with runout := r } : Slp).Queues chains run :=
  ⟨h.chain_linked, h.run_linked, h.chain_nodup, h.run_nodup, h.mem_chain, h.mem_run, h.waiting,
    h.running, h.bound, h.no_panic, h.pos⟩

/-! ## `unsleep` and `setrun` -/

omit h in
theorem proc_setProc (s : Slp) (p : ℕ) (f : SlpProc → SlpProc) (x : ℕ) :
    (s.setProc p f).proc x = if x = p then f (s.proc x) else s.proc x := by
  by_cases hx : x = p
  · rw [if_pos hx, hx]
    exact update_self ..
  · rw [if_neg hx]
    exact update_of_ne hx ..

omit h in
theorem store_proc (s : Slp) (k : ℕ) (q v : Option ℕ) (x : ℕ) :
    ((s.store k q v).proc x).p_stat = (s.proc x).p_stat ∧
      ((s.store k q v).proc x).p_wchan = (s.proc x).p_wchan ∧
      (s.store k q v).link x = if q = some x then v else s.link x := by
  cases q with
  | none => exact ⟨rfl, rfl, (if_neg fun h => nomatch h).symm⟩
  | some p =>
    unfold store link
    dsimp only
    rw [proc_setProc]
    by_cases hx : x = p
    · rw [if_pos hx, if_pos (congrArg some hx.symm)]
      exact ⟨rfl, rfl, rfl⟩
    · rw [if_neg hx, if_neg fun h => hx (some_inj.mp h).symm]
      exact ⟨rfl, rfl, rfl⟩

omit h in
theorem store_hsque (s : Slp) (k : ℕ) (q v : Option ℕ) (j : ℕ) :
    (s.store k q v).hsque j = if j = k ∧ q = none then v else s.hsque j := by
  cases q with
  | none =>
    rw [store]
    by_cases hj : j = k
    · rw [hj, if_pos ⟨rfl, rfl⟩]
      exact update_self ..
    · rw [if_neg fun h => hj h.1]
      exact update_of_ne hj ..
  | some p => exact (if_neg fun h => nomatch h.2).symm

omit h in
/-- What no write to a place changes. -/
theorem store_same (s : Slp) (k : ℕ) (q v : Option ℕ) :
    (s.store k q v).runq = s.runq ∧ (s.store k q v).current = s.current ∧
      (s.store k q v).v_proc = s.v_proc ∧ (s.store k q v).panicstr = s.panicstr ∧
      (s.store k q v).runout = s.runout := by
  cases q <;> exact ⟨rfl, rfl, rfl, rfl, rfl⟩

omit h in
/-- The loop of `unsleep` finds the place before the process. -/
theorem findPlace_eq {l l' : List ℕ} (h : Linked s.link (s.hsque k) (l ++ (l' ++ p :: l₂)))
    (hp : p ∉ l') (hn : l'.length < n) :
    s.findPlace k p n l.getLast? = (l ++ l').getLast? := by
  induction l' generalizing l n with
  | nil =>
    obtain ⟨n, rfl⟩ : ∃ m, n = m + 1 := ⟨n - 1, by omega⟩
    have hload : s.load k l.getLast? = some p := load_eq h
    rw [findPlace, if_pos hload, append_nil]
  | cons a l' ih =>
    obtain ⟨n, rfl⟩ : ∃ m, n = m + 1 := ⟨n - 1, by omega⟩
    rw [length_cons] at hn
    have hload : s.load k l.getLast? = some a := load_eq h
    have hap : a ≠ p := fun hap => hp (hap ▸ mem_cons_self)
    rw [findPlace, hload, if_neg fun hc => hap (some_inj.mp hc)]
    have hcons : l ++ a :: l' = (l ++ [a]) ++ l' := by rw [append_assoc]; rfl
    have ih := ih (l := l ++ [a]) (n := n)
      (by rw [append_assoc]; exact h) (fun hp' => hp (mem_cons_of_mem _ hp')) (by omega)
    rw [List.getLast?_concat] at ih
    rw [hcons]
    exact ih

omit h in
/-- `unsleep` changes nothing else. -/
theorem unsleep_same (s : Slp) (p : ℕ) :
    (s.unsleep p).runq = s.runq ∧ (s.unsleep p).current = s.current ∧
      (s.unsleep p).v_proc = s.v_proc ∧ (s.unsleep p).runout = s.runout := by
  unfold unsleep
  split_ifs
  · obtain ⟨h1, h2, h3, -, h5⟩ := store_same s (sqhash (s.proc p).p_wchan)
      (s.findPlace (sqhash (s.proc p).p_wchan) p s.v_proc none) (s.proc p).p_link
    exact ⟨h1, h2, h3, h5⟩
  · exact ⟨rfl, rfl, rfl, rfl⟩

/-- `*q = p->p_link; p->p_wchan = 0`, where `q` is the place before `p`. -/
theorem Queues.takeOff (hk : chains k = l₁ ++ p :: l₂)
    (ht : t = (s.store k l₁.getLast? (s.proc p).p_link).setProc p
      fun x => { x with p_wchan := 0 }) :
    t.Queues (update chains k (l₁ ++ l₂)) run ∧
      ∀ x, (t.proc x).p_stat = (s.proc x).p_stat ∧
        (t.proc x).p_wchan = if x = p then 0 else (s.proc x).p_wchan := by
  obtain ⟨h1, h2, h3, h4, -⟩ := store_same s k l₁.getLast? (s.proc p).p_link
  have hproc : ∀ x, (t.proc x).p_stat = (s.proc x).p_stat ∧
      (t.proc x).p_wchan = (if x = p then 0 else (s.proc x).p_wchan) ∧
      t.link x = (if l₁.getLast? = some x then s.link p else s.link x) := by
    intro x
    obtain ⟨hs, hw, hlk⟩ := store_proc s k l₁.getLast? (s.proc p).p_link x
    unfold link
    rw [ht, proc_setProc]
    split
    · exact ⟨hs, rfl, hlk⟩
    · exact ⟨hs, hw, hlk⟩
  refine ⟨h.unlink hk hproc (fun j => ?_) ?_ ?_ ?_ ?_, fun x => ⟨(hproc x).1, (hproc x).2.1⟩⟩
  · rw [ht]
    refine (store_hsque s k l₁.getLast? (s.proc p).p_link j).trans ?_
    simp only [List.getLast?_eq_none_iff]
    rfl
  all_goals rw [ht]
  · exact h1
  · exact h2
  · exact h3
  · exact h4

theorem Queues.unsleep (p : ℕ) :
    ∃ chains', (s.unsleep p).Queues chains' run ∧
      ∀ x, ((s.unsleep p).proc x).p_stat = (s.proc x).p_stat ∧
        ((s.unsleep p).proc x).p_wchan = if x = p then 0 else (s.proc x).p_wchan := by
  by_cases hw : (s.proc p).p_wchan ≠ 0
  · obtain ⟨k, hk⟩ : ∃ k, k = sqhash (s.proc p).p_wchan := ⟨_, rfl⟩
    have hmem : p ∈ chains k := (h.mem_chain k p).mpr ⟨hw, hk.symm⟩
    obtain ⟨l₁, l₂, hl⟩ := append_of_mem hmem
    have hnd := h.chain_nodup k
    have hlinked := h.chain_linked k
    have hlen := h.chain_length k
    rw [hl] at hnd hlinked hlen
    rw [length_append, length_cons] at hlen
    have hp : p ∉ l₁ := fun hp =>
      (nodup_append.mp hnd).2.2 p hp p mem_cons_self rfl
    have hfind : s.findPlace k p s.v_proc none = l₁.getLast? :=
      findPlace_eq (l := []) hlinked hp (by omega)
    refine ⟨_, h.takeOff hl ?_⟩
    unfold Slp.unsleep
    rw [if_pos hw, ← hk]
    dsimp only
    rw [hfind]
  · have hun : s.unsleep p = s := if_neg hw
    rw [hun]
    refine ⟨chains, h, fun x => ⟨rfl, ?_⟩⟩
    split_ifs with hx
    · rw [hx]
      exact not_not.mp hw
    · rfl

/-- Each process is as it was, or runs and does not wait. -/
def Moved (s t : Slp) : Prop :=
  ∀ x, ((t.proc x).p_stat = .SRUN ∧ (t.proc x).p_wchan = 0) ∨
    ((t.proc x).p_stat = (s.proc x).p_stat ∧ (t.proc x).p_wchan = (s.proc x).p_wchan)

omit h in
theorem Moved.trans {u : Slp} (h : s.Moved t) (h' : t.Moved u) : s.Moved u := by
  intro x
  rcases h' x with hx | ⟨hs, hw⟩
  · exact Or.inl hx
  · rw [hs, hw]
    exact h x

omit h in
/-- `p_stat = SRUN; setrq(p)`. -/
theorem setrq_proc (s : Slp) (p x : ℕ) :
    ((((s.setProc p fun x => { x with p_stat := .SRUN }).setrq p).proc x).p_stat =
        if x = p then .SRUN else (s.proc x).p_stat) ∧
      (((s.setProc p fun x => { x with p_stat := .SRUN }).setrq p).proc x).p_wchan =
        (s.proc x).p_wchan ∧
      ((s.setProc p fun x => { x with p_stat := .SRUN }).setrq p).link x =
        if x = p then s.runq else s.link x := by
  have hproc : ((s.setProc p fun x => { x with p_stat := .SRUN }).setrq p).proc x =
      if x = p then { s.proc x with p_stat := .SRUN, p_link := s.runq } else s.proc x := by
    unfold setrq
    dsimp only
    rw [proc_setProc, proc_setProc]
    split
    · rfl
    · rfl
  unfold link
  rw [hproc]
  split_ifs <;> exact ⟨rfl, rfl, rfl⟩

/-- `p_stat = SRUN; setrq(p)` for a process that does not wait and is not on the run queue. -/
theorem Queues.setRun (hw : (s.proc p).p_wchan = 0) (hp : p < s.v_proc)
    (hs : (s.proc p).p_stat ≠ .SRUN) :
    ((s.setProc p fun x => { x with p_stat := .SRUN }).setrq p).Queues chains (p :: run) := by
  refine h.ready hw hp (fun hr => hs ((h.mem_run p).mp hr).1) (fun x => setrq_proc s p x) rfl rfl
    (fun hc => hs (h.running p hc)) (fun x _ => Iff.rfl) rfl rfl

theorem Queues.setrunN (n : ℕ) (hp : p < s.v_proc) :
    ∃ chains' run', (setrunN n s p).Queues chains' run' ∧ s.Moved (setrunN n s p) := by
  induction n generalizing s chains run p with
  | zero => exact ⟨chains, run, h, fun x => Or.inr ⟨rfl, rfl⟩⟩
  | succ n ih =>
    rw [Slp.setrunN]
    by_cases hs : (s.proc p).p_stat = .SRUN
    · rw [if_pos hs]
      exact ⟨chains, run, h, fun x => Or.inr ⟨rfl, rfl⟩⟩
    · rw [if_neg hs]
      -- off its chain
      obtain ⟨u, hu⟩ : ∃ u, u = if (s.proc p).p_stat = .SSLEEP ∨ (s.proc p).p_stat = .SSTOP then
        s.unsleep p else s := ⟨_, rfl⟩
      obtain ⟨chains', hq, hproc, hv⟩ : ∃ chains', u.Queues chains' run ∧
          (∀ x, (u.proc x).p_stat = (s.proc x).p_stat ∧
            (u.proc x).p_wchan = if x = p then 0 else (s.proc x).p_wchan) ∧
          u.v_proc = s.v_proc := by
        rw [hu]
        split_ifs with hsl
        · obtain ⟨chains', hq, hproc⟩ := h.unsleep p
          exact ⟨chains', hq, hproc, (unsleep_same s p).2.2.1⟩
        · refine ⟨chains, h, fun x => ⟨rfl, ?_⟩, rfl⟩
          split_ifs with hx
          · rw [hx]
            exact h.wchan_eq_zero (not_or.mp hsl)
          · rfl
      rw [← hu]
      obtain ⟨w, hw⟩ : ∃ w, w = (u.setProc p fun x => { x with p_stat := .SRUN }).setrq p :=
        ⟨_, rfl⟩
      have hwq : w.Queues chains' (p :: run) := by
        rw [hw]
        refine hq.setRun ?_ (by omega) ?_
        · rw [(hproc p).2, if_pos rfl]
        · rw [(hproc p).1]
          exact hs
      have hmoved : s.Moved w := by
        intro x
        obtain ⟨h1, h2, -⟩ := setrq_proc u p x
        rw [← hw] at h1 h2
        rw [h1, h2, (hproc x).1, (hproc x).2]
        by_cases hx : x = p
        · rw [if_pos hx, if_pos hx]
          exact Or.inl ⟨rfl, rfl⟩
        · rw [if_neg hx, if_neg hx]
          exact Or.inr ⟨rfl, rfl⟩
      dsimp only
      rw [← hw]
      split_ifs
      · obtain ⟨c, r, hcr, hm⟩ := ih (s := { w with runout := 0 }) (p := 0) (hwq.withRunout 0)
          hwq.pos
        exact ⟨c, r, hcr, hmoved.trans hm⟩
      · exact ⟨chains', _, hwq, hmoved⟩

/-! ## `wakeup` -/

omit h in
/-- The two orders in which a process is taken off its chain come to the same. -/
theorem store_setProc {q : Option ℕ} {v : Option ℕ} (hq : q ≠ some p) (f : SlpProc → SlpProc) :
    (s.setProc p f).store k q v = (s.store k q v).setProc p f := by
  cases q with
  | none => rfl
  | some z =>
    have hz : z ≠ p := fun h => hq (congrArg some h)
    unfold store setProc
    dsimp only
    rw [update_of_ne hz, update_of_ne (Ne.symm hz), update_comm hz]

/-- The processes that wait for `chan` do so no more, and those asleep run. -/
def Woken (s t : Slp) (chan : ℕ) : Prop :=
  ∀ x, (t.proc x).p_wchan = (if (s.proc x).p_wchan = chan then 0 else (s.proc x).p_wchan) ∧
    (t.proc x).p_stat =
      if ((s.proc x).p_wchan = chan ∧ chan ≠ 0) ∧ (s.proc x).p_stat = .SSLEEP then .SRUN
      else (s.proc x).p_stat

omit h in
/-- One process of the chain has been dealt with before the others. -/
theorem Woken.step {u : Slp} (h : t.Woken u chan) (hp : (s.proc p).p_wchan = chan) (h0 : chan ≠ 0)
    (hother : ∀ x, x ≠ p → (t.proc x).p_wchan = (s.proc x).p_wchan ∧
      (t.proc x).p_stat = (s.proc x).p_stat)
    (hw : (t.proc p).p_wchan = 0)
    (hs : (t.proc p).p_stat = if (s.proc p).p_stat = .SSLEEP then .SRUN else (s.proc p).p_stat) :
    s.Woken u chan := by
  intro x
  obtain ⟨h1, h2⟩ := h x
  by_cases hx : x = p
  · rw [hx] at h1 h2 ⊢
    rw [hw, if_neg (Ne.symm h0)] at h1
    rw [hw, if_neg fun hc => h0 hc.1.1.symm, hs] at h2
    rw [if_pos hp]
    refine ⟨h1, h2.trans ?_⟩
    by_cases hsl : (s.proc p).p_stat = .SSLEEP
    · rw [if_pos hsl, if_pos ⟨⟨hp, h0⟩, hsl⟩]
    · rw [if_neg hsl, if_neg fun hc => hsl hc.2]
  · rw [(hother x hx).1, (hother x hx).2] at h2
    rw [(hother x hx).1] at h1
    exact ⟨h1, h2⟩

theorem Queues.wakeupLoop (hl : chains (sqhash chan) = l₁ ++ l₂)
    (hout : ∀ x ∈ l₁, (s.proc x).p_wchan ≠ chan) (hn : l₂.length < n) (b : Bool) :
    ∃ chains' run', (wakeupLoop chan n l₁.getLast? s b).1.Queues chains' run' ∧
      s.Woken (wakeupLoop chan n l₁.getLast? s b).1 chan ∧
      (wakeupLoop chan n l₁.getLast? s b).1.v_proc = s.v_proc := by
  induction l₂ generalizing s chains run l₁ n b with
  | nil =>
    obtain ⟨n, rfl⟩ : ∃ m, n = m + 1 := ⟨n - 1, by omega⟩
    have hlinked := h.chain_linked (sqhash chan)
    rw [hl] at hlinked
    have hload : s.load (sqhash chan) l₁.getLast? = none := load_eq hlinked
    rw [Slp.wakeupLoop, hload]
    refine ⟨chains, run, h, fun x => ?_, rfl⟩
    -- nobody is left
    have h0 : (s.proc x).p_wchan = chan → chan = 0 := by
      intro hx
      by_contra h0
      refine hout x ?_ hx
      have := (h.mem_chain (sqhash chan) x).mpr ⟨by rwa [hx], by rw [hx]⟩
      rwa [hl, append_nil] at this
    refine ⟨?_, (if_neg fun hc => hc.1.2 (h0 hc.1.1)).symm⟩
    split_ifs with hx
    · rw [hx]
      exact h0 hx
    · rfl
  | cons p l₂ ih =>
    obtain ⟨n, rfl⟩ : ∃ m, n = m + 1 := ⟨n - 1, by omega⟩
    rw [length_cons] at hn
    have hlinked := h.chain_linked (sqhash chan)
    have hnd := h.chain_nodup (sqhash chan)
    rw [hl] at hlinked hnd
    have hload : s.load (sqhash chan) l₁.getLast? = some p := load_eq hlinked
    have hp1 : p ∉ l₁ := fun hp =>
      (nodup_append.mp hnd).2.2 p hp p mem_cons_self rfl
    have hmem : p ∈ chains (sqhash chan) := by
      rw [hl]
      exact mem_append_right _ mem_cons_self
    obtain ⟨hw0, -⟩ := (h.mem_chain _ p).mp hmem
    have hwait := h.waiting p hw0
    have hpv : p < s.v_proc := h.bound p fun hc => by
      rw [hc] at hwait
      rcases hwait with hc | hc <;> cases hc
    rw [Slp.wakeupLoop, hload]
    dsimp only
    rw [if_neg fun hc => hwait.elim hc.1 hc.2]
    by_cases hpc : (s.proc p).p_wchan = chan
    · rw [if_pos hpc]
      -- `p` is taken off the chain
      obtain ⟨u, hu⟩ : ∃ u, u = (s.setProc p fun x => { x with p_wchan := 0 }).store (sqhash chan)
        l₁.getLast? ((s.setProc p fun x => { x with p_wchan := 0 }).proc p).p_link := ⟨_, rfl⟩
      have hlink : ((s.setProc p fun x => { x with p_wchan := 0 }).proc p).p_link =
          (s.proc p).p_link := by
        rw [proc_setProc, if_pos rfl]
      rw [← hu]
      rw [hlink, store_setProc fun hc => hp1 (mem_of_getLast? hc)] at hu
      obtain ⟨huq, huproc⟩ := h.takeOff hl hu
      have huv : u.v_proc = s.v_proc := by
        rw [hu]
        exact (store_same s _ _ _).2.2.1
      have h0 : chan ≠ 0 := hpc ▸ hw0
      have hne : ∀ x ∈ l₁, x ≠ p := fun x hx hxp => hp1 (hxp ▸ hx)
      have hupd : update chains (sqhash chan) (l₁ ++ l₂) (sqhash chan) = l₁ ++ l₂ :=
        update_self ..
      by_cases hsl : (u.proc p).p_stat = .SSLEEP
      · rw [if_pos hsl]
        obtain ⟨w, hw⟩ : ∃ w, w = (u.setProc p fun x => { x with p_stat := .SRUN }).setrq p :=
          ⟨_, rfl⟩
        have hwq : w.Queues (update chains (sqhash chan) (l₁ ++ l₂)) (p :: run) := by
          rw [hw]
          refine huq.setRun ?_ (by omega) ?_
          · rw [(huproc p).2, if_pos rfl]
          · rw [hsl]
            decide
        have hwproc : ∀ x, (w.proc x).p_stat = (if x = p then .SRUN else (s.proc x).p_stat) ∧
            (w.proc x).p_wchan = if x = p then 0 else (s.proc x).p_wchan := by
          intro x
          obtain ⟨h1, h2, -⟩ := setrq_proc u p x
          rw [hw, h1, h2, (huproc x).1, (huproc x).2]
          exact ⟨rfl, rfl⟩
        rw [← hw]
        obtain ⟨c, r, hcr, hwoken, hv⟩ := ih (s := w) (n := n) hwq hupd
          (fun x hx => by rw [(hwproc x).2, if_neg (hne x hx)]; exact hout x hx) (by omega)
          (b || (!(w.proc p).SLOAD && decide (0 < w.runout)))
        refine ⟨c, r, hcr, hwoken.step hpc h0 (fun x hx => ?_) ?_ ?_, ?_⟩
        · rw [(hwproc x).1, (hwproc x).2, if_neg hx, if_neg hx]
          exact ⟨rfl, rfl⟩
        · rw [(hwproc p).2, if_pos rfl]
        · rw [(hwproc p).1, if_pos rfl, if_pos ((huproc p).1.symm.trans hsl)]
        · rw [hv, hw]
          exact huv
      · rw [if_neg hsl]
        obtain ⟨c, r, hcr, hwoken, hv⟩ := ih (s := u) (n := n) huq hupd
          (fun x hx => by rw [(huproc x).2, if_neg (hne x hx)]; exact hout x hx) (by omega) b
        refine ⟨c, r, hcr, hwoken.step hpc h0 (fun x hx => ?_) ?_ ?_, hv.trans huv⟩
        · rw [(huproc x).1, (huproc x).2, if_neg hx]
          exact ⟨rfl, rfl⟩
        · rw [(huproc p).2, if_pos rfl]
        · rw [if_neg ((huproc p).1 ▸ hsl)]
          exact (huproc p).1
    · rw [if_neg hpc]
      have hl' : chains (sqhash chan) = (l₁ ++ [p]) ++ l₂ := by
        rw [append_assoc]
        exact hl
      have ih := ih (s := s) (n := n) h hl' (fun x hx => ?_) (by omega) b
      · rwa [List.getLast?_concat] at ih
      · rcases mem_append.mp hx with hx | hx
        · exact hout x hx
        · rw [mem_singleton.mp hx]
          exact hpc

theorem Queues.wakeup (chan : ℕ) :
    ∃ chains' run', (s.wakeup chan).Queues chains' run' ∧
      ∀ x, (s.proc x).p_wchan = chan → ((s.wakeup chan).proc x).p_wchan = 0 ∧
        (chan ≠ 0 → (s.proc x).p_stat = .SSLEEP → ((s.wakeup chan).proc x).p_stat = .SRUN) := by
  obtain ⟨c, r, hq, hwoken, -⟩ := h.wakeupLoop
    (show chains (sqhash chan) = [] ++ chains (sqhash chan) from rfl) (fun _ hx => nomatch hx)
    (Nat.lt_succ_of_le (h.chain_length (sqhash chan))) false
  obtain ⟨u, hu⟩ : ∃ u, u = Slp.wakeupLoop chan (s.v_proc + 1) none s false := ⟨_, rfl⟩
  rw [List.getLast?_nil, ← hu] at hq hwoken
  have hw : ∀ x, (s.proc x).p_wchan = chan → (u.1.proc x).p_wchan = 0 ∧
      (chan ≠ 0 → (s.proc x).p_stat = .SSLEEP → (u.1.proc x).p_stat = .SRUN) := by
    intro x hx
    obtain ⟨h1, h2⟩ := hwoken x
    rw [if_pos hx] at h1
    refine ⟨h1, fun h0 hs => ?_⟩
    rw [h2, if_pos ⟨⟨hx, h0⟩, hs⟩]
  unfold Slp.wakeup
  rw [← hu]
  obtain ⟨u, b⟩ := u
  cases b with
  | false => exact ⟨c, r, hq, hw⟩
  | true =>
    obtain ⟨c, r, hq, hm⟩ := (hq.withRunout 0).setrunN 2 (p := 0) hq.pos
    refine ⟨c, r, hq, fun x hx => ?_⟩
    obtain ⟨h1, h2⟩ := hw x hx
    rcases hm x with ⟨hs, hz⟩ | ⟨hs, hz⟩
    · exact ⟨hz, fun _ _ => hs⟩
    · exact ⟨hz.trans h1, fun h0 hsl => hs.trans (h2 h0 hsl)⟩

/-! ## The other operations -/

theorem Queues.psignal (hp : p < s.v_proc) (kill held : Bool) :
    ∃ chains' run', (s.psignal p kill held).Queues chains' run' := by
  have hrun : ∃ chains' run', (s.setrun p).Queues chains' run' := by
    obtain ⟨c, r, hq, -⟩ := h.setrunN 2 hp
    exact ⟨c, r, hq⟩
  unfold Slp.psignal
  split_ifs
  · exact ⟨chains, run, h⟩
  · exact hrun
  · exact hrun
  · obtain ⟨c, hq, -⟩ := h.unsleep p
    exact ⟨c, run, hq⟩
  · exact ⟨chains, run, h⟩
  · exact ⟨chains, run, h⟩

/-- The process that runs, which is on no list, gives up the processor in another state. -/
theorem Queues.giveUp {rp : ℕ} (hrp : s.current = some rp)
    {f : SlpProc → SlpProc} (hf : ∀ x, (f x).p_wchan = x.p_wchan ∧ (f x).p_link = x.p_link)
    (hstat : ∀ x, (f x).p_stat ≠ .SRUN) :
    ({ s.setProc rp f with current := none } : Slp).Queues chains run := by
  have hrun := h.running rp hrp
  have hw : (s.proc rp).p_wchan = 0 := h.wchan_eq_zero (by rw [hrun]; decide)
  have hproc : ∀ x, (s.setProc rp f).proc x = if x = rp then f (s.proc x) else s.proc x :=
    proc_setProc s rp f
  have hlink : (s.setProc rp f).link = s.link := by
    funext x
    unfold link
    rw [hproc]
    split_ifs
    · exact (hf _).2
    · rfl
  have hwchan : ∀ x, ((s.setProc rp f).proc x).p_wchan = (s.proc x).p_wchan := fun x => by
    rw [hproc]
    split_ifs
    · exact (hf _).1
    · rfl
  have hne : ∀ x, x ≠ rp → ((s.setProc rp f).proc x).p_stat = (s.proc x).p_stat := fun x hx => by
    rw [hproc, if_neg hx]
  refine ⟨fun k => ?_, ?_, h.chain_nodup, h.run_nodup, fun k x => ?_, fun x => ?_, fun x hx => ?_,
    fun x hx => (nomatch hx), fun x hx => ?_, h.no_panic, h.pos⟩
  · exact hlink ▸ h.chain_linked k
  · exact hlink ▸ h.run_linked
  · exact (hwchan x).symm ▸ h.mem_chain k x
  · rw [h.mem_run]
    by_cases hx : x = rp
    · refine iff_of_false (fun hc => hc.2 (hx ▸ hrp)) fun hc => ?_
      have hc := hc.1
      dsimp only at hc
      rw [hproc, if_pos hx] at hc
      exact hstat _ hc
    · refine and_congr (by rw [show ({ s.setProc rp f with current := none } : Slp).proc =
        (s.setProc rp f).proc from rfl, hne x hx]) ?_
      refine iff_of_true (fun hc => hx ?_) fun hc => nomatch hc
      rw [hrp] at hc
      exact (some_inj.mp hc).symm
  · have hx' : (s.proc x).p_wchan ≠ 0 := hwchan x ▸ hx
    have hxp : x ≠ rp := fun hxp => hx' (hxp ▸ hw)
    have := h.waiting x hx'
    rwa [← hne x hxp] at this
  · by_cases hxp : x = rp
    · rw [hxp]
      exact h.bound rp (by rw [hrun]; decide)
    · exact h.bound x (hne x hxp ▸ hx)

/-- A process that sleeps is stopped and stays on its chain. -/
theorem Queues.stopSleeping (hs : (s.proc p).p_stat = .SSLEEP) :
    (s.setProc p fun x => { x with p_stat := .SSTOP }).Queues chains run := by
  obtain ⟨t, ht⟩ : ∃ t, t = s.setProc p fun x => { x with p_stat := .SSTOP } := ⟨_, rfl⟩
  rw [← ht]
  have hstat : ∀ x, (t.proc x).p_stat = if x = p then .SSTOP else (s.proc x).p_stat := fun x => by
    rw [ht, proc_setProc]
    split_ifs <;> rfl
  have hother : ∀ x, (t.proc x).p_wchan = (s.proc x).p_wchan ∧ t.link x = s.link x := fun x => by
    unfold link
    rw [ht, proc_setProc]
    split_ifs <;> exact ⟨rfl, rfl⟩
  obtain ⟨h1, h2, h3, h4, h5⟩ : t.hsque = s.hsque ∧ t.runq = s.runq ∧ t.current = s.current ∧
      t.v_proc = s.v_proc ∧ t.panicstr = s.panicstr := by
    rw [ht]
    exact ⟨rfl, rfl, rfl, rfl, rfl⟩
  refine ⟨fun k => ?_, ?_, h.chain_nodup, h.run_nodup, fun k x => ?_, fun x => ?_, fun x hx => ?_,
    fun x hx => ?_, fun x hx => ?_, h5.trans h.no_panic, h4 ▸ h.pos⟩
  · rw [h1]
    exact (h.chain_linked k).congr fun x _ => (hother x).2
  · rw [h2]
    exact h.run_linked.congr fun x _ => (hother x).2
  · rw [(hother x).1]
    exact h.mem_chain k x
  · rw [hstat, h3, h.mem_run]
    split_ifs with hx
    · rw [hx, hs]
      exact iff_of_false (fun hc => nomatch hc.1) fun hc => nomatch hc.1
    · rfl
  · rw [(hother x).1] at hx
    rw [hstat]
    split_ifs
    · exact Or.inr rfl
    · exact h.waiting x hx
  · rw [h3] at hx
    have hxp : x ≠ p := by
      rintro rfl
      have := h.running x hx
      rw [hs] at this
      cases this
    rw [hstat, if_neg hxp]
    exact h.running x hx
  · rw [h4]
    by_cases hxp : x = p
    · rw [hxp]
      exact h.bound p (by rw [hs]; decide)
    · rw [hstat, if_neg hxp] at hx
      exact h.bound x hx

theorem Queues.stop {rp cp : ℕ} (hrp : s.current = some rp)
    (hcp : rp = cp ∨ (s.proc cp).p_stat = .SSLEEP) (pp : ℕ) (orphan : Bool) :
    ∃ chains' run', (s.stop rp cp pp orphan).Queues chains' run' := by
  unfold Slp.stop
  cases orphan with
  | true =>
    exact ⟨chains, run, h.giveUp hrp (fun _ => ⟨rfl, rfl⟩) fun _ hc => nomatch hc⟩
  | false =>
    obtain ⟨u, hu, hq⟩ : ∃ u, u = (if rp = cp then { s with current := none } else s) ∧
        (u.setProc cp fun x => { x with p_stat := .SSTOP }).Queues chains run := by
      refine ⟨_, rfl, ?_⟩
      split_ifs with hc
      · have := h.giveUp hrp (f := fun x => { x with p_stat := .SSTOP }) (fun _ => ⟨rfl, rfl⟩)
          fun _ hc => nomatch hc
        rw [hc] at this
        exact this
      · exact h.stopSleeping (hcp.resolve_left hc)
    rw [if_neg Bool.false_ne_true, ← hu]
    obtain ⟨c, r, hw, -⟩ := hq.wakeup pp
    exact ⟨c, r, hw⟩

/-- **The process that runs is put in front of a chain.** -/
theorem Queues.asleep {rp : ℕ} (hrp : s.current = some rp)
    (h0 : chan ≠ 0) (hk : k = sqhash chan)
    (hproc : ∀ x, (t.proc x).p_stat = (if x = rp then .SSLEEP else (s.proc x).p_stat) ∧
      (t.proc x).p_wchan = (if x = rp then chan else (s.proc x).p_wchan) ∧
      t.link x = (if x = rp then s.hsque k else s.link x))
    (hhsque : ∀ j, t.hsque j = if j = k then some rp else s.hsque j) (hrunq : t.runq = s.runq)
    (hcur : t.current = none) (hv : t.v_proc = s.v_proc) (hpanic : t.panicstr = s.panicstr) :
    t.Queues (update chains k (rp :: chains k)) run := by
  have hrun := h.running rp hrp
  have hw : (s.proc rp).p_wchan = 0 := h.wchan_eq_zero (by rw [hrun]; decide)
  have hnot : ∀ j, rp ∉ chains j := h.not_mem_chain hw
  have hnotr : rp ∉ run := fun hc => ((h.mem_run rp).mp hc).2 hrp
  have hkeep : ∀ x, x ≠ rp → t.link x = s.link x := fun x hx => by rw [(hproc x).2.2, if_neg hx]
  refine ⟨fun j => ?_, ?_, fun j => ?_, h.run_nodup, fun j x => ?_, fun x => ?_, fun x hx => ?_,
    fun x hx => ?_, fun x hx => ?_, hpanic.trans h.no_panic, hv ▸ h.pos⟩
  · rw [hhsque]
    split_ifs with hj
    · rw [hj, update_self]
      refine (h.chain_linked k).push (fun x hx => hkeep x fun hxp => hnot k (hxp ▸ hx)) ?_
      rw [(hproc rp).2.2, if_pos rfl]
    · rw [update_of_ne hj]
      exact (h.chain_linked j).congr fun x hx => hkeep x fun hxp => hnot j (hxp ▸ hx)
  · rw [hrunq]
    exact h.run_linked.congr fun x hx => hkeep x fun hxp => hnotr (hxp ▸ hx)
  · rw [update_apply]
    split_ifs with hj
    · exact nodup_cons.mpr ⟨hnot k, h.chain_nodup k⟩
    · exact h.chain_nodup j
  · rw [(hproc x).2.1]
    split_ifs with hx
    · rw [← hk, hx]
      rw [update_apply]
      split_ifs with hj
      · rw [hj]
        exact iff_of_true mem_cons_self ⟨h0, rfl⟩
      · exact iff_of_false (hnot j) fun hc => hj hc.2.symm
    · rw [← h.mem_chain]
      by_cases hj : j = k
      · rw [hj, update_self, mem_cons]
        exact or_iff_right hx
      · rw [update_of_ne hj]
  · rw [(hproc x).1, hcur, h.mem_run]
    split_ifs with hx
    · rw [hx]
      exact iff_of_false (fun hc => hc.2 hrp) fun hc => nomatch hc.1
    · refine and_congr_right fun _ => iff_of_true (fun hc => hx ?_) fun hc => nomatch hc
      rw [hrp] at hc
      exact (some_inj.mp hc).symm
  · rw [(hproc x).1]
    rw [(hproc x).2.1] at hx
    split_ifs with hxp
    · exact Or.inl rfl
    · rw [if_neg hxp] at hx
      exact h.waiting x hx
  · rw [hcur] at hx
    cases hx
  · rw [hv]
    by_cases hxp : x = rp
    · rw [hxp]
      exact h.bound rp (by rw [hrun]; decide)
    · rw [(hproc x).1, if_neg hxp] at hx
      exact h.bound x hx

theorem Queues.sleep {rp : ℕ} (hrp : s.current = some rp)
    (h0 : chan ≠ 0) (disp : ℕ) (intr : Bool) :
    ∃ chains', (s.sleep rp chan disp intr).Queues chains' run := by
  have hrun := h.running rp hrp
  have hw : (s.proc rp).p_wchan = 0 := h.wchan_eq_zero (by rw [hrun]; decide)
  unfold Slp.sleep
  rw [if_neg (by rw [h.no_panic]; exact Bool.false_ne_true)]
  dsimp only
  obtain ⟨k, hk⟩ : ∃ k, k = sqhash chan := ⟨_, rfl⟩
  obtain ⟨u, hu⟩ : ∃ u, u = s.setProc rp fun x =>
    { x with
      p_stat := .SSLEEP
      p_wchan := chan
      p_link := s.hsque k
      p_pri := min x.p_pri (disp &&& PMASK) } := ⟨_, rfl⟩
  rw [← hk, ← hu]
  obtain ⟨v, hv⟩ : ∃ v, v = { u with hsque := update u.hsque k (some rp) } := ⟨_, rfl⟩
  rw [← hv]
  have hvproc : ∀ x, (v.proc x).p_stat = (if x = rp then .SSLEEP else (s.proc x).p_stat) ∧
      (v.proc x).p_wchan = (if x = rp then chan else (s.proc x).p_wchan) ∧
      v.link x = (if x = rp then s.hsque k else s.link x) := by
    intro x
    have hx : v.proc = u.proc := by rw [hv]
    unfold link
    rw [hx, hu, proc_setProc]
    split_ifs <;> exact ⟨rfl, rfl, rfl⟩
  have hhead : ∀ j, v.hsque j = if j = k then some rp else s.hsque j := by
    intro j
    rw [hv, hu]
    exact update_apply ..
  obtain ⟨h1, h2, h3, h4⟩ : v.runq = s.runq ∧ v.current = s.current ∧ v.v_proc = s.v_proc ∧
      v.panicstr = s.panicstr := by
    rw [hv, hu]
    exact ⟨rfl, rfl, rfl, rfl⟩
  split_ifs
  · -- taken off again
    obtain ⟨w, hw'⟩ : ∃ w, w = v.setProc rp fun x => { x with p_wchan := 0, p_stat := .SRUN } :=
      ⟨_, rfl⟩
    have hwproc : ∀ x, w.proc x =
        if x = rp then { v.proc x with p_wchan := 0, p_stat := .SRUN } else v.proc x := fun x => by
      rw [hw']
      exact proc_setProc ..
    obtain ⟨g0, g1, g2, g3, g4⟩ : w.hsque = v.hsque ∧ w.runq = v.runq ∧ w.current = v.current ∧
        w.v_proc = v.v_proc ∧ w.panicstr = v.panicstr := by
      rw [hw']
      exact ⟨rfl, rfl, rfl, rfl, rfl⟩
    rw [← hw']
    have hne : ∀ x, x ≠ rp → w.proc x = v.proc x := fun x hx => by rw [hwproc, if_neg hx]
    refine ⟨chains, h.congr (fun x => ?_) (fun x => ?_) (fun x hx => ?_) ?_ (g1.trans h1)
      (g2.trans h2) (g3.trans h3) (g4.trans h4)⟩
    · by_cases hx : x = rp
      · rw [hx, hrun, hwproc, if_pos rfl]
      · rw [hne x hx, (hvproc x).1, if_neg hx]
    · by_cases hx : x = rp
      · rw [hx, hw, hwproc, if_pos rfl]
      · rw [hne x hx, (hvproc x).2.1, if_neg hx]
    · have hxp : x ≠ rp := by
        rintro rfl
        exact hx.elim (fun hc => hc hw) fun hc => ((h.mem_run x).mp hc).2 hrp
      refine (congrArg SlpProc.p_link (hne x hxp)).trans ?_
      exact (hvproc x).2.2.trans (if_neg hxp)
    · have hlink : (w.proc rp).p_link = s.hsque k := by
        rw [hwproc, if_pos rfl]
        exact (hvproc rp).2.2.trans (if_pos rfl)
      funext j
      refine (update_apply ..).trans ?_
      rw [hlink, g0, hhead]
      split_ifs with hj
      · rw [hj]
      · rfl
  · subst hv
    exact ⟨_, h.asleep hrp h0 hk hvproc hhead h1 rfl h3 h4⟩
  · refine ⟨_, h.asleep hrp h0 hk (fun x => ?_) hhead h1 rfl h3 h4⟩
    obtain ⟨g1, g2, g3⟩ := hvproc x
    rw [← g1, ← g2, ← g3]
    have hx := proc_setProc v rp (fun x => { x with SNWAKE := true }) x
    unfold link
    dsimp only
    rw [hx]
    split_ifs <;> exact ⟨rfl, rfl, rfl⟩

/-! ## `disp` -/

omit h in
/-- The loop of `disp` chooses a process of the run queue, and knows the one before. -/
theorem dispScan_spec {m : ℕ} {best : Option (ℕ × Option ℕ)} {q' : Option ℕ}
    (h : Linked s.link s.runq run) (hrun : run = l₁ ++ l₂)
    (hbest : ∀ p q, best = some (p, q) → ∃ l l', run = l ++ p :: l' ∧ q = l.getLast?)
    (hscan : s.dispScan m l₁.getLast? l₂.head? n best = some (p, q')) :
    ∃ l l', run = l ++ p :: l' ∧ q' = l.getLast? := by
  induction l₂ generalizing l₁ m n best with
  | nil =>
    cases m <;> exact hbest p q' hscan
  | cons a l₂ ih =>
    cases m with
    | zero => exact hbest p q' hscan
    | succ m =>
      have hnext : (s.proc a).p_link = l₂.head? := by
        rw [hrun] at h
        exact h.next_eq
      have hlast : (l₁ ++ [a]).getLast? = some a := List.getLast?_concat
      have hsplit : run = (l₁ ++ [a]) ++ l₂ := by
        rw [append_assoc]
        exact hrun
      rw [List.head?_cons, dispScan, hnext, ← hlast] at hscan
      split_ifs at hscan
      · exact ih hsplit hbest hscan
      · refine ih hsplit (fun p q hpq => ?_) hscan
        cases hpq
        exact ⟨l₁, l₂, hrun, rfl⟩
      · exact ih hsplit hbest hscan

/-- **A process is taken off the run queue and runs.** -/
theorem Queues.dispatch (hrun : run = l₁ ++ p :: l₂)
    (hcur : s.current = none)
    (hproc : ∀ x, (t.proc x).p_stat = (s.proc x).p_stat ∧
      (t.proc x).p_wchan = (s.proc x).p_wchan ∧
      t.link x = (if l₁.getLast? = some x then s.link p else s.link x))
    (hrunq : t.runq = if l₁ = [] then s.link p else s.runq) (hhsque : t.hsque = s.hsque)
    (hcurp : t.current = some p) (hv : t.v_proc = s.v_proc) (hpanic : t.panicstr = s.panicstr) :
    t.Queues chains (l₁ ++ l₂) := by
  have hlinked := h.run_linked
  have hnd := h.run_nodup
  have hmem : ∀ x, x ∈ run ↔ (s.proc x).p_stat = .SRUN := fun x => by
    rw [h.mem_run, hcur]
    exact and_iff_left fun hc => nomatch hc
  have hdisj := h.onQueues.disjoint
  rw [hrun] at hlinked hnd
  have hnext : s.link p = l₂.head? := hlinked.next_eq
  have hnd' := hnd
  rw [nodup_middle] at hnd'
  obtain ⟨hpl, hnd'⟩ := nodup_cons.mp hnd'
  refine ⟨fun k => ?_, ?_, h.chain_nodup, hnd', fun k x => ?_, fun x => ?_, fun x hx => ?_,
    fun x hx => ?_, fun x hx => ?_, hpanic.trans h.no_panic, hv ▸ h.pos⟩
  · rw [hhsque]
    refine (h.chain_linked k).congr fun x hx => ?_
    rw [(hproc x).2.2, if_neg fun hc => hdisj k x hx ?_]
    rw [hrun]
    exact mem_append_left _ (mem_of_getLast? hc)
  · refine hlinked.remove hnd ?_ (fun z hz => ?_) fun b _ hb => ?_
    · rw [hrunq]
      cases l₁ with
      | nil => rw [if_pos rfl, hnext, nil_append]
      | cons a l₁ =>
        rw [if_neg (cons_ne_nil a l₁)]
        exact hlinked.head?
    · rw [(hproc z).2.2, if_pos hz, hnext]
    · rw [(hproc b).2.2, if_neg hb]
  · rw [(hproc x).2.1]
    exact h.mem_chain k x
  · rw [(hproc x).1, hcurp, ← hmem, hrun, mem_append, mem_append, mem_cons]
    by_cases hx : x = p
    · rw [hx]
      refine iff_of_false (fun hc => hpl ?_) fun hc => hc.2 rfl
      exact mem_append.mpr hc
    · rw [or_iff_right hx]
      exact (and_iff_left fun hc => hx (some_inj.mp hc).symm).symm
  · rw [(hproc x).1]
    rw [(hproc x).2.1] at hx
    exact h.waiting x hx
  · rw [hcurp] at hx
    cases hx
    rw [(hproc p).1, ← hmem, hrun]
    exact mem_append_right _ mem_cons_self
  · rw [hv]
    rw [(hproc x).1] at hx
    exact h.bound x hx

theorem Queues.disp (hcur : s.current = none) :
    ∃ run', s.disp.Queues chains run' := by
  unfold Slp.disp
  cases hscan : s.dispScan s.v_proc none s.runq 128 none with
  | none => exact ⟨run, h⟩
  | some pq =>
    obtain ⟨p, q⟩ := pq
    rw [h.run_linked.head?] at hscan
    obtain ⟨l₁, l₂, hrun, hq⟩ := dispScan_spec h.run_linked
      (show run = [] ++ run from rfl) (fun _ _ hc => by cases hc) hscan
    dsimp only
    obtain ⟨u, hu⟩ : ∃ u, u = s.takeRun p q := ⟨_, rfl⟩
    rw [← hu]
    obtain ⟨huproc, hurunq, h1, h2, h3⟩ : (∀ x, (u.proc x).p_stat = (s.proc x).p_stat ∧
          (u.proc x).p_wchan = (s.proc x).p_wchan ∧
          u.link x = if l₁.getLast? = some x then s.link p else s.link x) ∧
        (u.runq = if l₁ = [] then s.link p else s.runq) ∧ u.hsque = s.hsque ∧
        u.v_proc = s.v_proc ∧ u.panicstr = s.panicstr := by
      rw [hu, hq]
      rcases eq_nil_or_concat l₁ with rfl | ⟨l, z, rfl⟩
      · exact ⟨fun x => ⟨rfl, rfl, (if_neg fun hc => nomatch hc).symm⟩, (if_pos rfl).symm, rfl, rfl,
          rfl⟩
      · rw [concat_eq_append, List.getLast?_concat]
        exact ⟨store_proc s 0 (some z) (s.proc p).p_link,
          (if_neg (append_ne_nil_of_right_ne_nil l (cons_ne_nil z []))).symm, rfl, rfl,
          rfl⟩
    refine ⟨_, h.dispatch hrun hcur (fun x => ?_) hurunq h1 rfl h2 h3⟩
    obtain ⟨g1, g2, g3⟩ := huproc x
    rw [← g1, ← g2, ← g3]
    have hx := proc_setProc u p (fun x => { x with SNWAKE := false }) x
    unfold link
    dsimp only
    rw [hx]
    split_ifs <;> exact ⟨rfl, rfl, rfl⟩

/-! ## Runs -/

theorem queues_step {e : SlpEvent} (hstep : s.step e = some t) :
    ∃ chains' run', t.Queues chains' run' := by
  cases e with
  | sleep chan disp intr =>
    obtain ⟨rp, hrp, rfl⟩ := map_eq_some_iff.mp hstep
    obtain ⟨c, hc⟩ := h.sleep hrp chan.pos.ne' disp intr
    exact ⟨c, run, hc⟩
  | wakeup chan =>
    cases hstep
    obtain ⟨c, r, hq, -⟩ := h.wakeup chan
    exact ⟨c, r, hq⟩
  | setrun p =>
    rw [step] at hstep
    split_ifs at hstep with hp
    cases hstep
    obtain ⟨c, r, hq, -⟩ := h.setrunN 2 hp
    exact ⟨c, r, hq⟩
  | psignal p kill held =>
    rw [step] at hstep
    split_ifs at hstep with hp
    cases hstep
    exact h.psignal hp kill held
  | stop cp pp orphan =>
    rw [step] at hstep
    cases hrp : s.current with
    | none =>
      rw [hrp] at hstep
      cases hstep
    | some rp =>
      rw [hrp] at hstep
      dsimp only at hstep
      split_ifs at hstep with hcp
      cases hstep
      exact h.stop hrp hcp pp orphan
  | qswtch =>
    obtain ⟨rp, hrp, rfl⟩ := map_eq_some_iff.mp hstep
    have hrun := h.running rp hrp
    have hw : (s.proc rp).p_wchan = 0 := h.wchan_eq_zero (by rw [hrun]; decide)
    refine ⟨chains, rp :: run, h.ready hw (h.bound rp (by rw [hrun]; decide))
      (fun hc => ((h.mem_run rp).mp hc).2 hrp) (fun x => ?_) rfl rfl (fun hc => nomatch hc)
      (fun x hx => ?_) rfl rfl⟩
    · have hproc := proc_setProc s rp (fun x => { x with p_link := s.runq }) x
      unfold link qswtch setrq
      dsimp only
      rw [hproc]
      split_ifs with hx
      · rw [hx]
        exact ⟨hrun, rfl, rfl⟩
      · exact ⟨rfl, rfl, rfl⟩
    · rw [hrp]
      exact iff_of_false (fun hc => nomatch hc) fun hc => hx (some_inj.mp hc).symm
  | disp =>
    rw [step] at hstep
    split_ifs at hstep with hcur
    cases hstep
    obtain ⟨r, hq⟩ := h.disp hcur
    exact ⟨chains, r, hq⟩
  | procdup cp =>
    rw [step] at hstep
    split_ifs at hstep with hcp
    cases hstep
    exact ⟨chains, _, h.setRun (h.wchan_eq_zero (by rw [hcp.2]; decide)) hcp.1
      (by rw [hcp.2]; decide)⟩
  | sched pri sload procio runout =>
    cases hstep
    exact ⟨chains, run, h.congr (fun _ => rfl) (fun _ => rfl) (fun _ _ => rfl) rfl rfl rfl rfl rfl⟩

end

/-- What `wakeup(chan)` does: it does not panic, whoever waits for `chan` is off the chain, and runs
if he slept. -/
structure Wakes (s : Slp) (chan : ℕ) : Prop where
  no_panic : (s.wakeup chan).panicstr = false
  off : ∀ p, (s.proc p).p_wchan = chan → ((s.wakeup chan).proc p).p_wchan = 0
  runs : ∀ p, (s.proc p).p_wchan = chan → (s.proc p).p_wchan ≠ 0 → (s.proc p).p_stat = .SSLEEP →
    ((s.wakeup chan).proc p).p_stat = .SRUN

/-- Process 0 runs in a table of `n + 1` slots. -/
def boot (n : ℕ) : Slp :=
  { v_proc := n + 1
    proc := fun p => ⟨if p = 0 then .SRUN else .NULL, 0, none, 0, false, true, false⟩
    hsque := fun _ => none
    runq := none
    current := some 0
    runout := 0
    panicstr := false }

theorem queues_boot (n : ℕ) : (boot n).Queues (fun _ => []) [] := by
  have hstat : ∀ p, ((boot n).proc p).p_stat = if p = 0 then .SRUN else .NULL := fun _ => rfl
  refine ⟨fun _ => rfl, rfl, fun _ => nodup_nil, nodup_nil, fun k p => ?_, fun p => ?_,
    fun p hp => absurd rfl hp, fun p hp => ?_, fun p hp => ?_, rfl, Nat.succ_pos n⟩
  · exact iff_of_false not_mem_nil fun hc => hc.1 rfl
  · refine iff_of_false not_mem_nil fun hc => hc.2 ?_
    have h1 := hc.1
    rw [hstat] at h1
    split_ifs at h1 with hp
    rw [hp]
    rfl
  · cases hp
    rfl
  · rw [hstat] at hp
    split_ifs at hp with h0
    · rw [h0]
      exact Nat.succ_pos n
    · exact absurd rfl hp

/-- **Processes are on exactly the queue that their state says**, in every state that is reached in
any order of the operations, and `wakeup` wakes all who wait. -/
theorem queues_run {es : List SlpEvent} (h : exec step (boot n) es = some t) :
    (∃ chains run, t.OnQueues chains run) ∧ ∀ chan, t.Wakes chan := by
  obtain ⟨chains, run, hq⟩ := exec_invariant'
    (P := fun s : Slp => ∃ chains run, s.Queues chains run)
    (fun s e t ⟨_, _, hs⟩ hstep => queues_step hs hstep) ⟨_, _, queues_boot n⟩ h
  refine ⟨⟨chains, run, hq.onQueues⟩, fun chan => ?_⟩
  obtain ⟨c, r, hwq, hw⟩ := hq.wakeup chan
  exact ⟨hwq.no_panic, fun p hp => (hw p hp).1, fun p hp h0 => (hw p hp).2 (hp ▸ h0)⟩

/-- Two processes sleep on one chain; one of them is stopped there, the third gives way. -/
def someSleeps : List SlpEvent :=
  [.procdup 1, .procdup 2, .sleep 8 30 false, .disp, .sleep 520 20 false, .disp,
    .stop 0 4096 false, .psignal 0 false false, .qswtch, .wakeup 520, .disp, .setrun 0,
    .sleep 8 30 true, .stop 2 8 true]

theorem queues_run_some : ∃ t, exec step (boot 4) someSleeps = some t ∧
    (∃ chains run, t.OnQueues chains run) ∧ ∀ chan, t.Wakes chan := by
  obtain ⟨t, ht⟩ : ∃ t, exec step (boot 4) someSleeps = some t :=
    isSome_iff_exists.mp (by decide +kernel)
  exact ⟨t, ht, queues_run ht⟩

end Slp

end Os
