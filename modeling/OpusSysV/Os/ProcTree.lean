import OpusSysV.Lib.Linked
import OpusSysV.Lib.Run
import Mathlib.Data.List.Perm.Subperm

/-!
# The tree of processes: `newproc`, `exit` and `freeproc`

Each process has a list of its children, from `p_child` along `p_sibling`, which fork puts a new
process in front of and from which `wait` takes those that have exited.  A process that exits hands
its children to process 1.

* `ProcTab` — the process table.
* `newproc`, `newprocDone`, `newprocFail` — fork up to where it may sleep, and its two ends.
* `exit`, `freeproc` — the others; they do not sleep while they change the lists.
* `ProcTab.step` — any order of these, by any processes.
* `IsTree` — the lists are those of the tree that `p_parent` describes.
* `tree_run` — the lists stay so as long as nothing was put in front of the child of a failing fork,
  and there is a process 1 for the children of those that exit.

`busy` is not in the source: the process that a process inside `newproc` is making.
-/

namespace Os

open Lib Function List Option

/-- `p_stat`, where `SRUN` stands for all states of a process that has not exited. -/
inductive PStat
  | NULL
  | SIDL
  | SRUN
  | SZOMB
  deriving DecidableEq

/-- The fields of `proc_t` that the tree is made of; processes are known by their slots. -/
structure TreeProc where
  p_stat : PStat
  p_pid : ℕ
  p_ppid : ℕ
  p_parent : Option ℕ
  p_child : Option ℕ
  p_sibling : Option ℕ
  deriving DecidableEq

def MAXPID : ℕ := 30000

/-- The table of `v_proc` slots; those from `ve_proc` on are free. -/
structure ProcTab where
  v_proc : ℕ
  ve_proc : ℕ
  mpid : ℕ
  proc : ℕ → TreeProc
  busy : ℕ → Option ℕ

namespace ProcTab

/-- Change one slot. -/
def setProc (s : ProcTab) (p : ℕ) (f : TreeProc → TreeProc) : ProcTab :=
  { s with proc := update s.proc p (f (s.proc p)) }

/-- The search of `newproc` for a process id that is not in use, for at most `n` numbers. -/
def nextPid (s : ProcTab) : ℕ → ℕ → Option ℕ
  | 0, _ => none
  | n + 1, mpid =>
    if MAXPID ≤ mpid + 1 then nextPid s n 0
    else if ∃ p < s.ve_proc, (s.proc p).p_stat ≠ .NULL ∧ (s.proc p).p_pid = mpid + 1 then
      nextPid s n (mpid + 1)
    else some (mpid + 1)

/-- The first free slot before `ve_proc`. -/
def freeSlot (s : ProcTab) : Option ℕ :=
  (List.range s.ve_proc).find? fun p => (s.proc p).p_stat = .NULL

/-- Behind the last slot before `ve_proc` that is in use. -/
def lastUsed (s : ProcTab) : ℕ :=
  match (List.range s.ve_proc).reverse.find? fun p => (s.proc p).p_stat ≠ .NULL with
  | none => 0
  | some p => p + 1

/-- "make proc entry for new proc", "link up to parent-child-sibling chain". -/
def procEntry (s : ProcTab) (pp cp mpid : ℕ) : ProcTab :=
  let s := s.setProc cp fun q =>
    { q with
      p_stat := .SIDL
      p_pid := mpid
      p_ppid := (s.proc pp).p_pid
      p_sibling := (s.proc pp).p_child
      p_parent := some pp }
  let s := s.setProc pp fun q => { q with p_child := some cp }
  { s with busy := update s.busy pp (some cp) }

/-- `newproc` up to where it may sleep; `limited` says whether the user has too many processes. -/
def newproc (s : ProcTab) (pp : ℕ) (limited : Bool) : Option ProcTab :=
  (s.nextPid (2 * MAXPID) s.mpid).map fun mpid =>
    let s := { s with mpid := mpid }
    match s.freeSlot, decide (s.v_proc ≤ s.ve_proc) with
    | none, true => s
    | slot, _ =>
      let cp := slot.getD s.ve_proc
      let s := { s with ve_proc := max (cp + 1) s.lastUsed }
      if limited then s else s.procEntry pp cp mpid

/-- `procdup` has succeeded. -/
def newprocDone (s : ProcTab) (pp cp : ℕ) : ProcTab :=
  { s.setProc cp fun q => { q with p_stat := .SRUN } with busy := update s.busy pp none }

/-- `procdup` has failed. -/
def newprocFail (s : ProcTab) (pp cp : ℕ) : ProcTab :=
  let s := s.setProc pp fun q => { q with p_child := (s.proc cp).p_sibling }
  let s := s.setProc cp fun q =>
    { q with
      p_parent := none
      p_sibling := none
      p_stat := .NULL
      p_ppid := 0 }
  { s with busy := update s.busy pp none }

/-- The loop of `exit` over the children of `p`, from `q` on. -/
def handOver (p : ℕ) : ℕ → ℕ → ProcTab → ProcTab
  | 0, _, s => s
  | n + 1, q, s =>
    let s := s.setProc q fun x => { x with p_ppid := 1, p_parent := some 1 }
    match (s.proc q).p_sibling with
    | some q => handOver p n q s
    | none =>
      let s := s.setProc q fun x => { x with p_sibling := (s.proc 1).p_child }
      let s := s.setProc 1 fun x => { x with p_child := (s.proc p).p_child }
      s.setProc p fun x => { x with p_child := none }

/-- `exit`, from where it hands over the children. -/
def exit (s : ProcTab) (p : ℕ) : ProcTab :=
  let s := match (s.proc p).p_child with
    | none => s
    | some q => handOver p s.v_proc q s
  s.setProc p fun x => { x with p_stat := .SZOMB }

/-- The loop of `freeproc`: the child, from `q` on, whose next sibling is `p`. -/
def findPrev (s : ProcTab) (p : ℕ) : ℕ → Option ℕ → Option ℕ
  | 0, _ => none
  | _, none => none
  | n + 1, some q => if (s.proc q).p_sibling = some p then some q
    else findPrev s p n (s.proc q).p_sibling

/-- `freeproc(p, flag)`. -/
def freeproc (s : ProcTab) (p : ℕ) : ProcTab :=
  let s := s.setProc p fun x => { x with p_stat := .NULL, p_pid := 0, p_ppid := 0 }
  match (s.proc p).p_parent with
  | none => s
  | some q =>
    if (s.proc q).p_child = some p then
      s.setProc q fun x => { x with p_child := (s.proc p).p_sibling }
    else
      match s.findPrev p s.v_proc (s.proc q).p_child with
      | none => s
      | some q => s.setProc q fun x => { x with p_sibling := (s.proc p).p_sibling }

end ProcTab

/-- What a process does. -/
inductive TreeEvent
  | newproc (pp : ℕ) (limited : Bool)
  | newprocDone (pp : ℕ)
  | newprocFail (pp : ℕ)
  | exit (p : ℕ)
  | freeproc (p z : ℕ)
  deriving DecidableEq

/-- One event.  A process that has not exited and is not inside `newproc` may fork, exit (but for
process 0) and free those of its children that have exited. -/
def ProcTab.step (s : ProcTab) : TreeEvent → Option ProcTab
  | .newproc pp limited =>
    if (s.proc pp).p_stat = .SRUN ∧ s.busy pp = none then s.newproc pp limited else none
  | .newprocDone pp => (s.busy pp).map fun cp => s.newprocDone pp cp
  | .newprocFail pp => (s.busy pp).map fun cp => s.newprocFail pp cp
  | .exit p =>
    if (s.proc p).p_stat = .SRUN ∧ s.busy p = none ∧ p ≠ 0 then some (s.exit p) else none
  | .freeproc p z =>
    if (s.proc p).p_stat = .SRUN ∧ s.busy p = none ∧ p ≠ 0 ∧ (s.proc z).p_stat = .SZOMB ∧
        (s.proc z).p_parent = some p then some (s.freeproc z)
    else none

/-! ## The tree -/

namespace ProcTab

variable {s t : ProcTab} {kids : ℕ → List ℕ} {p q z c pp cp n m : ℕ} {l l₁ l₂ : List ℕ}

/-- The next process on a list of children. -/
def sibling (s : ProcTab) (q : ℕ) : Option ℕ := (s.proc q).p_sibling

/-- A slot is in use. -/
def Used (s : ProcTab) (p : ℕ) : Prop := (s.proc p).p_stat ≠ .NULL

/-- The children of every process are on its list and on no other, and their parent is one that has
not exited, whose process id they have; process ids are different. -/
structure IsTree (s : ProcTab) (kids : ℕ → List ℕ) : Prop where
  linked : ∀ p, Linked s.sibling (s.proc p).p_child (kids p)
  nodup : ∀ p, (kids p).Nodup
  mem : ∀ p c, c ∈ kids p ↔ c ≠ 0 ∧ s.Used c ∧ (s.proc c).p_parent = some p
  parent : ∀ c, c ≠ 0 → s.Used c → ∃ p, (s.proc c).p_parent = some p ∧
    (s.proc p).p_stat = .SRUN ∧ (s.proc c).p_ppid = (s.proc p).p_pid
  pids : ∀ a b, s.Used a → s.Used b → (s.proc a).p_pid = (s.proc b).p_pid → a = b
  used : ∀ p, s.Used p → p < s.ve_proc
  bound : s.ve_proc ≤ s.v_proc
  root : (s.proc 0).p_stat = .SRUN
  busy : ∀ p c, s.busy p = some c →
    c ≠ 0 ∧ (s.proc c).p_stat = .SIDL ∧ (s.proc c).p_parent = some p

theorem used_of_stat {a : PStat} (h : (s.proc p).p_stat = a) (ha : a ≠ .NULL) : s.Used p := by
  unfold Used
  rwa [h]

section

variable (h : s.IsTree kids)

include h

/-- Only a process that has not exited has children. -/
theorem IsTree.kids_eq_nil (hp : (s.proc p).p_stat ≠ .SRUN) :
    kids p = [] := by
  refine eq_nil_iff_forall_not_mem.mpr fun c hc => ?_
  obtain ⟨h0, hu, hpar⟩ := (h.mem p c).mp hc
  obtain ⟨p', hp', hrun, -⟩ := h.parent c h0 hu
  rw [hpar] at hp'
  cases hp'
  exact hp hrun

theorem IsTree.child_eq_none (hp : (s.proc p).p_stat ≠ .SRUN) :
    (s.proc p).p_child = none := by
  have := h.linked p
  rw [h.kids_eq_nil hp] at this
  exact this

theorem IsTree.mem_unique (hc : c ∈ kids p) (hc' : c ∈ kids q) : p = q := by
  have h1 := ((h.mem p c).mp hc).2.2
  have h2 := ((h.mem q c).mp hc').2.2
  exact some_inj.mp (h1.symm.trans h2)

theorem IsTree.length_le (p : ℕ) : (kids p).length ≤ s.v_proc := by
  have hsub : kids p ⊆ List.range s.v_proc := fun c hc =>
    mem_range.mpr (Nat.lt_of_lt_of_le (h.used c ((h.mem p c).mp hc).2.1) h.bound)
  have := (subperm_of_subset (h.nodup p) hsub).length_le
  rwa [length_range] at this

/-! ## `newproc` -/

omit h in
theorem nextPid_fresh {mpid : ℕ} (h : s.nextPid n mpid = some m) :
    ∀ p < s.ve_proc, s.Used p → (s.proc p).p_pid ≠ m := by
  induction n generalizing mpid with
  | zero => cases h
  | succ n ih =>
    rw [nextPid] at h
    split_ifs at h with h1 h2
    · exact ih h
    · exact ih h
    · cases h
      exact fun p hp hu heq => h2 ⟨p, hp, hu, heq⟩

omit h in
theorem lastUsed_spec (s : ProcTab) :
    (∀ p < s.ve_proc, s.Used p → p < s.lastUsed) ∧ s.lastUsed ≤ s.ve_proc := by
  unfold lastUsed
  cases hf : (List.range s.ve_proc).reverse.find? fun p => (s.proc p).p_stat ≠ .NULL with
  | none =>
    refine ⟨fun p hp hu => ?_, Nat.zero_le _⟩
    have := List.find?_eq_none.mp hf p (mem_reverse.mpr (mem_range.mpr hp))
    exact absurd (decide_eq_true (p := (s.proc p).p_stat ≠ .NULL) hu) this
  | some z =>
    have hz := mem_range.mp (mem_reverse.mp (mem_of_find?_eq_some hf))
    refine ⟨fun p hp hu => ?_, hz⟩
    dsimp only
    by_contra hlt
    -- a slot in use behind the one that was found
    obtain ⟨-, as, bs, happ, hall⟩ := List.find?_eq_some_iff_append.mp hf
    have hmem : p ∈ as := by
      have hp' : p ∈ as ++ z :: bs := by
        rw [← happ]
        exact mem_reverse.mpr (mem_range.mpr hp)
      rcases mem_append.mp hp' with h | h
      · exact h
      · have hsort : (as ++ z :: bs).Pairwise (· > ·) := by
          rw [← happ, pairwise_reverse]
          exact pairwise_lt_range
        have hzb := (pairwise_cons.mp (pairwise_append.mp hsort).2.1).1
        rcases mem_cons.mp h with rfl | h
        · omega
        · have := hzb p h
          omega
    have := hall p hmem
    rw [Bool.not_eq_true', decide_eq_false_iff_not] at this
    exact this hu

omit h in
theorem freeSlot_spec (h : s.freeSlot = some p) : p < s.ve_proc ∧ ¬ s.Used p := by
  unfold freeSlot at h
  have h1 := mem_range.mp (mem_of_find?_eq_some h)
  have h2 := List.find?_some h
  exact ⟨h1, not_not_intro (of_decide_eq_true h2)⟩

/-- **A new process is put in front of the children of its parent.** -/
theorem IsTree.push (hcp : ¬ s.Used cp) (hpp : (s.proc pp).p_stat = .SRUN)
    (hpid : ∀ p, s.Used p → (s.proc p).p_pid ≠ m)
    (hch : ∀ x, (t.proc x).p_child = if x = pp then some cp else (s.proc x).p_child)
    (hsib : ∀ x, t.sibling x = if x = cp then (s.proc pp).p_child else s.sibling x)
    (hst : ∀ x, (t.proc x).p_stat = if x = cp then .SIDL else (s.proc x).p_stat)
    (hpar : ∀ x, (t.proc x).p_parent = if x = cp then some pp else (s.proc x).p_parent)
    (hppid : ∀ x, (t.proc x).p_ppid = if x = cp then (s.proc pp).p_pid else (s.proc x).p_ppid)
    (hpids : ∀ x, (t.proc x).p_pid = if x = cp then m else (s.proc x).p_pid)
    (hve : cp < t.ve_proc ∧ (∀ p, s.Used p → p < t.ve_proc) ∧ t.ve_proc ≤ t.v_proc)
    (hbusy : t.busy = update s.busy pp (some cp)) :
    t.IsTree (update kids pp (cp :: kids pp)) := by
  have hne : pp ≠ cp := fun hc => hcp (used_of_stat (hc ▸ hpp) (by decide))
  have h0 : cp ≠ 0 := fun hc => hcp (used_of_stat (hc ▸ h.root) (by decide))
  have hout : ∀ p, cp ∉ kids p := fun p hc => hcp ((h.mem p cp).mp hc).2.1
  have husedcp : t.Used cp := used_of_stat ((hst cp).trans (if_pos rfl)) (by decide)
  have hused : ∀ x, x ≠ cp → (t.Used x ↔ s.Used x) := fun x hx => by
    unfold Used
    rw [hst, if_neg hx]
  have hkeep : ∀ p, ∀ b ∈ kids p, t.sibling b = s.sibling b := fun p b hb => by
    have hc : b ≠ cp := fun hc => hout p (hc ▸ hb)
    rw [hsib, if_neg hc]
  refine ⟨fun p => ?_, fun p => ?_, fun p c => ?_, fun c hc0 hcu => ?_, fun a b ha hb hab => ?_,
    fun p hp => ?_, hve.2.2, ?_, fun p c hpc => ?_⟩
  · rw [update_apply]
    split_ifs with hp
    · rw [hp, hch, if_pos rfl]
      refine Linked.push (h.linked pp) (hkeep pp) ?_
      rw [hsib, if_pos rfl]
    · rw [hch, if_neg hp]
      exact (h.linked p).congr (hkeep p)
  · rw [update_apply]
    split_ifs with hp
    · exact nodup_cons.mpr ⟨hout pp, h.nodup pp⟩
    · exact h.nodup p
  · by_cases hc : c = cp
    · subst hc
      rw [hpar, if_pos rfl, some_inj]
      rw [update_apply]
      split_ifs with hp
      · rw [hp]
        exact iff_of_true mem_cons_self ⟨h0, husedcp, rfl⟩
      · exact iff_of_false (hout p) fun hx => hp hx.2.2.symm
    · rw [hpar, if_neg hc, hused c hc, ← h.mem]
      rw [update_apply]
      split_ifs with hp
      · rw [hp, mem_cons]
        exact or_iff_right hc
      · rfl
  · by_cases hc : c = cp
    · subst hc
      refine ⟨pp, by rw [hpar, if_pos rfl], by rw [hst, if_neg hne, hpp], ?_⟩
      rw [hppid, if_pos rfl, hpids, if_neg hne]
    · obtain ⟨p, h1, h2, h3⟩ := h.parent c hc0 ((hused c hc).mp hcu)
      have hp : p ≠ cp := fun hp => hcp (used_of_stat (hp ▸ h2) (by decide))
      refine ⟨p, by rw [hpar, if_neg hc, h1], by rw [hst, if_neg hp, h2], ?_⟩
      rw [hppid, if_neg hc, hpids, if_neg hp, h3]
  · by_cases hac : a = cp
    · by_cases hbc : b = cp
      · rw [hac, hbc]
      · rw [hpids, hpids, if_pos hac, if_neg hbc] at hab
        exact absurd hab.symm (hpid b ((hused b hbc).mp hb))
    · by_cases hbc : b = cp
      · rw [hpids, hpids, if_neg hac, if_pos hbc] at hab
        exact absurd hab (hpid a ((hused a hac).mp ha))
      · rw [hpids, hpids, if_neg hac, if_neg hbc] at hab
        exact h.pids a b ((hused a hac).mp ha) ((hused b hbc).mp hb) hab
  · by_cases hpc : p = cp
    · rw [hpc]
      exact hve.1
    · exact hve.2.1 p ((hused p hpc).mp hp)
  · rw [hst, if_neg h0.symm]
    exact h.root
  · rw [hbusy] at hpc
    rw [update_apply] at hpc
    split_ifs at hpc with hp
    · cases hpc
      exact ⟨h0, by rw [hst, if_pos rfl], by rw [hpar, if_pos rfl, hp]⟩
    · obtain ⟨h1, h2, h3⟩ := h.busy p c hpc
      have hc : c ≠ cp := fun hc => hcp (used_of_stat (hc ▸ h2) (by decide))
      exact ⟨h1, by rw [hst, if_neg hc, h2], by rw [hpar, if_neg hc, h3]⟩

/-- The process ids and the end of the table are only hints. -/
theorem IsTree.hints (mpid : ℕ) (ve : ℕ) (hve : ∀ p, s.Used p → p < ve)
    (hb : ve ≤ s.v_proc) : ({ s with mpid := mpid, ve_proc := ve } : ProcTab).IsTree kids :=
  ⟨h.linked, h.nodup, h.mem, h.parent, h.pids, hve, hb, h.root, h.busy⟩

theorem tree_procEntry (hcp : ¬ s.Used cp) (hlt : cp < s.ve_proc)
    (hpp : (s.proc pp).p_stat = .SRUN) (hpid : ∀ p, s.Used p → (s.proc p).p_pid ≠ m) :
    (s.procEntry pp cp m).IsTree (update kids pp (cp :: kids pp)) := by
  have hne : pp ≠ cp := fun hc => hcp (used_of_stat (hc ▸ hpp) (by decide))
  have hproc : ∀ x, (s.procEntry pp cp m).proc x =
      if x = cp then
        { s.proc cp with
          p_stat := .SIDL
          p_pid := m
          p_ppid := (s.proc pp).p_pid
          p_sibling := (s.proc pp).p_child
          p_parent := some pp }
      else if x = pp then { s.proc pp with p_child := some cp }
      else s.proc x := by
    intro x
    unfold procEntry setProc
    dsimp only
    by_cases hx : x = pp
    · rw [hx, update_self, update_of_ne hne, if_neg hne, if_pos rfl]
    · rw [update_of_ne hx, if_neg hx, update_apply]
  refine h.push (m := m) hcp hpp hpid (fun x => ?_) (fun x => ?_) (fun x => ?_) (fun x => ?_)
    (fun x => ?_) (fun x => ?_) ⟨hlt, h.used, h.bound⟩ rfl
  · rw [hproc]
    by_cases hc : x = cp
    · rw [if_pos hc, hc, if_neg (Ne.symm hne)]
    · rw [if_neg hc]
      split_ifs <;> rfl
  · unfold sibling
    rw [hproc]
    split
    · rfl
    · split_ifs with hp
      · rw [hp]
      · rfl
  all_goals
    rw [hproc]
    split
    · rfl
    · split_ifs with hp
      · rw [hp]
      · rfl

theorem tree_newproc {limited : Bool} (hpp : (s.proc pp).p_stat = .SRUN)
    (hnew : s.newproc pp limited = some t) : ∃ kids', t.IsTree kids' := by
  obtain ⟨m, hm, rfl⟩ := map_eq_some_iff.mp hnew
  have hfresh := nextPid_fresh hm
  have hpid : ∀ p, s.Used p → (s.proc p).p_pid ≠ m := fun p hu => hfresh p (h.used p hu) hu
  obtain ⟨hlast, hle⟩ := s.lastUsed_spec
  have hb := h.bound
  -- the rest, once there is a slot
  have hrest : ∀ cp, ¬ s.Used cp → cp < s.v_proc →
      ∃ kids', (if limited then ({ s with mpid := m, ve_proc := max (cp + 1) s.lastUsed } : ProcTab)
        else ({ s with mpid := m, ve_proc := max (cp + 1) s.lastUsed } : ProcTab).procEntry pp cp
          m).IsTree kids' := by
    intro cp hcp hlt
    have hs := h.hints m (max (cp + 1) s.lastUsed)
      (fun p hu => Nat.lt_of_lt_of_le (hlast p (h.used p hu) hu) (Nat.le_max_right ..)) (by omega)
    cases limited with
    | true => exact ⟨kids, hs⟩
    | false => exact ⟨_, tree_procEntry hs hcp (Nat.le_max_left ..) hpp hpid⟩
  cases hf : s.freeSlot with
  | some cp =>
    obtain ⟨h1, h2⟩ := freeSlot_spec hf
    obtain ⟨kids', hk⟩ := hrest cp h2 (by omega)
    have hf' : ({ s with mpid := m } : ProcTab).freeSlot = some cp := hf
    refine ⟨kids', ?_⟩
    dsimp only
    rw [hf']
    exact hk
  | none =>
    by_cases hfull : s.v_proc ≤ s.ve_proc
    · have hf' : ({ s with mpid := m } : ProcTab).freeSlot = none := hf
      refine ⟨kids, ?_⟩
      dsimp only
      rw [hf', decide_eq_true hfull]
      exact h.hints m _ h.used h.bound
    · obtain ⟨kids', hk⟩ := hrest s.ve_proc (fun hu => Nat.lt_irrefl _ (h.used _ hu)) (by omega)
      have hf' : ({ s with mpid := m } : ProcTab).freeSlot = none := hf
      refine ⟨kids', ?_⟩
      dsimp only
      rw [hf', decide_eq_false hfull]
      exact hk

/-! ## The ends of `newproc` -/

theorem tree_newprocDone (hb : s.busy pp = some cp) :
    (s.newprocDone pp cp).IsTree kids := by
  obtain ⟨h0, hidl, hpar⟩ := h.busy pp cp hb
  have hproc : ∀ x, (s.newprocDone pp cp).proc x =
      if x = cp then { s.proc cp with p_stat := .SRUN } else s.proc x := fun x =>
    update_apply ..
  have hother : ∀ x, (s.newprocDone pp cp).proc x =
      { s.proc x with p_stat := ((s.newprocDone pp cp).proc x).p_stat } := by
    intro x
    rw [hproc]
    split_ifs with hx
    · rw [hx]
    · rfl
  have hused : ∀ x, (s.newprocDone pp cp).Used x ↔ s.Used x := by
    intro x
    unfold Used
    rw [hproc]
    split_ifs with hx
    · rw [hx, hidl]
      exact iff_of_true (fun h => nomatch h) (by decide)
    · rfl
  have hrun : ∀ x, (s.proc x).p_stat = .SRUN → ((s.newprocDone pp cp).proc x).p_stat = .SRUN := by
    intro x hx
    rw [hproc]
    split_ifs
    · rfl
    · exact hx
  refine ⟨fun p => ?_, h.nodup, fun p c => ?_, fun c hc hu => ?_, fun a b ha hb' hab => ?_,
    fun p hu => h.used p ((hused p).mp hu), h.bound, hrun 0 h.root, fun p c hpc => ?_⟩
  · rw [hother]
    refine (h.linked p).congr fun b _ => ?_
    unfold sibling
    rw [hother]
  · rw [hused, hother]
    exact h.mem p c
  · obtain ⟨p, h1, h2, h3⟩ := h.parent c hc ((hused c).mp hu)
    refine ⟨p, ?_, hrun p h2, ?_⟩
    · rw [hother]
      exact h1
    · rw [hother, hother p]
      exact h3
  · rw [hother, hother b] at hab
    exact h.pids a b ((hused a).mp ha) ((hused b).mp hb') hab
  · have hbusy : (s.newprocDone pp cp).busy = update s.busy pp none := rfl
    rw [hbusy] at hpc
    have hpp : p ≠ pp := by
      rintro rfl
      rw [update_self] at hpc
      cases hpc
    rw [update_of_ne hpp] at hpc
    obtain ⟨h1, h2, h3⟩ := h.busy p c hpc
    have hc : c ≠ cp := by
      rintro rfl
      rw [hpar] at h3
      exact hpp (some_inj.mp h3).symm
    rw [hproc, if_neg hc]
    exact ⟨h1, h2, h3⟩

/-- **A slot is taken off the table**: the list of its parent is without it, nobody has it as a
parent, and other fields of other slots are as they were. -/
theorem IsTree.drop (hz : z ≠ 0) (hzp : (s.proc z).p_parent = some q)
    (hzs : (s.proc z).p_stat ≠ .SRUN) (hkids : kids q = l₁ ++ z :: l₂)
    (hlinked : Linked t.sibling (t.proc q).p_child (l₁ ++ l₂))
    (hch : ∀ x, x ≠ q → (t.proc x).p_child = (s.proc x).p_child)
    (hsib : ∀ x, x ∉ kids q → t.sibling x = s.sibling x)
    (hst : ∀ x, (t.proc x).p_stat = if x = z then .NULL else (s.proc x).p_stat)
    (hpar : ∀ x, x ≠ z → (t.proc x).p_parent = (s.proc x).p_parent)
    (hppid : ∀ x, x ≠ z → (t.proc x).p_ppid = (s.proc x).p_ppid)
    (hpid : ∀ x, x ≠ z → (t.proc x).p_pid = (s.proc x).p_pid)
    (hve : t.ve_proc = s.ve_proc) (hv : t.v_proc = s.v_proc)
    (hbusy : ∀ p c, t.busy p = some c → s.busy p = some c ∧ c ≠ z) :
    t.IsTree (update kids q (l₁ ++ l₂)) := by
  have hnd := h.nodup q
  rw [hkids, nodup_middle] at hnd
  obtain ⟨hzl, hnd⟩ := nodup_cons.mp hnd
  have hzq : z ∈ kids q := by
    rw [hkids]
    exact mem_append_right _ mem_cons_self
  have hused : ∀ x, t.Used x ↔ s.Used x ∧ x ≠ z := fun x => by
    unfold Used
    rw [hst]
    split_ifs with hx
    · exact iff_of_false (fun h => h rfl) fun h => h.2 hx
    · exact (and_iff_left hx).symm
  have hmemq : ∀ c, c ∈ l₁ ++ l₂ ↔ c ∈ kids q ∧ c ≠ z := fun c => by
    rw [hkids, mem_append, mem_append, mem_cons]
    constructor
    · rintro (hc | hc)
      · exact ⟨Or.inl hc, fun hcz => hzl (mem_append_left _ (hcz ▸ hc))⟩
      · exact ⟨Or.inr (Or.inr hc), fun hcz => hzl (mem_append_right _ (hcz ▸ hc))⟩
    · rintro ⟨hc | hc | hc, hcz⟩
      · exact Or.inl hc
      · exact absurd hc hcz
      · exact Or.inr hc
  refine ⟨fun p => ?_, fun p => ?_, fun p c => ?_, fun c hc0 hcu => ?_, fun a b ha hb hab => ?_,
    fun p hp => ?_, ?_, ?_, fun p c hpc => ?_⟩
  · rw [update_apply]
    split_ifs with hp
    · rw [hp]
      exact hlinked
    · rw [hch p hp]
      exact (h.linked p).congr fun b hb => hsib b fun hbq => hp (h.mem_unique hb hbq)
  · rw [update_apply]
    split_ifs with hp
    · exact hnd
    · exact h.nodup p
  · rw [hused]
    by_cases hc : c = z
    · subst hc
      refine iff_of_false (fun hmem => ?_) fun hx => hx.2.1.2 rfl
      rw [update_apply] at hmem
      split_ifs at hmem with hp
      · exact hzl hmem
      · exact hp (h.mem_unique hmem hzq)
    · rw [hpar c hc, and_iff_left hc, ← h.mem]
      by_cases hp : p = q
      · rw [hp, update_self, hmemq, and_iff_left hc]
      · rw [update_of_ne hp]
  · obtain ⟨hcu, hcz⟩ := (hused c).mp hcu
    obtain ⟨p, h1, h2, h3⟩ := h.parent c hc0 hcu
    have hpz : p ≠ z := fun hp => hzs (hp ▸ h2)
    refine ⟨p, (hpar c hcz).trans h1, ?_, ?_⟩
    · rw [hst, if_neg hpz, h2]
    · rw [hppid c hcz, hpid p hpz, h3]
  · obtain ⟨ha, haz⟩ := (hused a).mp ha
    obtain ⟨hb, hbz⟩ := (hused b).mp hb
    rw [hpid a haz, hpid b hbz] at hab
    exact h.pids a b ha hb hab
  · rw [hve]
    exact h.used p ((hused p).mp hp).1
  · rw [hve, hv]
    exact h.bound
  · rw [hst, if_neg (Ne.symm hz)]
    exact h.root
  · obtain ⟨hpc, hcz⟩ := hbusy p c hpc
    obtain ⟨h1, h2, h3⟩ := h.busy p c hpc
    exact ⟨h1, by rw [hst, if_neg hcz, h2], by rw [hpar c hcz, h3]⟩

theorem tree_newprocFail (hb : s.busy pp = some cp)
    (hfirst : (s.proc pp).p_child = some cp) : ∃ kids', (s.newprocFail pp cp).IsTree kids' := by
  obtain ⟨h0, hidl, hpar⟩ := h.busy pp cp hb
  have hlink := h.linked pp
  rw [hfirst] at hlink
  obtain ⟨l, hl, hrest⟩ := hlink.pop
  have hne : pp ≠ cp := by
    rintro rfl
    obtain ⟨p, h1, h2, -⟩ := h.parent pp h0 (used_of_stat hidl (by decide))
    rw [hpar] at h1
    cases h1
    rw [hidl] at h2
    cases h2
  have hcl : cp ∉ l := by
    have := h.nodup pp
    rw [hl] at this
    exact (nodup_cons.mp this).1
  have hproc : ∀ x, (s.newprocFail pp cp).proc x =
      if x = cp then
        { s.proc cp with
          p_parent := none
          p_sibling := none
          p_stat := .NULL
          p_ppid := 0 }
      else if x = pp then { s.proc pp with p_child := (s.proc cp).p_sibling }
      else s.proc x := by
    intro x
    unfold newprocFail setProc
    dsimp only
    by_cases hx : x = cp
    · rw [hx, update_self, update_of_ne (Ne.symm hne), if_pos rfl]
    · rw [update_of_ne hx, if_neg hx, update_apply]
  -- what a field is that neither of the two changes
  have hfield : ∀ {α : Type} (f : TreeProc → α), (∀ x c, f { x with p_child := c } = f x) →
      ∀ x, x ≠ cp → f ((s.newprocFail pp cp).proc x) = f (s.proc x) := by
    intro α f hf x hx
    rw [hproc, if_neg hx]
    split_ifs with hp
    · rw [hf, hp]
    · rfl
  have hsib : ∀ x, x ≠ cp → (s.newprocFail pp cp).sibling x = s.sibling x :=
    hfield TreeProc.p_sibling fun _ _ => rfl
  refine ⟨_, h.drop h0 hpar (by rw [hidl]; decide)
    (show kids pp = [] ++ cp :: l from hl) ?_ (fun x hx => ?_)
    (fun x hx => hsib x fun hxc => hx (hxc ▸ hl ▸ mem_cons_self)) (fun x => ?_)
    (hfield TreeProc.p_parent fun _ _ => rfl) (hfield TreeProc.p_ppid fun _ _ => rfl)
    (hfield TreeProc.p_pid fun _ _ => rfl) rfl rfl fun p c hpc => ?_⟩
  · rw [hproc, if_neg hne, if_pos rfl]
    exact hrest.congr fun b hb => hsib b fun hbc => hcl (hbc ▸ hb)
  · rw [hproc, if_neg hx]
    split_ifs with hxc
    · rw [hxc]
    · rfl
  · by_cases hx : x = cp
    · rw [hproc, if_pos hx, if_pos hx]
    · rw [if_neg hx]
      exact hfield TreeProc.p_stat (fun _ _ => rfl) x hx
  · have hbusy : (s.newprocFail pp cp).busy = update s.busy pp none := rfl
    rw [hbusy] at hpc
    have hpp : p ≠ pp := by
      rintro rfl
      rw [update_self] at hpc
      cases hpc
    rw [update_of_ne hpp] at hpc
    refine ⟨hpc, fun hc => hpp ?_⟩
    have h3 := (h.busy p c hpc).2.2
    rw [hc, hpar] at h3
    exact (some_inj.mp h3).symm

/-! ## `freeproc` -/

omit h in
/-- The loop of `freeproc` finds the child before. -/
theorem findPrev_spec {first : Option ℕ} (h : Linked s.sibling first (l₁ ++ z :: l₂))
    (hnd : (l₁ ++ z :: l₂).Nodup) (hl : l₁ ≠ []) (hn : l₁.length ≤ n) :
    s.findPrev z n first = l₁.getLast? := by
  induction l₁ generalizing first n with
  | nil => exact absurd rfl hl
  | cons a l₁ ih =>
    obtain ⟨n, rfl⟩ : ∃ m, n = m + 1 := ⟨n - 1, by
      rw [length_cons] at hn
      omega⟩
    obtain ⟨rfl, hrest⟩ := h
    have hnd' := (nodup_cons.mp hnd).2
    rw [findPrev]
    cases l₁ with
    | nil =>
      rw [if_pos (show (s.proc a).p_sibling = some z from hrest.1)]
      rfl
    | cons b l₁ =>
      have hb : (s.proc a).p_sibling = some b := hrest.1
      have hbz : b ≠ z := by
        rintro rfl
        exact (nodup_cons.mp hnd').1 (mem_append_right _ mem_cons_self)
      rw [if_neg fun h => hbz (some_inj.mp (hb.symm.trans h)), List.getLast?_cons_cons]
      exact ih hrest hnd' (cons_ne_nil b l₁) (Nat.le_of_succ_le_succ hn)

theorem tree_freeproc (hz : (s.proc z).p_stat = .SZOMB)
    (hpar : (s.proc z).p_parent = some q) : ∃ kids', (s.freeproc z).IsTree kids' := by
  have h0 : z ≠ 0 := by
    rintro rfl
    rw [h.root] at hz
    cases hz
  have hmem : z ∈ kids q := (h.mem q z).mpr ⟨h0, used_of_stat hz (by decide), hpar⟩
  obtain ⟨l₁, l₂, hl⟩ := append_of_mem hmem
  have hqz : q ≠ z := by
    rintro rfl
    have := h.kids_eq_nil (p := q) (by rw [hz]; decide)
    rw [this] at hmem
    cases hmem
  have hnd := h.nodup q
  have hlink := h.linked q
  rw [hl] at hnd hlink
  obtain ⟨u, hu⟩ : ∃ u, u = s.setProc z fun x =>
    { x with p_stat := .NULL, p_pid := 0, p_ppid := 0 } := ⟨_, rfl⟩
  have huz : ∀ x, x ≠ z → u.proc x = s.proc x := fun x hx => by
    rw [hu]
    exact update_of_ne hx ..
  have huself : u.proc z = { s.proc z with p_stat := .NULL, p_pid := 0, p_ppid := 0 } := by
    rw [hu]
    exact update_self ..
  have husib : u.sibling = s.sibling := by
    funext x
    unfold sibling
    by_cases hx : x = z
    · rw [hx, huself]
    · rw [huz x hx]
  have huch : ∀ x, (u.proc x).p_child = (s.proc x).p_child := fun x => by
    by_cases hx : x = z
    · rw [hx, huself]
    · rw [huz x hx]
  have hbusy : u.busy = s.busy := by rw [hu]; rfl
  -- the process that is made to skip `z`, and the field that names the next one
  obtain ⟨r, f, hf, hfree, hr⟩ : ∃ r, ∃ f : TreeProc → TreeProc,
      (∀ x, (f x).p_stat = x.p_stat ∧ (f x).p_parent = x.p_parent ∧ (f x).p_ppid = x.p_ppid ∧
        (f x).p_pid = x.p_pid) ∧ s.freeproc z = u.setProc r f ∧
      ((l₁ = [] ∧ r = q ∧ ∀ x, f x = { x with p_child := s.sibling z }) ∨
        (l₁.getLast? = some r ∧ ∀ x, f x = { x with p_sibling := s.sibling z })) := by
    have hpar' : (u.proc z).p_parent = some q := by
      rw [huself]
      exact hpar
    have hsz : (u.proc z).p_sibling = s.sibling z := congrFun husib z
    unfold freeproc
    rw [← hu]
    dsimp only
    rw [hpar']
    dsimp only
    rw [hsz]
    cases l₁ with
    | nil =>
      rw [if_pos ((huch q).trans hlink.1)]
      exact ⟨q, fun x => { x with p_child := s.sibling z }, fun _ => ⟨rfl, rfl, rfl, rfl⟩, rfl,
        Or.inl ⟨rfl, rfl, fun _ => rfl⟩⟩
    | cons a l₁ =>
      have haz : a ≠ z := by
        rintro rfl
        exact (nodup_cons.mp hnd).1 (mem_append_right _ mem_cons_self)
      have hfirst := (huch q).trans hlink.1
      rw [if_neg fun hc => haz (some_inj.mp (hfirst.symm.trans hc))]
      have hfind : u.findPrev z u.v_proc (u.proc q).p_child = (a :: l₁).getLast? := by
        rw [huch]
        refine findPrev_spec (by rwa [husib]) hnd (cons_ne_nil a l₁) ?_
        have hlen := h.length_le q
        have hv : u.v_proc = s.v_proc := by rw [hu]; rfl
        rw [hl, length_append] at hlen
        rw [hv]
        omega
      rw [hfind]
      cases hlast : (a :: l₁).getLast? with
      | none => exact absurd (List.getLast?_eq_none_iff.mp hlast) (cons_ne_nil a l₁)
      | some r =>
        exact ⟨r, fun x => { x with p_sibling := s.sibling z }, fun _ => ⟨rfl, rfl, rfl, rfl⟩, rfl,
          Or.inr ⟨rfl, fun _ => rfl⟩⟩
  have hproc : ∀ x, (s.freeproc z).proc x = if x = r then f (u.proc r) else u.proc x := fun x => by
    rw [hfree]
    exact update_apply ..
  have hkeep : ∀ {α : Type} (g : TreeProc → α), (∀ x, g (f x) = g x) →
      ∀ x, g ((s.freeproc z).proc x) = g (u.proc x) := by
    intro α g hg x
    rw [hproc]
    split_ifs with hx
    · rw [hg, hx]
    · rfl
  have hnext : s.sibling z = l₂.head? := hlink.next_eq
  -- the links after `z` was skipped
  obtain ⟨hchild, hsib⟩ : (∀ x, ((s.freeproc z).proc x).p_child =
        if l₁ = [] ∧ x = q then l₂.head? else (s.proc x).p_child) ∧
      ∀ x, (s.freeproc z).sibling x = if l₁.getLast? = some x then l₂.head? else s.sibling x := by
    rcases hr with ⟨hl₁, rfl, hfc⟩ | ⟨hlast, hfs⟩
    · refine ⟨fun x => ?_, fun x => ?_⟩
      · rw [hproc, hfc, hnext]
        by_cases hx : x = r
        · rw [if_pos hx, if_pos ⟨hl₁, hx⟩]
        · rw [if_neg hx, if_neg fun hc => hx hc.2, huch]
      · rw [hl₁, List.getLast?_nil, if_neg fun hc => nomatch hc]
        exact (hkeep TreeProc.p_sibling (fun x => by rw [hfc]) x).trans (congrFun husib x)
    · have hl₁ : l₁ ≠ [] := by
        rintro rfl
        cases hlast
      refine ⟨fun x => ?_, fun x => ?_⟩
      · rw [if_neg fun hc => hl₁ hc.1, hkeep TreeProc.p_child (fun x => by rw [hfs]) x, huch]
      · unfold sibling
        rw [hproc, hfs, hnext, hlast]
        by_cases hx : x = r
        · rw [if_pos hx, if_pos (congrArg some hx.symm)]
        · rw [if_neg hx, if_neg fun hc => hx (some_inj.mp hc).symm]
          exact congrFun husib x
  refine ⟨_, h.drop h0 hpar (by rw [hz]; decide) hl ?_ (fun x hx => ?_) (fun x hx => ?_)
    (fun x => ?_) (fun x hx => ?_) (fun x hx => ?_) (fun x hx => ?_) ?_ ?_ fun p c hpc => ?_⟩
  · refine hlink.remove hnd ?_ (fun y hy => ?_) fun b _ hb => ?_
    · rw [hchild]
      cases l₁ with
      | nil => exact if_pos ⟨rfl, rfl⟩
      | cons a l₁ =>
        rw [if_neg fun hc => cons_ne_nil a l₁ hc.1]
        exact hlink.1
    · rw [hsib, if_pos hy]
    · rw [hsib, if_neg hb]
  · rw [hchild, if_neg fun hc => hx hc.2]
  · rw [hsib, if_neg fun hc => hx ?_]
    rw [hl]
    exact mem_append_left _ (mem_of_getLast? hc)
  · rw [hkeep TreeProc.p_stat (fun x => (hf x).1) x]
    split_ifs with hx
    · rw [hx, huself]
    · rw [huz x hx]
  · rw [hkeep TreeProc.p_parent (fun x => (hf x).2.1) x, huz x hx]
  · rw [hkeep TreeProc.p_ppid (fun x => (hf x).2.2.1) x, huz x hx]
  · rw [hkeep TreeProc.p_pid (fun x => (hf x).2.2.2) x, huz x hx]
  · rw [hfree, hu]
    rfl
  · rw [hfree, hu]
    rfl
  · have hb : (s.freeproc z).busy = s.busy := by rw [hfree]; exact hbusy
    rw [hb] at hpc
    refine ⟨hpc, fun hc => ?_⟩
    have := (h.busy p c hpc).2.1
    rw [hc, hz] at this
    cases this

/-! ## `exit` -/

omit h in
theorem proc_setProc (s : ProcTab) (p : ℕ) (f : TreeProc → TreeProc) (x : ℕ) :
    (s.setProc p f).proc x = if x = p then f (s.proc x) else s.proc x := by
  by_cases hx : x = p
  · rw [if_pos hx, hx]
    exact update_self ..
  · rw [if_neg hx]
    exact update_of_ne hx ..

/-- `t` is `s` with the children `l` of `p` handed over to process 1. -/
structure HandedOver (s t : ProcTab) (p : ℕ) (l : List ℕ) : Prop where
  child : ∀ x, (t.proc x).p_child =
    if x = p then none else if x = 1 then (s.proc p).p_child else (s.proc x).p_child
  sibling : ∀ x, t.sibling x = if l.getLast? = some x then (s.proc 1).p_child else s.sibling x
  parent : ∀ x, (t.proc x).p_parent = if x ∈ l then some 1 else (s.proc x).p_parent
  ppid : ∀ x, (t.proc x).p_ppid = if x ∈ l then 1 else (s.proc x).p_ppid
  stat : ∀ x, (t.proc x).p_stat = (s.proc x).p_stat
  pid : ∀ x, (t.proc x).p_pid = (s.proc x).p_pid
  ve_proc : t.ve_proc = s.ve_proc
  v_proc : t.v_proc = s.v_proc
  busy : t.busy = s.busy

omit h in
/-- A child gets process 1 as its parent. -/
theorem adopt_spec (ht : t = s.setProc q fun x => { x with p_ppid := 1, p_parent := some 1 }) :
    (∀ x, t.proc x = if x = q then { s.proc x with p_ppid := 1, p_parent := some 1 } else s.proc x) ∧
      t.sibling = s.sibling ∧ ∀ x, (t.proc x).p_child = (s.proc x).p_child := by
  have htq := proc_setProc s q fun x => { x with p_ppid := 1, p_parent := some 1 }
  rw [← ht] at htq
  refine ⟨htq, funext fun x => ?_, fun x => ?_⟩
  · unfold sibling
    rw [htq]
    split_ifs <;> rfl
  · rw [htq]
    split_ifs <;> rfl

omit h in
theorem ite_mem_cons {α : Type} {b c : α} :
    (if x ∈ l then b else if x = q then b else c) = if x ∈ q :: l then b else c := by
  simp only [mem_cons]
  split_ifs <;> tauto

omit h in
theorem handOver_spec (h : Linked s.sibling (some q) (q :: l)) (hnd : (q :: l).Nodup)
    (hn : l.length < n) : s.HandedOver (handOver p n q s) p (q :: l) := by
  induction l generalizing q n s with
  | nil =>
    obtain ⟨n, rfl⟩ : ∃ m, n = m + 1 := ⟨n - 1, by
      rw [length_nil] at hn
      omega⟩
    have hq : (s.proc q).p_sibling = none := h.2
    obtain ⟨u, hu⟩ : ∃ u, u = s.setProc q fun x => { x with p_ppid := 1, p_parent := some 1 } :=
      ⟨_, rfl⟩
    obtain ⟨huq, husib, huch⟩ := adopt_spec hu
    rw [handOver, ← hu]
    dsimp only
    rw [show (u.proc q).p_sibling = none from (congrFun husib q).trans hq]
    dsimp only
    obtain ⟨v, hv⟩ : ∃ v, v = u.setProc q fun x => { x with p_sibling := (u.proc 1).p_child } :=
      ⟨_, rfl⟩
    rw [← hv]
    have hvq : ∀ x, v.proc x =
        if x = q then { u.proc x with p_sibling := (u.proc 1).p_child } else u.proc x := fun x => by
      rw [hv]
      exact proc_setProc ..
    have hvch : ∀ x, (v.proc x).p_child = (s.proc x).p_child := fun x => by
      rw [hvq, ← huch]
      split_ifs <;> rfl
    obtain ⟨w, hw⟩ : ∃ w, w = (v.setProc 1 fun x => { x with p_child := (v.proc p).p_child }).setProc
      p fun x => { x with p_child := none } := ⟨_, rfl⟩
    rw [← hw]
    -- only `p_child` of two processes is changed after that
    have hwv : ∀ {α : Type} (f : TreeProc → α), (∀ x c, f { x with p_child := c } = f x) →
        ∀ x, f (w.proc x) = f (v.proc x) := by
      intro α f hf x
      rw [hw, proc_setProc, proc_setProc]
      split_ifs <;> simp only [hf]
    have hfield : ∀ {α : Type} (f : TreeProc → α), (∀ x c, f { x with p_child := c } = f x) →
        (∀ x c, f { x with p_sibling := c } = f x) → ∀ x, f (w.proc x) = f (u.proc x) := by
      intro α f hf hf' x
      rw [hwv f hf, hvq]
      split_ifs
      · exact hf' ..
      · rfl
    refine ⟨fun x => ?_, fun x => ?_, fun x => ?_, fun x => ?_, fun x => ?_, fun x => ?_, ?_, ?_, ?_⟩
    · rw [hw, proc_setProc, proc_setProc]
      split
      · rfl
      · by_cases hx1 : x = 1
        · rw [if_pos hx1, if_pos hx1]
          exact hvch p
        · rw [if_neg hx1, if_neg hx1]
          exact hvch x
    · refine (hwv TreeProc.p_sibling (fun _ _ => rfl) x).trans ?_
      rw [hvq, List.getLast?_singleton]
      by_cases hx : x = q
      · rw [if_pos hx, if_pos (congrArg some hx.symm)]
        exact huch 1
      · rw [if_neg hx, if_neg fun hc => hx (some_inj.mp hc).symm, huq, if_neg hx]
        rfl
    · rw [hfield TreeProc.p_parent (fun _ _ => rfl) (fun _ _ => rfl), huq, apply_ite TreeProc.p_parent]
      simp only [mem_singleton]
    · rw [hfield TreeProc.p_ppid (fun _ _ => rfl) (fun _ _ => rfl), huq, apply_ite TreeProc.p_ppid]
      simp only [mem_singleton]
    · rw [hfield TreeProc.p_stat (fun _ _ => rfl) (fun _ _ => rfl), huq]
      split_ifs <;> rfl
    · rw [hfield TreeProc.p_pid (fun _ _ => rfl) (fun _ _ => rfl), huq]
      split_ifs <;> rfl
    all_goals
      rw [hw, hv, hu]
      rfl
  | cons a l ih =>
    obtain ⟨n, rfl⟩ : ∃ m, n = m + 1 := ⟨n - 1, by omega⟩
    rw [length_cons] at hn
    have hq : (s.proc q).p_sibling = some a := h.2.1
    obtain ⟨-, hnd⟩ := nodup_cons.mp hnd
    obtain ⟨u, hu⟩ : ∃ u, u = s.setProc q fun x => { x with p_ppid := 1, p_parent := some 1 } :=
      ⟨_, rfl⟩
    obtain ⟨huq, husib, huch⟩ := adopt_spec hu
    have hua : (u.proc q).p_sibling = some a := (congrFun husib q).trans hq
    rw [handOver, ← hu]
    dsimp only
    rw [hua]
    have hrest : Linked s.sibling (some a) (a :: l) := h.2.1 ▸ h.2
    have ih := ih (s := u) (n := n) (by rwa [husib]) hnd (by omega)
    refine ⟨fun x => ?_, fun x => ?_, fun x => ?_, fun x => ?_, fun x => ?_, fun x => ?_, ?_, ?_, ?_⟩
    · rw [ih.child, huch, huch]
    · rw [ih.sibling, husib, huch, List.getLast?_cons_cons]
    · rw [ih.parent, huq, apply_ite TreeProc.p_parent, ite_mem_cons]
    · rw [ih.ppid, huq, apply_ite TreeProc.p_ppid, ite_mem_cons]
    · rw [ih.stat, huq]
      split_ifs <;> rfl
    · rw [ih.pid, huq]
      split_ifs <;> rfl
    · rw [ih.ve_proc, hu]
      rfl
    · rw [ih.v_proc, hu]
      rfl
    · rw [ih.busy, hu]
      rfl

/-- **The children of a process are put in front of those of process 1.** -/
theorem IsTree.give (ho : s.HandedOver t p (kids p)) (hp : p ≠ 1)
    (hrun : (s.proc 1).p_stat = .SRUN) (hpid : (s.proc 1).p_pid = 1) (hb : s.busy p = none)
    (hne : kids p ≠ []) :
    t.IsTree fun x => if x = p then [] else if x = 1 then kids p ++ kids 1 else kids x := by
  have hused : ∀ x, t.Used x ↔ s.Used x := fun x => by
    unfold Used
    rw [ho.stat]
  have hdisj : ∀ x, x ≠ p → ∀ c ∈ kids x, c ∉ kids p := fun x hx c hc hcp =>
    hx (h.mem_unique hc hcp)
  have hkeep : ∀ x, x ≠ p → ∀ b ∈ kids x, t.sibling b = s.sibling b := fun x hx b hb => by
    rw [ho.sibling, if_neg fun hc => hdisj x hx b hb (mem_of_getLast? hc)]
  refine ⟨fun x => ?_, fun x => ?_, fun x c => ?_, fun c hc hu => ?_, fun a b ha hb hab => ?_,
    fun x hx => ?_, ?_, ?_, fun x c hxc => ?_⟩
  · rw [ho.child]
    by_cases hx : x = p
    · rw [if_pos hx, if_pos hx]
      rfl
    · rw [if_neg hx, if_neg hx]
      by_cases hx1 : x = 1
      · rw [if_pos hx1, if_pos hx1]
        have h1 : Linked t.sibling (s.proc 1).p_child (kids 1) :=
          (h.linked 1).congr (hkeep 1 (Ne.symm hp))
        obtain ⟨l, r, hl⟩ := (eq_nil_or_concat (kids p)).resolve_left hne
        rw [concat_eq_append] at hl
        have hlink := h.linked p
        have hnd := h.nodup p
        rw [hl] at hlink hnd ⊢
        rw [append_assoc]
        -- only the last of them has another sibling
        refine hlink.append (fun b hb => ?_) ?_
        · rw [ho.sibling, hl, List.getLast?_concat, if_neg]
          rintro hbr
          rw [some_inj] at hbr
          exact (nodup_append.mp hnd).2.2 b hb r (mem_singleton.mpr rfl) hbr.symm
        · rw [ho.sibling, if_pos (by rw [hl, List.getLast?_concat])]
          exact h1
      · rw [if_neg hx1, if_neg hx1]
        exact (h.linked x).congr (hkeep x hx)
  · split
    · exact nodup_nil
    · split_ifs
      · exact nodup_append'.mpr ⟨h.nodup p, h.nodup 1,
          fun c hcp hc1 => hdisj 1 (Ne.symm hp) c hc1 hcp⟩
      · exact h.nodup x
  · rw [hused, ho.parent]
    by_cases hcp : c ∈ kids p
    · obtain ⟨h0, hu, -⟩ := (h.mem p c).mp hcp
      rw [if_pos hcp, some_inj]
      by_cases hx1 : x = 1
      · rw [if_neg (hx1 ▸ Ne.symm hp), if_pos hx1]
        exact iff_of_true (mem_append_left _ hcp) ⟨h0, hu, hx1.symm⟩
      · refine iff_of_false (fun hc => ?_) fun hc => hx1 hc.2.2.symm
        by_cases hx : x = p
        · rw [if_pos hx] at hc
          cases hc
        · rw [if_neg hx, if_neg hx1] at hc
          exact hdisj x hx c hc hcp
    · rw [if_neg hcp, ← h.mem]
      by_cases hx : x = p
      · rw [if_pos hx, hx]
        exact iff_of_false (fun hc => nomatch hc) hcp
      · rw [if_neg hx]
        split_ifs with hx1
        · rw [mem_append, hx1]
          exact or_iff_right hcp
        · rfl
  · obtain ⟨q, h1, h2, h3⟩ := h.parent c hc ((hused c).mp hu)
    rw [ho.parent, ho.ppid]
    by_cases hcp : c ∈ kids p
    · refine ⟨1, if_pos hcp, (ho.stat 1).trans hrun, ?_⟩
      rw [if_pos hcp, ho.pid, hpid]
    · refine ⟨q, (if_neg hcp).trans h1, (ho.stat q).trans h2, ?_⟩
      rw [if_neg hcp, ho.pid, h3]
  · rw [ho.pid, ho.pid] at hab
    exact h.pids a b ((hused a).mp ha) ((hused b).mp hb) hab
  · rw [ho.ve_proc]
    exact h.used x ((hused x).mp hx)
  · rw [ho.ve_proc, ho.v_proc]
    exact h.bound
  · exact (ho.stat 0).trans h.root
  · rw [ho.busy] at hxc
    obtain ⟨h1, h2, h3⟩ := h.busy x c hxc
    have hcp : c ∉ kids p := by
      intro hcp
      rw [((h.mem p c).mp hcp).2.2] at h3
      rw [← some_inj.mp h3, hb] at hxc
      cases hxc
    refine ⟨h1, (ho.stat c).trans h2, ?_⟩
    rw [ho.parent, if_neg hcp, h3]

/-- A process without children exits. -/
theorem IsTree.zombie (hk : kids p = []) (h0 : p ≠ 0)
    (hrun : (s.proc p).p_stat = .SRUN) :
    (s.setProc p fun x => { x with p_stat := .SZOMB }).IsTree kids := by
  obtain ⟨t, ht⟩ : ∃ t, t = s.setProc p fun x => { x with p_stat := .SZOMB } := ⟨_, rfl⟩
  rw [← ht]
  have hstat : ∀ x, (t.proc x).p_stat = if x = p then .SZOMB else (s.proc x).p_stat := fun x => by
    rw [ht, proc_setProc]
    split_ifs <;> rfl
  have hother : ∀ x, t.proc x = { s.proc x with p_stat := (t.proc x).p_stat } := fun x => by
    rw [ht, proc_setProc]
    split_ifs <;> rfl
  have hused : ∀ x, t.Used x ↔ s.Used x := fun x => by
    unfold Used
    rw [hstat]
    split_ifs with hx
    · rw [hx, hrun]
      exact iff_of_true (fun h => nomatch h) (by decide)
    · rfl
  have hbusy : t.busy = s.busy := by
    rw [ht]
    rfl
  have hve : t.ve_proc = s.ve_proc ∧ t.v_proc = s.v_proc := by
    rw [ht]
    exact ⟨rfl, rfl⟩
  refine ⟨fun x => ?_, h.nodup, fun x c => ?_, fun c hc hu => ?_, fun a b ha hb hab => ?_,
    fun x hx => ?_, ?_, ?_, fun x c hxc => ?_⟩
  · rw [hother]
    refine (h.linked x).congr fun b _ => ?_
    unfold sibling
    rw [hother]
  · rw [hused, hother]
    exact h.mem x c
  · obtain ⟨q, h1, h2, h3⟩ := h.parent c hc ((hused c).mp hu)
    have hq : q ≠ p := by
      rintro rfl
      have := (h.mem q c).mpr ⟨hc, (hused c).mp hu, h1⟩
      rw [hk] at this
      cases this
    refine ⟨q, ?_, ?_, ?_⟩
    · rw [hother]
      exact h1
    · rw [hstat, if_neg hq, h2]
    · rw [hother, hother q]
      exact h3
  · rw [hother, hother b] at hab
    exact h.pids a b ((hused a).mp ha) ((hused b).mp hb) hab
  · rw [hve.1]
    exact h.used x ((hused x).mp hx)
  · rw [hve.1, hve.2]
    exact h.bound
  · rw [hstat, if_neg h0.symm]
    exact h.root
  · rw [hbusy] at hxc
    obtain ⟨h1, h2, h3⟩ := h.busy x c hxc
    have hc : c ≠ p := by
      rintro rfl
      rw [hrun] at h2
      cases h2
    refine ⟨h1, ?_, ?_⟩
    · rw [hstat, if_neg hc, h2]
    · rw [hother]
      exact h3

theorem tree_exit (h0 : p ≠ 0) (hrun : (s.proc p).p_stat = .SRUN)
    (hb : s.busy p = none)
    (hone : (s.proc p).p_child ≠ none →
      p ≠ 1 ∧ (s.proc 1).p_stat = .SRUN ∧ (s.proc 1).p_pid = 1) :
    ∃ kids', (s.exit p).IsTree kids' := by
  have hlink := h.linked p
  unfold exit
  cases hc : (s.proc p).p_child with
  | none =>
    rw [hc] at hlink
    exact ⟨kids, h.zombie (hlink.unique (show Linked s.sibling none [] from rfl)) h0 hrun⟩
  | some q =>
    obtain ⟨hp1, hrun1, hpid1⟩ := hone (by rw [hc]; exact fun hx => nomatch hx)
    rw [hc] at hlink
    obtain ⟨l, hl, -⟩ := hlink.pop
    have hnd := h.nodup p
    have hlen := h.length_le p
    rw [hl, length_cons] at hlen
    rw [hl] at hlink hnd
    have ho := handOver_spec (p := p) hlink hnd (n := s.v_proc) (by omega)
    rw [← hl] at ho
    have hgive := h.give ho hp1 hrun1 hpid1 hb (by rw [hl]; exact cons_ne_nil q l)
    exact ⟨_, hgive.zombie (if_pos rfl) h0 ((ho.stat p).trans hrun)⟩

/-! ## Runs -/

/-- The child of a fork that fails is still the first one of its parent, and children are handed to
a process 1 that is there. -/
def Safe (s : ProcTab) : TreeEvent → Prop
  | .newprocFail pp => ∀ cp ∈ s.busy pp, (s.proc pp).p_child = some cp
  | .exit p => (s.proc p).p_child ≠ none →
      p ≠ 1 ∧ (s.proc 1).p_stat = .SRUN ∧ (s.proc 1).p_pid = 1
  | _ => True

instance decidableSafe (s : ProcTab) : (e : TreeEvent) → Decidable (s.Safe e)
  | .newprocFail pp =>
    inferInstanceAs (Decidable (∀ cp ∈ s.busy pp, (s.proc pp).p_child = some cp))
  | .exit p => inferInstanceAs (Decidable ((s.proc p).p_child ≠ none →
      p ≠ 1 ∧ (s.proc 1).p_stat = .SRUN ∧ (s.proc 1).p_pid = 1))
  | .newproc _ _ => inferInstanceAs (Decidable True)
  | .newprocDone _ => inferInstanceAs (Decidable True)
  | .freeproc _ _ => inferInstanceAs (Decidable True)

theorem tree_step {e : TreeEvent} (hsafe : s.Safe e)
    (hstep : s.step e = some t) : ∃ kids', t.IsTree kids' := by
  cases e with
  | newproc pp limited =>
    rw [step] at hstep
    split_ifs at hstep with hc
    exact tree_newproc h hc.1 hstep
  | newprocDone pp =>
    obtain ⟨cp, hcp, rfl⟩ := map_eq_some_iff.mp hstep
    exact ⟨kids, tree_newprocDone h hcp⟩
  | newprocFail pp =>
    obtain ⟨cp, hcp, rfl⟩ := map_eq_some_iff.mp hstep
    exact tree_newprocFail h hcp (hsafe cp hcp)
  | exit p =>
    rw [step] at hstep
    split_ifs at hstep with hc
    cases hstep
    exact tree_exit h hc.2.2 hc.1 hc.2.1 hsafe
  | freeproc p z =>
    rw [step] at hstep
    split_ifs at hstep with hc
    cases hstep
    exact tree_freeproc h hc.2.2.2.1 hc.2.2.2.2

/-- Only process 0 is there, in a table of `n` slots. -/
def boot (n : ℕ) : ProcTab :=
  ⟨n, 1, 0, fun p => ⟨if p = 0 then .SRUN else .NULL, 0, 0, none, none, none⟩, fun _ => none⟩

omit h in
theorem tree_boot (hn : 0 < n) : (boot n).IsTree fun _ => [] := by
  have hused : ∀ p, (boot n).Used p → p = 0 := fun p hp => by
    by_contra hp0
    exact hp (if_neg hp0)
  refine ⟨fun _ => rfl, fun _ => nodup_nil, fun p c => ?_, fun c h0 hc => ?_,
    fun a b ha hb _ => ?_, fun p hp => ?_, hn, rfl, fun _ _ h => nomatch h⟩
  · exact iff_of_false not_mem_nil fun hc => hc.1 (hused c hc.2.1)
  · exact absurd (hused c hc) h0
  · rw [hused a ha, hused b hb]
  · rw [hused p hp]
    exact Nat.one_pos

/-- The process tree is well formed, and `kids` are the lists of children. -/
structure WellFormed (s : ProcTab) (kids : ℕ → List ℕ) : Prop where
  linked : ∀ p, Linked s.sibling (s.proc p).p_child (kids p)
  nodup : ∀ p, (kids p).Nodup
  onList : ∀ c, c ≠ 0 → s.Used c → ∃ p, (s.proc c).p_parent = some p ∧
    (s.proc c).p_ppid = (s.proc p).p_pid ∧ c ∈ kids p ∧ ∀ q, c ∈ kids q → q = p
  exited : ∀ p, (s.proc p).p_stat = .SZOMB → (s.proc p).p_child = none
  pids : ∀ a b, s.Used a → s.Used b → (s.proc a).p_pid = (s.proc b).p_pid → a = b

theorem IsTree.wellFormed : s.WellFormed kids := by
  refine ⟨h.linked, h.nodup, fun c h0 hu => ?_,
    fun p hp => h.child_eq_none (by rw [hp]; decide), h.pids⟩
  obtain ⟨p, hp, -, hppid⟩ := h.parent c h0 hu
  have hmem := (h.mem p c).mpr ⟨h0, hu, hp⟩
  exact ⟨p, hp, hppid, hmem, fun q hq => h.mem_unique hq hmem⟩

end

/-- **The process tree stays well formed** in every run in which the child of a fork that fails is
still the first of its parent, and whoever exits with children is not process 1 and finds it. -/
theorem tree_run {es : List TreeEvent} (hn : 0 < n) (hsafe : StepsMeet Safe step (boot n) es)
    (h : exec step (boot n) es = some t) : ∃ kids, t.WellFormed kids := by
  obtain ⟨kids, hkids⟩ := exec_invariant (P := fun s : ProcTab => ∃ kids, s.IsTree kids)
    (fun s e t ⟨_, hs⟩ hC hstep => tree_step hs hC hstep) ⟨_, tree_boot hn⟩ hsafe h
  exact ⟨kids, hkids.wellFormed⟩

/-- Process 2 exits before its child; process 1 frees it and the child; a fork fails. -/
def someForks : List TreeEvent :=
  [.newproc 0 false, .newprocDone 0, .newproc 1 false, .newprocDone 1, .newproc 2 false,
    .newprocDone 2, .exit 2, .exit 3, .newproc 1 false, .newprocFail 1, .freeproc 1 2,
    .freeproc 1 3]

theorem tree_run_some : ∃ t, exec step (boot 8) someForks = some t ∧
    ∃ kids, t.WellFormed kids := by
  obtain ⟨t, ht⟩ : ∃ t, exec step (boot 8) someForks = some t :=
    isSome_iff_exists.mp (by decide +kernel)
  refine ⟨t, ht, tree_run (by decide) ?_ ht⟩
  exact stepsMeet_of_allSteps (c := fun s e => decide (s.Safe e))
    (fun _ _ => of_decide_eq_true) (by decide +kernel)

/-- While the fork of process 1 sleeps, process 2 exits and its child is put in front of the new
one; when the fork fails, that child is on no list any more. -/
theorem child_lost : ¬ ∀ es t, exec step (boot 8) es = some t → ∃ kids, t.WellFormed kids := by
  intro h
  have hrun : (exec step (boot 8)
      [.newproc 0 false, .newprocDone 0, .newproc 1 false, .newprocDone 1, .newproc 2 false,
        .newprocDone 2, .newproc 1 false, .exit 2, .newprocFail 1]).any (fun t =>
      decide ((t.proc 1).p_child = some 2 ∧ (t.proc 2).p_sibling = none ∧
        (t.proc 3).p_stat = .SRUN ∧ (t.proc 3).p_parent = some 1)) = true := by decide +kernel
  obtain ⟨t, ht, hfacts⟩ := (any_eq_true _ _).mp hrun
  obtain ⟨hchild, hsib, hstat, hpar⟩ := of_decide_eq_true hfacts
  obtain ⟨kids, hk⟩ := h _ t ht
  have hkids : kids 1 = [2] := (hk.linked 1).unique ⟨hchild, hsib⟩
  obtain ⟨p, hp, -, hmem, -⟩ := hk.onList 3 (by decide) (used_of_stat hstat (by decide))
  rw [hpar] at hp
  cases hp
  rw [hkids] at hmem
  cases hmem with
  | tail _ hmem => cases hmem

end ProcTab

end Os
