import OpusSysV.Io.SemSet

/-!
# Wakeups in `semop`

A process that cannot carry out its array sleeps on one counter of the semaphore that
stopped it.  The others wake it when that semaphore's value rises (`semncnt`) or
becomes zero (`semzcnt`).

* `Wakes` and `Calm` — what the parts of the system do to sleepers: whoever is still
  asleep for a greater value sees no greater one, whoever is still asleep for zero sees
  no zero.
* `Blocked` — why a process sleeps, said in terms of the committed values; `Calm` steps
  keep it (`Blocked.calm`), and a pass that goes to sleep establishes it
  (`blocked_of_sleeps`).
* `no_lost_wakeup` — as long as no array waits for zero on a semaphore it has lowered
  itself, a sleeping process is one that cannot go on.
* `lost_wakeup` — an array that does can miss its moment: the value that lets it go on
  is not zero, and nobody is woken for it.
-/

namespace Io

open Lib Function Option SemState

variable {cfg : SemInfo} {s t u : SemState} {p : Proc} {g : ℕ} {op : Sembuf} {c : SemCtx}
  {l : List Sembuf}

/-! ## Steps that wake whom they should -/

/-- Nobody falls asleep, and a counter with a process still asleep on it stays positive. -/
structure Wakes (s t : SemState) : Prop where
  slp : ∀ q ch, t.slp q = some ch → s.slp q = some ch
  ncnt : ∀ g, (∃ q, t.slp q = some (.semncnt g)) → 0 < (s.sem g).semncnt → 0 < (t.sem g).semncnt
  zcnt : ∀ g, (∃ q, t.slp q = some (.semzcnt g)) → 0 < (s.sem g).semzcnt → 0 < (t.sem g).semzcnt

/-- A value with a process still asleep for a greater one has not risen, and one with a
process still asleep for zero has not become zero. -/
structure Calm (s t : SemState) : Prop extends Wakes s t where
  lower : ∀ g, (∃ q, t.slp q = some (.semncnt g)) → 0 < (s.sem g).semncnt →
    (t.sem g).semval ≤ (s.sem g).semval
  nonzero : ∀ g, (∃ q, t.slp q = some (.semzcnt g)) → 0 < (s.sem g).semzcnt →
    (s.sem g).semval ≠ 0 → (t.sem g).semval ≠ 0

theorem Wakes.refl (s : SemState) : Wakes s s := ⟨fun _ _ h => h, fun _ _ h => h, fun _ _ h => h⟩

theorem Wakes.trans (h : Wakes s t) (h' : Wakes t u) : Wakes s u := by
  refine ⟨fun q ch hq => h.slp q ch (h'.slp q ch hq), fun g hg h0 => ?_, fun g hg h0 => ?_⟩ <;>
    obtain ⟨q, hq⟩ := hg
  · exact h'.ncnt g ⟨q, hq⟩ (h.ncnt g ⟨q, h'.slp q _ hq⟩ h0)
  · exact h'.zcnt g ⟨q, hq⟩ (h.zcnt g ⟨q, h'.slp q _ hq⟩ h0)

theorem Calm.trans (h : Calm s t) (h' : Calm t u) : Calm s u := by
  refine ⟨h.toWakes.trans h'.toWakes, fun g hg h0 => ?_, fun g hg h0 hv => ?_⟩ <;>
    obtain ⟨q, hq⟩ := hg
  · have ht : ∃ q, t.slp q = some (.semncnt g) := ⟨q, h'.slp q _ hq⟩
    exact (h'.lower g ⟨q, hq⟩ (h.ncnt g ht h0)).trans (h.lower g ht h0)
  · have ht : ∃ q, t.slp q = some (.semzcnt g) := ⟨q, h'.slp q _ hq⟩
    exact h'.nonzero g ⟨q, hq⟩ (h.zcnt g ht h0) (h.nonzero g ht h0 hv)

/-- A step that does not change the values. -/
theorem Wakes.calm (h : Wakes s t) (hv : ∀ g, (t.sem g).semval = (s.sem g).semval) : Calm s t :=
  ⟨h, fun g _ _ => (hv g).le, fun g _ _ h0 => by rw [hv]; exact h0⟩

/-- A step that touches neither sleepers nor semaphores, but for pids. -/
theorem calm_of_eq (hslp : t.slp = s.slp)
    (hsem : ∀ g, (t.sem g).semval = (s.sem g).semval ∧ (t.sem g).semncnt = (s.sem g).semncnt ∧
      (t.sem g).semzcnt = (s.sem g).semzcnt) : Calm s t := by
  refine Wakes.calm ⟨fun q ch hq => hslp ▸ hq, fun g _ h => ?_, fun g _ h => ?_⟩
    fun g => (hsem g).1
  · rw [(hsem g).2.1]; exact h
  · rw [(hsem g).2.2]; exact h

/-- A step that touches semaphore `g` only. -/
theorem calm_of_sem (hslp : ∀ q ch, t.slp q = some ch → s.slp q = some ch)
    (hother : ∀ k ≠ g, t.sem k = s.sem k)
    (hn : (∃ q, t.slp q = some (.semncnt g)) → 0 < (s.sem g).semncnt →
      (t.sem g).semval ≤ (s.sem g).semval ∧ 0 < (t.sem g).semncnt)
    (hz : (∃ q, t.slp q = some (.semzcnt g)) → 0 < (s.sem g).semzcnt →
      ((s.sem g).semval ≠ 0 → (t.sem g).semval ≠ 0) ∧ 0 < (t.sem g).semzcnt) : Calm s t := by
  refine ⟨⟨hslp, fun k hk h0 => ?_, fun k hk h0 => ?_⟩, fun k hk h0 => ?_, fun k hk h0 hv => ?_⟩ <;>
    by_cases hkg : k = g
  · subst hkg; exact (hn hk h0).2
  · rw [hother k hkg]; exact h0
  · subst hkg; exact (hz hk h0).2
  · rw [hother k hkg]; exact h0
  · subst hkg; exact (hn hk h0).1
  · rw [hother k hkg]
  · subst hkg; exact (hz hk h0).1 hv
  · rw [hother k hkg]; exact hv

/-- What `wakeN` leaves: the counter is zero, and nobody sleeps on it if it was not. -/
theorem wakeN_spec (s : SemState) (g : ℕ) :
    (∀ q ch, (s.wakeN g).slp q = some ch → s.slp q = some ch) ∧
      (∀ k, (s.wakeN g).sem k =
        if k = g then (fun x : Sem => { x with semncnt := 0 }) (s.sem g) else s.sem k) ∧
      (0 < (s.sem g).semncnt → ∀ q, (s.wakeN g).slp q ≠ some (.semncnt g)) := by
  rw [wakeN]
  split_ifs with h
  · refine ⟨fun q ch hq => ?_, fun k => ?_, fun _ q hq => ?_⟩
    · simp only [wakeup] at hq
      split_ifs at hq
      exact hq
    · exact sem_onSem s g k fun x => { x with semncnt := 0 }
    · simp only [wakeup] at hq
      split_ifs at hq with hq'
      exact hq' hq
  · refine ⟨fun q ch hq => hq, fun k => ?_, fun h0 => absurd h0 (by omega)⟩
    split_ifs with hk
    · rw [hk]
      have : (s.sem g).semncnt = 0 := by omega
      cases hsem : s.sem g
      simp_all
    · rfl

theorem wakeZ_spec (s : SemState) (g : ℕ) :
    (∀ q ch, (s.wakeZ g).slp q = some ch → s.slp q = some ch) ∧
      (∀ k, (s.wakeZ g).sem k =
        if k = g then (fun x : Sem => { x with semzcnt := 0 }) (s.sem g) else s.sem k) ∧
      (0 < (s.sem g).semzcnt → ∀ q, (s.wakeZ g).slp q ≠ some (.semzcnt g)) := by
  rw [wakeZ]
  split_ifs with h
  · refine ⟨fun q ch hq => ?_, fun k => ?_, fun _ q hq => ?_⟩
    · simp only [wakeup] at hq
      split_ifs at hq
      exact hq
    · exact sem_onSem s g k fun x => { x with semzcnt := 0 }
    · simp only [wakeup] at hq
      split_ifs at hq with hq'
      exact hq' hq
  · refine ⟨fun q ch hq => hq, fun k => ?_, fun h0 => absurd h0 (by omega)⟩
    split_ifs with hk
    · rw [hk]
      have : (s.sem g).semzcnt = 0 := by omega
      cases hsem : s.sem g
      simp_all
    · rfl

/-- Waking the sleepers for a greater value makes any raise calm. -/
theorem calm_onSem_wakeN {f : Sem → Sem} (hz : (f (s.sem g)).semzcnt = (s.sem g).semzcnt)
    (hn : (f (s.sem g)).semncnt = (s.sem g).semncnt)
    (hv : (s.sem g).semval ≠ 0 → (f (s.sem g)).semval ≠ 0) :
    Calm s ((s.onSem g f).wakeN g) := by
  obtain ⟨h1, h2, h3⟩ := wakeN_spec (s.onSem g f) g
  have hself : (s.onSem g f).sem g = f (s.sem g) := by rw [sem_onSem, if_pos rfl]
  rw [hself] at h2 h3
  refine calm_of_sem (g := g) h1 (fun k hk => ?_) (fun ⟨q, hq⟩ h0 => ?_) (fun _ h0 => ?_)
  · rw [h2, if_neg hk, sem_onSem, if_neg hk]
  · exact absurd hq (h3 (hn ▸ h0) q)
  · rw [h2, if_pos rfl]
    exact ⟨hv, hz ▸ h0⟩

/-- Waking the sleepers for zero makes any lowering calm. -/
theorem calm_onSem_wakeZ {f : Sem → Sem} (hz : (f (s.sem g)).semzcnt = (s.sem g).semzcnt)
    (hn : (f (s.sem g)).semncnt = (s.sem g).semncnt)
    (hv : (f (s.sem g)).semval ≤ (s.sem g).semval) :
    Calm s ((s.onSem g f).wakeZ g) := by
  obtain ⟨h1, h2, h3⟩ := wakeZ_spec (s.onSem g f) g
  have hself : (s.onSem g f).sem g = f (s.sem g) := by rw [sem_onSem, if_pos rfl]
  rw [hself] at h2 h3
  refine calm_of_sem (g := g) h1 (fun k hk => ?_) (fun _ h0 => ?_) (fun ⟨q, hq⟩ h0 => ?_)
  · rw [h2, if_neg hk, sem_onSem, if_neg hk]
  · rw [h2, if_pos rfl]
    exact ⟨hv, hn ▸ h0⟩
  · exact absurd hq (h3 (hz ▸ h0) q)

/-- A lowering that does not reach zero needs no wakeup. -/
theorem calm_onSem {f : Sem → Sem} (hz : (f (s.sem g)).semzcnt = (s.sem g).semzcnt)
    (hn : (f (s.sem g)).semncnt = (s.sem g).semncnt)
    (hv : (f (s.sem g)).semval ≤ (s.sem g).semval) (h0 : (f (s.sem g)).semval ≠ 0) :
    Calm s (s.onSem g f) := by
  have hself : (s.onSem g f).sem g = f (s.sem g) := by rw [sem_onSem, if_pos rfl]
  refine calm_of_sem (g := g) (fun q ch hq => hq) (fun k hk => ?_) (fun _ hc => ?_) (fun _ hc => ?_)
  · rw [sem_onSem, if_neg hk]
  · rw [hself]; exact ⟨hv, hn ▸ hc⟩
  · rw [hself]; exact ⟨fun _ => h0, hz ▸ hc⟩

/-- Waking all sleepers makes any change calm. -/
theorem calm_onSem_wakeBoth {f : Sem → Sem} (hz : (f (s.sem g)).semzcnt = (s.sem g).semzcnt)
    (hn : (f (s.sem g)).semncnt = (s.sem g).semncnt) :
    Calm s (((s.onSem g f).wakeN g).wakeZ g) := by
  obtain ⟨h1, h2, h3⟩ := wakeN_spec (s.onSem g f) g
  obtain ⟨h1', h2', h3'⟩ := wakeZ_spec ((s.onSem g f).wakeN g) g
  have hself : (s.onSem g f).sem g = f (s.sem g) := by rw [sem_onSem, if_pos rfl]
  rw [hself] at h2 h3
  refine calm_of_sem (g := g) (fun q ch hq => h1 q ch (h1' q ch hq)) (fun k hk => ?_)
    (fun ⟨q, hq⟩ h0 => ?_) (fun ⟨q, hq⟩ h0 => ?_)
  · rw [h2', if_neg hk, h2, if_neg hk, sem_onSem, if_neg hk]
  · exact absurd (h1' q _ hq) (h3 (hn ▸ h0) q)
  · refine absurd hq (h3' ?_ q)
    rw [h2, if_pos rfl]
    exact hz ▸ h0

theorem calm_wakeZ (s : SemState) (g : ℕ) : Calm s (s.wakeZ g) := by
  have h := calm_onSem_wakeZ (s := s) (g := g) (f := fun x => x) rfl rfl le_rfl
  have heq : s.onSem g (fun x => x) = s := by
    simp only [onSem, update_eq_self]
  rwa [heq] at h

theorem calm_wakeIfZero (s : SemState) (g : ℕ) : Calm s (s.wakeIfZero g) := by
  rw [wakeIfZero]
  split_ifs
  · exact calm_wakeZ s g
  · exact (Wakes.refl s).calm fun _ => rfl

/-! ## The calls are calm -/

theorem calm_use (s : SemState) (slot : ℕ) (first : List Sembuf) (op : Sembuf) :
    Calm s (s.use slot first op) := calm_of_eq rfl fun _ => ⟨rfl, rfl, rfl⟩

theorem calm_charge (cfg : SemInfo) (s : SemState) (p : Proc) (id : ℤ) (op : Sembuf) :
    Calm s (charge cfg s p id op).2 := by
  have h := sameSems_charge cfg s p id op
  exact calm_of_eq h.slp fun g => by rw [h.sem]; exact ⟨rfl, rfl, rfl⟩

/-- An operation that is done wakes whom it should. -/
theorem calm_did (hs : SemWf cfg s) (h : did cfg c s op = some t) : Calm s t := by
  have hcases := tryOp_cases cfg c op s
  rw [did_eq_some.mp h] at hcases
  have hmax := hs.semval (s.semp c.slot op)
  have hlim := cfg.semvmx_le
  have hr := calm_charge cfg (s.use c.slot c.first op) c.p c.semid op
  have hsem := (sameSems_charge cfg (s.use c.slot c.first op) c.p c.semid op).sem
  cases hcases with
  | zero => exact calm_use s c.slot c.first op
  | raise r hop hv hc =>
    rw [hc] at hr hsem
    have hsem' : r.sem (s.semp c.slot op) = s.sem (s.semp c.slot op) := by rw [hsem]; rfl
    have hval := ushort_eq (x := (s.sem (s.semp c.slot op)).semval + op.semOp) (by omega)
    refine (((calm_use s c.slot c.first op).trans hr).trans ?_).trans (calm_wakeIfZero _ _)
    refine calm_onSem_wakeN rfl rfl fun _ => ?_
    simp only [hsem']
    omega
  | lower r hop hv hc =>
    rw [hc] at hr hsem
    have hsem' : r.sem (s.semp c.slot op) = s.sem (s.semp c.slot op) := by rw [hsem]; rfl
    have hval := ushort_eq (x := (s.sem (s.semp c.slot op)).semval + op.semOp) (by omega)
    refine ((calm_use s c.slot c.first op).trans hr).trans ?_
    rw [wakeIfZero]
    split_ifs with h0
    · refine calm_onSem_wakeZ rfl rfl ?_
      simp only [hsem']
      omega
    · refine calm_onSem rfl rfl ?_ ?_
      · simp only [hsem']
        omega
      · rwa [semval_addVal, if_pos rfl] at h0

theorem calm_exec (hs : SemWf cfg s) (h : exec (did cfg c) s l = some t) : Calm s t := by
  induction l generalizing s with
  | nil => cases h; exact (Wakes.refl _).calm fun _ => rfl
  | cons op l ih =>
    obtain ⟨v, hv, h⟩ := exec_cons.mp h
    exact (calm_did hs hv).trans (ih ((undoes_tryOp cfg c).keeps hs hv) h)

theorem wakes_undoOp (cfg : SemInfo) (c : SemCtx) (op : Sembuf) (s : SemState) :
    Wakes s (undoOp cfg c op s) := by
  have hadd : Wakes s ((s.use c.slot c.first op).addVal (s.semp c.slot op) (-op.semOp)) := by
    refine ⟨fun q ch hq => hq, fun g _ h => ?_, fun g _ h => ?_⟩ <;>
      rw [addVal, sem_onSem] <;> split_ifs with hg
    · subst hg; exact h
    · exact h
    · subst hg; exact h
    · exact h
  rw [undoOp]
  split_ifs
  · exact Wakes.refl s
  · have hf := sameSems_semaoe cfg ((s.use c.slot c.first op).addVal (s.semp c.slot op) (-op.semOp))
      c.p (short (-op.semOp)) c.semid (short op.semNum)
    exact hadd.trans (calm_of_eq hf.slp fun g => by rw [hf.sem]; exact ⟨rfl, rfl, rfl⟩).toWakes
  · exact hadd

theorem wakes_semundo (cfg : SemInfo) (c : SemCtx) (done : List Sembuf) (s : SemState) :
    Wakes s (semundo cfg c done s) := by
  induction done generalizing s with
  | nil => exact Wakes.refl s
  | cons op done ih => exact (wakes_undoOp cfg c op s).trans (ih _)

theorem Stops.wakes {r : SemopEnd} (h : Stops op (tryOp cfg c op s) r u) : Wakes s u := by
  have hcases := tryOp_cases cfg c op s
  have huse := (calm_use s c.slot c.first op).toWakes
  have hr := (calm_charge cfg (s.use c.slot c.first op) c.p c.semid op).toWakes
  generalize tryOp cfg c op s = tr at h hcases
  cases h with
  | fails e u =>
    cases hcases with
    | range => exact huse
    | refused _ _ hc => rw [hc] at hr; exact huse.trans hr
  | nowait ch u => cases hcases <;> exact huse
  | waits ch u => cases hcases <;> exact huse

/-- A pass is calm, whether it runs through or is rolled back. -/
theorem calm_semopLoop (hs : SemWf cfg s) : Calm s (semopLoop cfg c [] l s).2 := by
  rcases semopLoop_cases cfg c [] l s with ⟨t, hrun, heq⟩ | ⟨pre, op, post, v, r, u, -, hrun, hstop, heq⟩
  · rw [heq]
    exact calm_exec hs hrun
  · have huntouched := untouched_semopLoop hs heq hstop.ne_done
    rw [heq]
    exact (((calm_exec hs hrun).toWakes.trans hstop.wakes).trans (wakes_semundo cfg c _ u)).calm
      huntouched.semval

theorem calm_setPids (c : SemCtx) (ops : List Sembuf) (s : SemState) : Calm s (setPids c ops s) := by
  induction ops generalizing s with
  | nil => exact (Wakes.refl s).calm fun _ => rfl
  | cons op ops ih =>
    have hpid : Calm s ((s.use c.slot c.first op).onSem (s.semp c.slot op) fun x =>
        { x with sempid := c.p }) := by
      refine calm_of_eq rfl fun g => ?_
      rw [sem_onSem]
      split_ifs with hg
      · rw [hg]; exact ⟨rfl, rfl, rfl⟩
      · exact ⟨rfl, rfl, rfl⟩
    exact hpid.trans (ih _)

theorem calm_setVal (s : SemState) (g v : ℕ) (p : Proc) : Calm s (s.setVal g v p) := by
  simp only [setVal]
  split_ifs with hv
  · exact calm_onSem_wakeN rfl rfl fun _ => hv
  · exact calm_onSem_wakeZ rfl rfl (by simp only; omega)

theorem calm_setAll (vals : List ℕ) (g : ℕ) (p : Proc) (s : SemState) :
    Calm s (setAll p vals g s) := by
  induction vals generalizing g s with
  | nil => exact (Wakes.refl s).calm fun _ => rfl
  | cons v vals ih => exact (calm_setVal s g v p).trans (ih (g + 1) _)

theorem calm_rmAll (n g : ℕ) (s : SemState) : Calm s (rmAll n g s) := by
  induction n generalizing g s with
  | zero => exact (Wakes.refl s).calm fun _ => rfl
  | succ n ih =>
    have hzero := calm_onSem_wakeBoth (s := s) (g := g)
      (f := fun x => { x with semval := 0, sempid := 0 }) rfl rfl
    exact hzero.trans (ih (g + 1) _)

theorem calm_semunrm (s : SemState) (id : ℤ) (low high : ℕ) : Calm s (semunrm id low high s) :=
  calm_of_eq rfl fun _ => ⟨rfl, rfl, rfl⟩

theorem calm_setPerm (s : SemState) (slot : ℕ) (perm : IpcPerm) : Calm s (s.setPerm slot perm) :=
  calm_of_eq rfl fun _ => ⟨rfl, rfl, rfl⟩

theorem calm_semctl (cfg : SemInfo) (p : Proc) (u : Cred) (id : ℤ) (cmd : SemCmd) (s : SemState) :
    Calm s (semctl cfg p u id cmd s).2 := by
  have hs : Calm s s := (Wakes.refl s).calm fun _ => rfl
  rw [semctl]
  cases semconv cfg s id with
  | none => exact hs
  | some slot =>
    cases cmd with
    | rmid =>
      have h := (calm_semunrm s id 0 (s.sema slot).nsems).trans
        (calm_rmAll (s.sema slot).nsems (s.sema slot).base _)
      simp only [semctlCmd]
      split_ifs
      · exact hs
      · exact h.trans (calm_setPerm _ slot _)
      · exact h.trans (calm_setPerm _ slot _)
    | ipcSet ds =>
      simp only [semctlCmd]
      split_ifs
      · exact hs
      · cases ds with
        | none => exact hs
        | some ds => exact calm_setPerm s slot _
    | setval semnum arg =>
      simp only [semctlCmd]
      split_ifs
      · exact hs
      · exact hs
      · exact hs
      · exact (calm_setVal s _ arg p).trans (calm_semunrm _ id semnum semnum)
    | setall vals =>
      simp only [semctlCmd]
      split_ifs
      · exact hs
      · cases vals with
        | none => exact hs
        | some vals =>
          simp only
          split_ifs
          · exact hs
          · exact (calm_semunrm s id 0 _).trans (calm_setAll vals _ p _)

theorem calm_exitEntry (hs : SemWf cfg s) (e : Undo) : Calm s (exitEntry cfg e s) := by
  have hrefl : Calm s s := (Wakes.refl s).calm fun _ => rfl
  rw [exitEntry]
  cases semconv cfg s e.unId with
  | none => exact hrefl
  | some slot =>
    have hlim := cfg.semvmx_le
    have hold := hs.semval ((s.sema slot).base + e.unNum).toNat
    simp only
    split_ifs with hv hpos h0 h0
    · exact hrefl
    · exact absurd h0 (by omega)
    · have hval := ushort_eq
        (x := (s.sem ((s.sema slot).base + e.unNum).toNat).semval + e.unAoe) (by omega)
      refine calm_onSem_wakeN rfl rfl fun _ => ?_
      simp only
      omega
    · have hval := ushort_eq
        (x := (s.sem ((s.sema slot).base + e.unNum).toNat).semval + e.unAoe) (by omega)
      refine calm_onSem_wakeZ rfl rfl ?_
      simp only
      omega
    · have hval := ushort_eq
        (x := (s.sem ((s.sema slot).base + e.unNum).toNat).semval + e.unAoe) (by omega)
      refine calm_onSem rfl rfl ?_ ?_
      · simp only
        omega
      · simp only
        omega

theorem calm_exitEntries (hs : SemWf cfg s) (ents : List Undo) :
    Calm s (exitEntries cfg ents s) := by
  induction ents generalizing s with
  | nil => exact (Wakes.refl s).calm fun _ => rfl
  | cons e ents ih => exact (calm_exitEntry hs e).trans (ih (wf_exitEntry hs e))

theorem calm_semexit (hs : SemWf cfg s) (p : Proc) : Calm s (semexit cfg p s) := by
  rw [semexit]
  cases s.undo p with
  | none => exact (Wakes.refl s).calm fun _ => rfl
  | some ents =>
    have h := calm_exitEntries hs ents.reverse
    simp only
    split_ifs
    · exact calm_of_eq rfl fun _ => ⟨rfl, rfl, rfl⟩
    · exact h.trans (calm_of_eq rfl fun _ => ⟨rfl, rfl, rfl⟩)

/-- A sleeper that leaves wakes the others if it may have been the only one. -/
theorem calm_dropSleeper (s : SemState) (ch : Chan) : Calm s (s.dropSleeper ch) := by
  have hgone : ∀ ch' q, (s.wakeup ch').slp q ≠ some ch' := by
    intro ch' q hq
    simp only [wakeup] at hq
    split_ifs at hq with hq'
    exact hq' hq
  have hkept : ∀ ch' q ch, (s.wakeup ch').slp q = some ch → s.slp q = some ch := by
    intro ch' q ch hq
    simp only [wakeup] at hq
    split_ifs at hq
    exact hq
  cases ch with
  | semncnt g =>
    rw [dropSleeper]
    split_ifs with h
    · refine calm_of_sem (g := g) (hkept _) (fun k hk => ?_) (fun hex _ => ?_) (fun _ h0 => ?_)
      · exact update_of_ne hk _ _
      · obtain ⟨q, hq⟩ := hex
        exact absurd hq (hgone _ q)
      · simpa [wakeup, onSem] using h0
    · refine calm_of_sem (g := g) (fun q ch hq => hq) (fun k hk => ?_) (fun _ _ => ?_) (fun _ h0 => ?_)
      · exact update_of_ne hk _ _
      · simp only [onSem, update_self]
        omega
      · simpa [onSem] using h0
  | semzcnt g =>
    rw [dropSleeper]
    split_ifs with h
    · refine calm_of_sem (g := g) (hkept _) (fun k hk => ?_) (fun _ h0 => ?_) (fun hex _ => ?_)
      · exact update_of_ne hk _ _
      · simpa [wakeup, onSem] using h0
      · obtain ⟨q, hq⟩ := hex
        exact absurd hq (hgone _ q)
    · refine calm_of_sem (g := g) (fun q ch hq => hq) (fun k hk => ?_) (fun _ h0 => ?_) (fun _ _ => ?_)
      · exact update_of_ne hk _ _
      · simpa [onSem] using h0
      · simp only [onSem, update_self]
        exact ⟨fun h => h, by omega⟩

theorem calm_addSleeper (s : SemState) (ch : Chan) : Calm s (s.addSleeper ch) := by
  cases ch with
  | semncnt g =>
    refine calm_of_sem (g := g) (fun q ch hq => hq) (fun k hk => update_of_ne hk _ _)
      (fun _ _ => ?_) (fun _ h0 => ?_)
    · simp [addSleeper, onSem]
    · simpa [addSleeper, onSem] using h0
  | semzcnt g =>
    refine calm_of_sem (g := g) (fun q ch hq => hq) (fun k hk => update_of_ne hk _ _)
      (fun _ h0 => ?_) (fun _ _ => ?_)
    · simpa [addSleeper, onSem] using h0
    · simp [addSleeper, onSem]

/-! ## Why a process sleeps -/

/-- What the operations of `pre` on the semaphore numbered `num` add up to. -/
def prefixSum (pre : List Sembuf) (num : ℕ) : ℤ :=
  ((pre.filter fun o => o.semNum = num).map Sembuf.semOp).sum

/-- In terms of the committed values: an operation of the array that cannot be done once
those before it are, and the counter the process sleeps on. -/
inductive Blocked (s : SemState) (c : SemCall) : Chan → Prop
  | semncnt (pre : List Sembuf) (op : Sembuf) (post : List Sembuf) (hops : c.ops = pre ++ op :: post)
      (hop : op.semOp < 0)
      (hv : (s.sem (s.semp c.slot op)).semval + prefixSum pre op.semNum < -op.semOp)
      (hcnt : 0 < (s.sem (s.semp c.slot op)).semncnt) :
      Blocked s c (.semncnt (s.semp c.slot op))
  | semzcnt (pre : List Sembuf) (op : Sembuf) (post : List Sembuf) (hops : c.ops = pre ++ op :: post)
      (hop : op.semOp = 0) (hpre : 0 ≤ prefixSum pre op.semNum)
      (hv : (s.sem (s.semp c.slot op)).semval ≠ 0 ∨ 0 < prefixSum pre op.semNum)
      (hcnt : 0 < (s.sem (s.semp c.slot op)).semzcnt) :
      Blocked s c (.semzcnt (s.semp c.slot op))

/-- Every sleeping process is inside `semop` and blocked. -/
def Sound (s : SemState) : Prop :=
  ∀ q ch, s.slp q = some ch → ∃ c, s.call q = some c ∧ Blocked s c ch

/-- Calm steps keep sleepers blocked. -/
theorem Blocked.calm {c : SemCall} {ch : Chan} (h : Blocked s c ch) (hc : Calm s t)
    (hbase : ∀ k, (t.sema k).base = (s.sema k).base) (hslp : ∃ q, t.slp q = some ch) :
    Blocked t c ch := by
  have hsemp : ∀ op, t.semp c.slot op = s.semp c.slot op := fun op => by
    rw [semp, hbase, semp]
  cases h with
  | semncnt pre op post hops hop hv hcnt =>
    rw [← hsemp] at hslp hv hcnt ⊢
    have hlow := hc.lower _ hslp hcnt
    exact .semncnt pre op post hops hop (by omega) (hc.ncnt _ hslp hcnt)
  | semzcnt pre op post hops hop hpre hv hcnt =>
    rw [← hsemp] at hslp hv hcnt ⊢
    exact .semzcnt pre op post hops hop hpre (hv.imp_left (hc.nonzero _ hslp hcnt))
      (hc.zcnt _ hslp hcnt)

theorem Sound.calm (h : Sound s) (hc : Calm s t) (hbase : ∀ k, (t.sema k).base = (s.sema k).base)
    (hcall : ∀ q, (t.slp q).isSome → t.call q = s.call q) : Sound t := by
  intro q ch hq
  obtain ⟨c, hcq, hb⟩ := h q ch (hc.slp q ch hq)
  exact ⟨c, (hcall q (by rw [hq]; rfl)).trans hcq, hb.calm hc hbase ⟨q, hq⟩⟩

/-! ## Going to sleep -/

/-- The operations before one that waits for zero do not lower its semaphore on the
whole. -/
def Patient (l : List Sembuf) : Prop :=
  ∀ pre op post, l = pre ++ op :: post → op.semOp = 0 → 0 ≤ prefixSum pre op.semNum

theorem delta_semp (s : SemState) (slot : ℕ) (pre : List Sembuf) (op : Sembuf) :
    s.delta slot pre (s.semp slot op) = prefixSum pre op.semNum := by
  have h : (fun o => decide (s.semp slot o = s.semp slot op)) =
      fun o => decide (o.semNum = op.semNum) := by
    funext o
    simp only [semp, Nat.add_left_cancel_iff]
  rw [delta, h, prefixSum]

theorem sema_exec (hs : SemWf cfg s) (h : exec (did cfg c) s l = some t) : t.sema = s.sema := by
  induction l generalizing s with
  | nil => cases h; rfl
  | cons op l ih =>
    obtain ⟨v, hv, h⟩ := exec_cons.mp h
    exact (ih ((undoes_tryOp cfg c).keeps hs hv) h).trans (semval_did hs hv 0).2

/-- A pass goes to sleep because, from the committed values, an operation of its array
cannot be done. -/
theorem blocked_of_sleeps (hs : SemWf cfg s) {ch : Chan}
    (h : semopLoop cfg c [] l s = (.sleeps ch, t)) (hl : Patient l) :
    Blocked (t.addSleeper ch) ⟨c.semid, c.slot, c.first, l, ch⟩ ch := by
  have hunt := untouched_semopLoop hs h (by simp)
  rcases semopLoop_cases cfg c [] l s with ⟨_, -, heq⟩ | ⟨pre, op, post, v, r, u, rfl, hrun, hstop, heq⟩ <;>
    rw [h] at heq <;> cases heq
  have hsema := sema_exec hs hrun
  have hval := semval_exec hs hrun (s.semp c.slot op)
  rw [delta_semp] at hval
  have hsemp : v.semp c.slot op = s.semp c.slot op := by rw [semp, hsema, semp]
  set w := semundo cfg c (pre.reverse ++ []) u
  have hw : ∀ ch', (w.addSleeper ch').semp c.slot op = s.semp c.slot op := by
    intro ch'
    rw [semp, (sameData_addSleeper w ch').sema, hunt.sema, semp]
  have hwval : ∀ ch', ((w.addSleeper ch').sem (s.semp c.slot op)).semval =
      (s.sem (s.semp c.slot op)).semval := fun ch' =>
    ((sameData_addSleeper w ch').semval _).trans (hunt.semval _)
  have hcases := tryOp_cases cfg c op v
  generalize tryOp cfg c op v = tr at hstop hcases
  cases hstop
  cases hcases with
  | waitsN hop hv =>
    rw [hsemp] at hv ⊢
    have hb := Blocked.semncnt (s := w.addSleeper (.semncnt (s.semp c.slot op)))
      (c := ⟨c.semid, c.slot, c.first, pre ++ op :: post, .semncnt (s.semp c.slot op)⟩)
      pre op post rfl hop (by rw [hw, hwval]; omega)
      (by rw [hw]; simp [addSleeper, onSem])
    rwa [hw] at hb
  | waitsZ hop hv =>
    rw [hsemp] at hv ⊢
    have hpre := hl pre op post rfl hop
    have hb := Blocked.semzcnt (s := w.addSleeper (.semzcnt (s.semp c.slot op)))
      (c := ⟨c.semid, c.slot, c.first, pre ++ op :: post, .semzcnt (s.semp c.slot op)⟩)
      pre op post rfl hop hpre (by rw [hw, hwval]; omega)
      (by rw [hw]; simp [addSleeper, onSem])
    rwa [hw] at hb

theorem Blocked.congr {d : SemCall} {ch : Chan} (h : Blocked s d ch) (hsem : t.sem = s.sem)
    (hsema : t.sema = s.sema) : Blocked t d ch := by
  have hsemp : ∀ op, t.semp d.slot op = s.semp d.slot op := fun op => by
    rw [semp, hsema, semp]
  cases h with
  | semncnt pre op post hops hop hv hcnt =>
    rw [← hsemp, ← hsem] at *
    exact .semncnt pre op post hops hop hv hcnt
  | semzcnt pre op post hops hop hpre hv hcnt =>
    rw [← hsemp, ← hsem] at *
    exact .semzcnt pre op post hops hop hpre hv hcnt

/-- **A pass keeps every sleeper blocked**, the one it may put to sleep included. -/
theorem Sound.attempt (h : Sound s) (hs : SemWf cfg s) (hp : s.slp c.p = none) (hl : Patient l) :
    Sound (Io.attempt cfg c l s).2 := by
  have hcalm : Calm s (semopLoop cfg c [] l s).2 := calm_semopLoop hs
  have huses : Uses c l s (semopLoop cfg c [] l s).2 := uses_semopLoop (by simp) (fun _ h => h) s
  have hawake : ∀ t, Calm s t → t.slp c.p = none := by
    intro t ht
    cases hq : t.slp c.p with
    | none => rfl
    | some ch => rw [ht.slp _ _ hq] at hp; cases hp
  have hnot : ∀ (t : SemState) (x : Option SemCall) q, t.slp c.p = none → (t.slp q).isSome →
      update t.call c.p x q = t.call q := by
    intro t x q ht hq
    refine update_of_ne ?_ _ _
    rintro rfl
    rw [ht] at hq
    cases hq
  rcases hloop : semopLoop cfg c [] l s with ⟨_ | e | ch, t⟩ <;> rw [hloop] at hcalm huses
  · rw [attempt_done hloop]
    have hall := hcalm.trans (calm_setPids c l t)
    have hpids := uses_setPids (c := c) (l := l) (fun _ h => h) t
    refine h.calm (hall.trans (calm_of_eq rfl fun _ => ⟨rfl, rfl, rfl⟩)) (fun k => ?_) fun q hq => ?_
    · have hsema : t.sema = s.sema := huses.sema
      simp only [hpids.sema, hsema]
    · have hq' : (t.slp q).isSome := by
        obtain ⟨ch, hch⟩ := isSome_iff_exists.mp hq
        rw [(calm_setPids c l t).slp q ch hch]; rfl
      rw [← huses.call]
      exact hnot t none q (hawake t hcalm) hq'
  · rw [attempt_error hloop]
    refine h.calm (hcalm.trans (calm_of_eq rfl fun _ => ⟨rfl, rfl, rfl⟩)) (fun k => ?_) fun q hq => ?_
    · have hsema : t.sema = s.sema := huses.sema
      simp only [hsema]
    · rw [← huses.call]
      exact hnot t none q (hawake t hcalm) hq
  · rw [attempt_sleeps hloop]
    have hslp : (t.addSleeper ch).slp = t.slp := by cases ch <;> rfl
    have hdata := sameData_addSleeper t ch
    have hsound : Sound (t.addSleeper ch) :=
      h.calm (hcalm.trans (calm_addSleeper t ch)) (fun k => by rw [hdata.sema, huses.sema])
        fun q _ => by rw [hdata.call, huses.call]
    intro q ch' hq
    by_cases hqp : q = c.p
    · subst hqp
      simp only [update_self, Option.some.injEq] at hq
      subst hq
      exact ⟨_, update_self _ _ _, (blocked_of_sleeps hs hloop hl).congr rfl rfl⟩
    · simp only [update_of_ne hqp] at hq
      obtain ⟨d, hd, hb⟩ := hsound q ch' (by rw [hslp]; exact hq)
      refine ⟨d, ?_, hb.congr rfl rfl⟩
      rw [hdata.call] at hd
      simpa only [update_of_ne hqp] using hd

/-! ## The law -/

/-- The array can be carried out, in order and all of it, from the values `v` of the
semaphores of its set. -/
def Runnable (cfg : SemInfo) (v : ℕ → ℤ) : List Sembuf → Prop
  | [] => True
  | op :: rest =>
    (0 < op.semOp → op.semOp + v op.semNum ≤ cfg.semvmx) ∧
    (op.semOp < 0 → -op.semOp ≤ v op.semNum) ∧
    (op.semOp = 0 → v op.semNum = 0) ∧
    Runnable cfg (update v op.semNum (v op.semNum + op.semOp)) rest

theorem prefixSum_cons (op : Sembuf) (pre : List Sembuf) (num : ℕ) :
    prefixSum (op :: pre) num = (if op.semNum = num then op.semOp else 0) + prefixSum pre num := by
  rw [prefixSum, prefixSum]
  by_cases h : op.semNum = num <;> simp [h]

/-- In a runnable array each operation can be done once those before it are. -/
theorem Runnable.at {v : ℕ → ℤ} {pre post : List Sembuf} (h : Runnable cfg v (pre ++ op :: post)) :
    (op.semOp < 0 → -op.semOp ≤ v op.semNum + prefixSum pre op.semNum) ∧
      (op.semOp = 0 → v op.semNum + prefixSum pre op.semNum = 0) := by
  induction pre generalizing v with
  | nil =>
    obtain ⟨-, h1, h2, -⟩ := h
    simpa [prefixSum] using ⟨h1, h2⟩
  | cons o pre ih =>
    have hih := ih h.2.2.2
    have hval : update v o.semNum (v o.semNum + o.semOp) op.semNum =
        v op.semNum + if o.semNum = op.semNum then o.semOp else 0 := by
      rw [update_apply]
      split_ifs with h1 h2 h2
      · rw [h1]
      · exact absurd h1.symm h2
      · exact absurd h2.symm h1
      · rw [add_zero]
    rw [hval, add_assoc, ← prefixSum_cons] at hih
    exact hih

/-- A blocked array is not runnable. -/
theorem Blocked.not_runnable {d : SemCall} {ch : Chan} (h : Blocked s d ch) :
    ¬ Runnable cfg (fun num => (s.sem ((s.sema d.slot).base + num)).semval) d.ops := by
  intro hrun
  cases h with
  | semncnt pre op post hops hop hv =>
    rw [hops] at hrun
    have := hrun.at.1 hop
    rw [semp] at hv
    omega
  | semzcnt pre op post hops hop hpre hv =>
    rw [hops] at hrun
    have := hrun.at.2 hop
    rw [semp] at hv
    omega

/-- The events a history may contain: arrays copied in that are patient. -/
def PatientEvent (_ : SemState) : SemEvent → Prop
  | .semop _ _ _ _ ops => ∀ l ∈ ops, Patient l
  | .resume _ ops => ∀ l ∈ ops, Patient l
  | _ => True

theorem Sound.not_asleep (h : Sound s) (hp : s.call p = none) : s.slp p = none := by
  cases hq : s.slp p with
  | none => rfl
  | some ch =>
    obtain ⟨c, hc, -⟩ := h p ch hq
    rw [hp] at hc
    cases hc

/-- **One event keeps every sleeper blocked.** -/
theorem Sound.step (h : Sound s) (hs : SemWf cfg s) {e : SemEvent} (hok : PatientEvent s e)
    (he : s.step cfg e = some t) : Sound t := by
  cases e with
  | semop p u id nsops ops =>
    rw [SemState.step] at he
    split_ifs at he with hp
    cases he
    rcases semop_cases cfg p u id nsops ops s with ⟨e, heq⟩ | ⟨slot, l, -, hl, -, heq⟩ <;> rw [heq]
    · exact h
    · exact h.attempt hs (h.not_asleep hp.1) (hok l hl)
  | resume p ops =>
    rw [SemState.step] at he
    split at he
    · cases he
    · rename_i c hc
      split_ifs at he with hp
      cases he
      rcases resume_cases cfg p c ops s with ⟨e, heq⟩ | ⟨slot, l, -, hl, heq⟩ <;> rw [heq]
      · refine h.calm (calm_of_eq rfl fun _ => ⟨rfl, rfl, rfl⟩) (fun _ => rfl) fun q hq => ?_
        refine update_of_ne ?_ _ _
        rintro rfl
        simp [hp.1] at hq
      · exact h.attempt hs hp.1 (hok l hl)
  | interrupt p =>
    obtain ⟨c, -, rfl⟩ := map_eq_some_iff.mp he
    set s' : SemState := { s with
      slp := update s.slp p none, call := update s.call p none } with hs'
    have hawake : ∀ q ch, s'.slp q = some ch → q ≠ p ∧ s.slp q = some ch := by
      intro q ch hq
      by_cases hqp : q = p
      · simp [hs', hqp] at hq
      · exact ⟨hqp, by simpa [hs', hqp] using hq⟩
    have hcalm : Calm s s' := ⟨⟨fun q ch hq => (hawake q ch hq).2, fun _ _ h => h, fun _ _ h => h⟩,
      fun _ _ _ => le_rfl, fun _ _ _ h => h⟩
    have hdrop := calm_dropSleeper s' c.chan
    have hdata := sameData_dropSleeper s' c.chan
    refine h.calm (hcalm.trans hdrop) (fun k => ?_) fun q hq => ?_
    · show (((s'.dropSleeper c.chan).sema) k).base = _
      rw [hdata.sema]
    · obtain ⟨ch, hch⟩ := isSome_iff_exists.mp hq
      have hqp := (hawake q ch (hdrop.slp q ch hch)).1
      show (s'.dropSleeper c.chan).call q = _
      rw [hdata.call]
      exact update_of_ne hqp _ _
  | semctl p u id cmd =>
    rw [SemState.step] at he
    split_ifs at he
    cases he
    have hc := sameCalls_semctl cfg p u id cmd s
    exact h.calm (calm_semctl cfg p u id cmd s) hc.base fun q _ => by rw [hc.call]
  | semexit p =>
    rw [SemState.step] at he
    split_ifs at he
    cases he
    have hc := sameCalls_semexit cfg p s
    exact h.calm (calm_semexit hs p) hc.base fun q _ => by rw [hc.call]

/-- **No wakeup is lost** in a history whose arrays are patient: a process asleep in
`semop` is one whose array cannot be carried out from the current values. -/
theorem no_lost_wakeup (hs : SemWf cfg s) (hslp : ∀ p, s.slp p = none) {es : List SemEvent}
    (hok : StepsMeet PatientEvent (SemState.step cfg) s es)
    (h : exec (SemState.step cfg) s es = some t) {q : Proc} {ch : Chan} (hq : t.slp q = some ch) :
    ∃ d, t.call q = some d ∧
      ¬ Runnable cfg (fun num => (t.sem ((t.sema d.slot).base + num)).semval) d.ops := by
  have h0 : SemWf cfg s ∧ Sound s :=
    ⟨hs, fun q ch hq => by rw [hslp] at hq; cases hq⟩
  have hstep : ∀ s e t, SemWf cfg s ∧ Sound s → PatientEvent s e → s.step cfg e = some t →
      SemWf cfg t ∧ Sound t := fun s e t hs hc he => ⟨hs.1.step he, hs.2.step hs.1 hc he⟩
  obtain ⟨-, hsound⟩ := exec_invariant hstep h0 hok h
  obtain ⟨d, hd, hb⟩ := hsound q ch hq
  exact ⟨d, hd, hb.not_runnable⟩

/-- A process waits to lower a semaphore. -/
theorem no_lost_wakeup_lower : ∃ t, exec (SemState.step shipped) idle
    [.semop 7 ⟨0, 0⟩ 0 1 (some [lower 0])] = some t ∧ ∃ d, t.call 7 = some d ∧
      ¬ Runnable shipped (fun num => (t.sem ((t.sema d.slot).base + num)).semval) d.ops := by
  have hpatient : Patient [lower 0] := by
    intro pre op post h h0
    cases pre with
    | nil => simp [prefixSum]
    | cons o pre => simp at h
  have hok : StepsMeet PatientEvent (SemState.step shipped) idle
      [.semop 7 ⟨0, 0⟩ 0 1 (some [lower 0])] := by
    refine stepsMeet_of_forall fun e he _ => ?_
    rw [List.mem_singleton.mp he]
    rintro l ⟨⟩
    exact hpatient
  exact ⟨_, rfl, no_lost_wakeup idle_wf (fun _ => rfl) hok rfl
    (show _ = some (Chan.semncnt 1) from rfl)⟩

/-- Lower semaphore 0 and wait for it to be zero: at value 3 the process sleeps, at
value 1 it could go on, but lowering 3 to 1 wakes nobody. -/
theorem lost_wakeup : ¬ ∀ (s t : SemState) (es : List SemEvent), SemWf shipped s →
    (∀ p, s.slp p = none) → exec (SemState.step shipped) s es = some t →
      ∀ q ch, t.slp q = some ch → ∃ d, t.call q = some d ∧ ((semconv shipped t d.semid).isSome →
        ¬ Runnable shipped (fun num => (t.sem ((t.sema d.slot).base + num)).semval) d.ops) := by
  intro h
  obtain ⟨d, hd, hrun⟩ := h idle _
    [.semctl 9 ⟨0, 0⟩ 0 (.setval 0 3),
      .semop 7 ⟨0, 0⟩ 0 2 (some [lower 0, ⟨0, 0, false, false, by decide, by decide⟩]),
      .semop 8 ⟨0, 0⟩ 0 1 (some [⟨0, -2, false, false, by decide, by decide⟩])]
    idle_wf (fun _ => rfl) rfl 7 (.semzcnt 1) rfl
  cases hd
  refine hrun rfl ⟨nofun, fun _ => ?_, nofun, nofun, nofun, fun _ => ?_, trivial⟩
  · show -(-1) ≤ (1 : ℤ)
    decide
  · show (1 : ℤ) + -1 = 0
    decide

end Io
