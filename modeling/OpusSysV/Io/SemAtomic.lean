import OpusSysV.Io.SemUndo

/-!
# `semop` is all or nothing

A pass of `semop` over its array is a tentative run in the sense of `Lib.Rollback`:

* `tryOp_did`, `tryOp_fails`, `tryOp_waits` say what one operation does;
* `undoes_tryOp` — `undoOp` undoes it, in any state that agrees with its result on
  values, pids and the process's table;
* `semopLoop_cases` — a pass either runs through or stops at one operation and rolls
  back those before it;
* `semop_all_or_nothing` puts these together for the three ways a process executes
  `semop`: a new call, the continuation after a sleep, and an interrupted sleep.
-/

namespace Io

open Lib Function List SemState

variable {cfg : SemInfo} {s t u : SemState} {p : Proc} {g : ℕ} {op : Sembuf} {c : SemCtx}

/-! ## One operation -/

/-- What one operation does: it is done (a wait for zero, a raise, or a lowering), it
fails, or it has to wait. -/
inductive TryCases (cfg : SemInfo) (c : SemCtx) (op : Sembuf) (s : SemState) : Tried → Prop
  | zero (h : op.semOp = 0) (hv : (s.sem (s.semp c.slot op)).semval = 0) :
      TryCases cfg c op s (.did (s.use c.slot c.first op))
  | raise (t : SemState) (h : 0 < op.semOp)
      (hv : op.semOp + (s.sem (s.semp c.slot op)).semval ≤ cfg.semvmx)
      (hc : charge cfg (s.use c.slot c.first op) c.p c.semid op = (none, t)) :
      TryCases cfg c op s (.did (((t.addVal (s.semp c.slot op) op.semOp).wakeN
        (s.semp c.slot op)).wakeIfZero (s.semp c.slot op)))
  | lower (t : SemState) (h : op.semOp < 0)
      (hv : -op.semOp ≤ (s.sem (s.semp c.slot op)).semval)
      (hc : charge cfg (s.use c.slot c.first op) c.p c.semid op = (none, t)) :
      TryCases cfg c op s (.did ((t.addVal (s.semp c.slot op) op.semOp).wakeIfZero
        (s.semp c.slot op)))
  | range : TryCases cfg c op s (.fails .ERANGE (s.use c.slot c.first op))
  | refused (e : SemErr) (t : SemState)
      (hc : charge cfg (s.use c.slot c.first op) c.p c.semid op = (some e, t)) :
      TryCases cfg c op s (.fails e t)
  | waitsN (h : op.semOp < 0) (hv : (s.sem (s.semp c.slot op)).semval < -op.semOp) :
      TryCases cfg c op s (.waits (.semncnt (s.semp c.slot op)) (s.use c.slot c.first op))
  | waitsZ (h : op.semOp = 0) (hv : (s.sem (s.semp c.slot op)).semval ≠ 0) :
      TryCases cfg c op s (.waits (.semzcnt (s.semp c.slot op)) (s.use c.slot c.first op))

theorem tryOp_cases (cfg : SemInfo) (c : SemCtx) (op : Sembuf) (s : SemState) :
    TryCases cfg c op s (tryOp cfg c op s) := by
  rw [tryOp]
  by_cases hpos : 0 < op.semOp
  · simp only [if_pos hpos]
    by_cases hmax : cfg.semvmx < op.semOp + (s.sem (s.semp c.slot op)).semval
    · simp only [if_pos hmax]
      exact .range
    · simp only [if_neg hmax]
      rcases hc : charge cfg (s.use c.slot c.first op) c.p c.semid op with ⟨_ | e, t⟩
      · exact .raise t hpos (not_lt.mp hmax) hc
      · exact .refused e t hc
  · by_cases hneg : op.semOp < 0
    · simp only [if_neg hpos, if_pos hneg]
      by_cases hv : -op.semOp ≤ (s.sem (s.semp c.slot op)).semval
      · simp only [if_pos hv]
        rcases hc : charge cfg (s.use c.slot c.first op) c.p c.semid op with ⟨_ | e, t⟩
        · exact .lower t hneg hv hc
        · exact .refused e t hc
      · simp only [if_neg hv]
        exact .waitsN hneg (not_le.mp hv)
    · simp only [if_neg hpos, if_neg hneg]
      have h0 : op.semOp = 0 := by omega
      by_cases hv : (s.sem (s.semp c.slot op)).semval ≠ 0
      · simp only [if_pos hv]
        exact .waitsZ h0 hv
      · simp only [if_neg hv]
        exact .zero h0 (not_not.mp hv)

/-- One operation, as a step that may not be possible. -/
def did (cfg : SemInfo) (c : SemCtx) (s : SemState) (op : Sembuf) : Option SemState :=
  match tryOp cfg c op s with
  | .did t => some t
  | _ => none

theorem did_eq_some : did cfg c s op = some t ↔ tryOp cfg c op s = .did t := by
  rw [did]
  cases h : tryOp cfg c op s <;> simp

/-! ## Undoing one operation -/

theorem SameData.wf (h : SameData s t) (hs : SemWf cfg s) : SemWf cfg t :=
  ⟨fun g => by rw [h.semval]; exact hs.semval g, fun p => by
    rw [entries_congr (congrFun h.undo p)]; exact hs.tables p⟩

/-- A charge that succeeds, whether or not the operation has `SEM_UNDO`. -/
theorem charge_ok {id : ℤ} (hs : SemWf cfg s) (h : charge cfg s p id op = (none, t)) :
    SemWf cfg t ∧ ((s.undo p).isSome → (t.undo p).isSome) := by
  have hf : SameSems p s t := by
    have := sameSems_charge cfg s p id op
    rwa [h] at this
  rw [charge] at h
  split_ifs at h with hu
  · have h1 : (semaoe cfg s p op.semOp id (short op.semNum)).1 = none := by rw [h]
    have hb := semaoe_back hs h1
    rw [h] at hb
    refine ⟨⟨fun g => by rw [hf.sem]; exact hs.semval g, fun q => ?_⟩, hb.2.1⟩
    by_cases hq : q = p
    · rw [hq]; exact hb.1
    · rw [entries_congr (hf.others q hq)]; exact hs.tables q
  · cases h
    exact ⟨hs, fun h => h⟩

theorem semval_addVal (s : SemState) (g k : ℕ) (x : ℤ) :
    ((s.addVal g x).sem k).semval =
      if k = g then ushort ((s.sem g).semval + x) else (s.sem k).semval := by
  rw [addVal, sem_onSem]
  split_ifs <;> rfl

theorem sempid_addVal (s : SemState) (g k : ℕ) (x : ℤ) :
    ((s.addVal g x).sem k).sempid = (s.sem k).sempid := by
  rw [addVal, sem_onSem]
  split_ifs with h
  · rw [h]
  · rfl

theorem wf_addVal {x : ℤ} (hs : SemWf cfg s)
    (h : 0 ≤ (s.sem g).semval + x ∧ (s.sem g).semval + x ≤ cfg.semvmx) :
    SemWf cfg (s.addVal g x) := by
  refine ⟨fun k => ?_, fun p => hs.tables p⟩
  have hmax := cfg.semvmx_le
  have := ushort_eq (x := (s.sem g).semval + x) (by omega)
  rw [semval_addVal]
  split_ifs
  · omega
  · exact hs.semval k

/-- A value that is changed and changed back. -/
theorem semval_addVal_back {x : ℤ} (h : 0 ≤ (s.sem g).semval + x ∧ (s.sem g).semval + x < 65536)
    (hs : (s.sem g).semval < 65536) (hu : ∀ k, (u.sem k).semval = ((s.addVal g x).sem k).semval)
    (k : ℕ) : ((u.addVal g (-x)).sem k).semval = (s.sem k).semval := by
  have h1 := ushort_eq h
  rw [semval_addVal]
  split_ifs with hk
  · rw [hu, semval_addVal, if_pos rfl, h1, hk]
    have h2 := ushort_eq (x := (s.sem g).semval + x + -x) (by omega)
    omega
  · rw [hu, semval_addVal, if_neg hk]

/-- `undoOp` after a change of a value that was charged. -/
theorem untouched_undoOp (hs : SemWf cfg s) (hx : op.semOp ≠ 0)
    (hv : 0 ≤ (s.sem (s.semp c.slot op)).semval + op.semOp ∧
      (s.sem (s.semp c.slot op)).semval + op.semOp ≤ cfg.semvmx)
    {r : SemState} (hc : charge cfg (s.use c.slot c.first op) c.p c.semid op = (none, r))
    (ht : SameData (r.addVal (s.semp c.slot op) op.semOp) t) (hu : Untouched c.p t u) :
    Untouched c.p s (undoOp cfg c op u) := by
  have hmax := cfg.semvmx_le
  have hbound := hs.semval (s.semp c.slot op)
  have hr : SameSems c.p (s.use c.slot c.first op) r := by
    have := sameSems_charge cfg (s.use c.slot c.first op) c.p c.semid op
    rwa [hc] at this
  have hrs : r.sem = s.sem := hr.sem
  have hsema : u.sema = s.sema := hu.sema.trans (ht.sema.trans hr.sema)
  have hent : u.entries c.p = r.entries c.p := hu.entries.trans (entries_congr (congrFun ht.undo _))
  have hoth : ∀ q ≠ c.p, u.undo q = s.undo q := fun q hq =>
    (hu.others q hq).trans ((congrFun ht.undo q).trans (hr.others q hq))
  have htab : (r.undo c.p).isSome → (u.undo c.p).isSome := fun h =>
    hu.table (by rw [ht.undo]; exact h)
  -- the state after the value is put back, before the credit
  set w := (u.use c.slot c.first op).addVal (u.semp c.slot op) (-op.semOp) with hw
  have hsemp : u.semp c.slot op = s.semp c.slot op := by rw [semp, hsema]; rfl
  have hwval : ∀ k, (w.sem k).semval = (s.sem k).semval := by
    rw [hw, hsemp]
    refine semval_addVal_back (by omega) (by omega) fun k => ?_
    rw [show (u.use c.slot c.first op).sem = u.sem from rfl, hu.semval, ht.semval, semval_addVal,
      semval_addVal, hrs]
  have hwpid : ∀ k, (w.sem k).sempid = (s.sem k).sempid := by
    intro k
    rw [hw, sempid_addVal, show (u.use c.slot c.first op).sem = u.sem from rfl, hu.sempid,
      ht.sempid, sempid_addVal, hrs]
  have heq : undoOp cfg c op u =
      if op.semUndo then (semaoe cfg w c.p (short (-op.semOp)) c.semid (short op.semNum)).2
      else w := by rw [undoOp, if_neg hx]
  rw [heq]
  rw [charge] at hc
  split_ifs at hc ⊢ with hundo
  · have hback := semaoe_back (s := s.use c.slot c.first op) ((sameData_use _ _ _ _).wf hs)
      (by rw [hc])
    rw [hc] at hback
    obtain ⟨h1, h2⟩ := hback.2.2 w hent htab
    have hf := sameSems_semaoe cfg w c.p (short (-op.semOp)) c.semid (short op.semNum)
    exact ⟨hf.sema.trans hsema, fun k => by rw [hf.sem]; exact hwval k,
      fun k => by rw [hf.sem]; exact hwpid k, h1, fun q hq => (hf.others q hq).trans (hoth q hq), h2⟩
  · cases hc
    exact ⟨hsema, hwval, hwpid, hent, hoth, htab⟩

/-- **`undoOp` undoes `tryOp`.** -/
theorem undoes_tryOp (cfg : SemInfo) (c : SemCtx) :
    Undoes (SemWf cfg) (Untouched c.p) (did cfg c) (undoOp cfg c) := by
  constructor
  case keeps =>
    intro s op t hs h
    have hcases := tryOp_cases cfg c op s
    rw [did_eq_some.mp h] at hcases
    have hmax := hs.semval (s.semp c.slot op)
    cases hcases with
    | zero => exact (sameData_use _ _ _ _).wf hs
    | raise r hop hv hc =>
      obtain ⟨hr, -⟩ := charge_ok ((sameData_use _ _ _ _).wf hs) hc
      have hsem : r.sem = s.sem := by
        have := (sameSems_charge cfg (s.use c.slot c.first op) c.p c.semid op).sem
        rwa [hc] at this
      refine ((sameData_wakeN _ _).trans (sameData_wakeIfZero _ _)).wf (wf_addVal hr ?_)
      rw [hsem]
      omega
    | lower r hop hv hc =>
      obtain ⟨hr, -⟩ := charge_ok ((sameData_use _ _ _ _).wf hs) hc
      have hsem : r.sem = s.sem := by
        have := (sameSems_charge cfg (s.use c.slot c.first op) c.p c.semid op).sem
        rwa [hc] at this
      refine (sameData_wakeIfZero _ _).wf (wf_addVal hr ?_)
      rw [hsem]
      omega
  case back =>
    intro s op t u hs h hu
    have hcases := tryOp_cases cfg c op s
    rw [did_eq_some.mp h] at hcases
    have hmax := hs.semval (s.semp c.slot op)
    cases hcases with
    | zero h0 =>
      rw [undoOp, if_pos h0]
      exact (sameData_use _ _ _ _).untouched.trans hu
    | raise r hop hv hc =>
      exact untouched_undoOp hs hop.ne' (by omega) hc
        ((sameData_wakeN _ _).trans (sameData_wakeIfZero _ _)) hu
    | lower r hop hv hc =>
      exact untouched_undoOp hs hop.ne (by omega) hc (sameData_wakeIfZero _ _) hu

/-! ## A pass -/

theorem semundo_eq_takeBack (cfg : SemInfo) (c : SemCtx) (done : List Sembuf) (s : SemState) :
    semundo cfg c done s = takeBack (undoOp cfg c) done s := by
  induction done generalizing s with
  | nil => rfl
  | cons op done ih => exact ih _

/-- How an operation that is not done ends a pass, before the rollback. -/
inductive Stops (op : Sembuf) : Tried → SemopEnd → SemState → Prop
  | fails (e : SemErr) (u : SemState) : Stops op (.fails e u) (.error e) u
  | nowait (ch : Chan) (u : SemState) (h : op.ipcNowait) : Stops op (.waits ch u) (.error .EAGAIN) u
  | waits (ch : Chan) (u : SemState) (h : ¬ op.ipcNowait) : Stops op (.waits ch u) (.sleeps ch) u

theorem Stops.ne_done {tr : Tried} {r : SemopEnd} (h : Stops op tr r u) : r ≠ .done := by
  cases h <;> simp

/-- A pass runs through, or stops at an operation and takes back those before it. -/
theorem semopLoop_cases (cfg : SemInfo) (c : SemCtx) (done ops : List Sembuf) (s : SemState) :
    (∃ t, exec (did cfg c) s ops = some t ∧ semopLoop cfg c done ops s = (.done, t)) ∨
      ∃ pre op post t r u, ops = pre ++ op :: post ∧ exec (did cfg c) s pre = some t ∧
        Stops op (tryOp cfg c op t) r u ∧
        semopLoop cfg c done ops s = (r, semundo cfg c (pre.reverse ++ done) u) := by
  induction ops generalizing done s with
  | nil => exact Or.inl ⟨s, rfl, rfl⟩
  | cons op rest ih =>
    rw [semopLoop]
    cases htry : tryOp cfg c op s with
    | did v =>
      have hdid := did_eq_some.mpr htry
      rcases ih (op :: done) v with ⟨t, h1, h2⟩ | ⟨pre, op', post, t, r, u, h1, h2, h3, h4⟩
      · exact Or.inl ⟨t, exec_cons.mpr ⟨v, hdid, h1⟩, h2⟩
      · refine Or.inr ⟨op :: pre, op', post, t, r, u, by rw [h1]; rfl,
          exec_cons.mpr ⟨v, hdid, h2⟩, h3, ?_⟩
        simpa using h4
    | fails e v =>
      exact Or.inr ⟨[], op, rest, s, _, v, rfl, rfl, htry ▸ .fails e v, rfl⟩
    | waits ch v =>
      refine Or.inr ⟨[], op, rest, s, if op.ipcNowait then .error .EAGAIN else .sleeps ch, v, rfl,
        rfl, ?_, rfl⟩
      rw [htry]
      split_ifs with hn
      · exact .nowait ch v hn
      · exact .waits ch v hn

/-- An operation that stops a pass does nothing itself. -/
theorem Stops.untouched {r : SemopEnd} (hs : SemWf cfg s)
    (h : Stops op (tryOp cfg c op s) r u) : Untouched c.p s u := by
  have hcases := tryOp_cases cfg c op s
  have huse := (sameData_use s c.slot c.first op).untouched (p := c.p)
  cases htry : tryOp cfg c op s with
  | did v => rw [htry] at h; cases h
  | fails e v =>
    rw [htry] at h hcases
    cases h
    cases hcases with
    | range => exact huse
    | refused _ _ hc =>
      rw [charge] at hc
      split_ifs at hc with hundo
      swap
      · cases hc
      have hne : (semaoe cfg (s.use c.slot c.first op) c.p op.semOp c.semid
          (short op.semNum)).1 ≠ none := by rw [hc]; simp
      have := semaoe_error ((sameData_use s c.slot c.first op).wf hs) hne
      rw [hc] at this
      exact huse.trans this
  | waits ch v =>
    rw [htry] at h hcases
    cases hcases <;> cases h <;> exact huse

/-- A pass that does not run through leaves everything as it was. -/
theorem untouched_semopLoop (hs : SemWf cfg s) {ops : List Sembuf} {r : SemopEnd}
    (h : semopLoop cfg c [] ops s = (r, u)) (hr : r ≠ .done) : Untouched c.p s u := by
  rcases semopLoop_cases cfg c [] ops s with ⟨t, -, heq⟩ | ⟨pre, op, post, t, r', v, -, hrun, hstop, heq⟩
  · rw [heq] at h
    cases h
    exact absurd rfl hr
  · rw [heq, append_nil, semundo_eq_takeBack] at h
    cases h
    have hund := undoes_tryOp cfg c
    exact hund.rollback hs hrun (hstop.untouched (hund.keeps_exec hs hrun))

/-- What the operations on semaphore `g` add up to. -/
def SemState.delta (s : SemState) (slot : ℕ) (ops : List Sembuf) (g : ℕ) : ℤ :=
  ((ops.filter fun op => s.semp slot op = g).map Sembuf.semOp).sum

/-- One operation that is done adds its amount to its semaphore. -/
theorem semval_did (hs : SemWf cfg s) (h : did cfg c s op = some t) (k : ℕ) :
    ((t.sem k).semval : ℤ) = (s.sem k).semval + s.delta c.slot [op] k ∧ t.sema = s.sema := by
  have hcases := tryOp_cases cfg c op s
  rw [did_eq_some.mp h] at hcases
  have hmax := hs.semval (s.semp c.slot op)
  have hlim := cfg.semvmx_le
  have hdelta : s.delta c.slot [op] k = if k = s.semp c.slot op then op.semOp else 0 := by
    rw [delta, filter_singleton]
    by_cases hk : k = s.semp c.slot op
    · simp [hk]
    · simp [hk, Ne.symm hk]
  rw [hdelta]
  -- the value after the addition, which stays within 16 bits
  have hadd : ∀ r : SemState, r.sem = s.sem →
      0 ≤ (s.sem (s.semp c.slot op)).semval + op.semOp ∧
        (s.sem (s.semp c.slot op)).semval + op.semOp ≤ cfg.semvmx →
      (((r.addVal (s.semp c.slot op) op.semOp).sem k).semval : ℤ) =
        (s.sem k).semval + if k = s.semp c.slot op then op.semOp else 0 := by
    intro r hr hv
    rw [semval_addVal, hr]
    split_ifs with hk
    · rw [ushort_eq (by omega), hk]
    · rw [add_zero]
  have hsems := sameSems_charge cfg (s.use c.slot c.first op) c.p c.semid op
  cases hcases with
  | zero h0 =>
    rw [h0, ite_self, add_zero]
    exact ⟨rfl, rfl⟩
  | raise r hop hv hc =>
    rw [hc] at hsems
    have hd := (sameData_wakeN (r.addVal (s.semp c.slot op) op.semOp) (s.semp c.slot op)).trans
      (sameData_wakeIfZero _ (s.semp c.slot op))
    exact ⟨by rw [hd.semval]; exact hadd r hsems.sem (by omega), hd.sema.trans hsems.sema⟩
  | lower r hop hv hc =>
    rw [hc] at hsems
    have hd := sameData_wakeIfZero (r.addVal (s.semp c.slot op) op.semOp) (s.semp c.slot op)
    exact ⟨by rw [hd.semval]; exact hadd r hsems.sem (by omega), hd.sema.trans hsems.sema⟩

theorem delta_cons (s : SemState) (slot : ℕ) (op : Sembuf) (ops : List Sembuf) (g : ℕ) :
    s.delta slot (op :: ops) g = s.delta slot [op] g + s.delta slot ops g := by
  simp only [delta]
  rw [← sum_append, ← map_append, ← filter_append, singleton_append]

theorem delta_congr (h : t.sema = s.sema) (slot : ℕ) (ops : List Sembuf) (g : ℕ) :
    t.delta slot ops g = s.delta slot ops g := by
  have hsemp : t.semp slot = s.semp slot := by funext op; rw [semp, h, semp]
  rw [delta, hsemp, delta]

/-- Operations that are all done add up. -/
theorem semval_exec (hs : SemWf cfg s) {ops : List Sembuf}
    (h : exec (did cfg c) s ops = some t) (k : ℕ) :
    ((t.sem k).semval : ℤ) = (s.sem k).semval + s.delta c.slot ops k := by
  induction ops generalizing s with
  | nil => cases h; simp [delta]
  | cons op ops ih =>
    obtain ⟨v, hv, h⟩ := exec_cons.mp h
    obtain ⟨h1, h2⟩ := semval_did hs hv k
    rw [ih ((undoes_tryOp cfg c).keeps hs hv) h, h1, delta_congr h2, delta_cons s c.slot op ops,
      add_assoc]

/-! ## The law -/

/-- All or nothing: on success each value has changed by the sum of its operations and
is within its limits, otherwise nothing has happened. -/
def AllOrNothing (cfg : SemInfo) (p : Proc) (slot : ℕ) (ops : Option (List Sembuf)) (s : SemState)
    (r : SemopEnd × SemState) : Prop :=
  (r.1 = .done → ∃ l, ops = some l ∧ ∀ g,
    ((r.2.sem g).semval : ℤ) = (s.sem g).semval + s.delta slot l g ∧
      (r.2.sem g).semval ≤ cfg.semvmx) ∧
  (r.1 ≠ .done → Untouched p s r.2)

theorem setPids_data (c : SemCtx) (ops : List Sembuf) (s : SemState) :
    (setPids c ops s).sema = s.sema ∧ (setPids c ops s).undo = s.undo ∧
      ∀ g, ((setPids c ops s).sem g).semval = (s.sem g).semval := by
  induction ops generalizing s with
  | nil => exact ⟨rfl, rfl, fun _ => rfl⟩
  | cons op ops ih =>
    obtain ⟨h1, h2, h3⟩ := ih ((s.use c.slot c.first op).onSem (s.semp c.slot op) fun x =>
      { x with sempid := c.p })
    refine ⟨h1, h2, fun g => (h3 g).trans ?_⟩
    rw [sem_onSem]
    split_ifs with hg
    · rw [hg]; rfl
    · rfl

theorem sameData_addSleeper (s : SemState) (ch : Chan) : SameData s (s.addSleeper ch) := by
  cases ch with
  | semncnt g => exact sameData_onSem (f := fun x => { x with semncnt := x.semncnt + 1 }) fun x => ⟨rfl, rfl⟩
  | semzcnt g => exact sameData_onSem (f := fun x => { x with semzcnt := x.semzcnt + 1 }) fun x => ⟨rfl, rfl⟩

theorem attempt_done {ops : List Sembuf} (h : semopLoop cfg c [] ops s = (.done, t)) :
    attempt cfg c ops s =
      (.done, { setPids c ops t with call := update t.call c.p none }) := by
  rw [attempt, h]

theorem attempt_error {ops : List Sembuf} {e : SemErr}
    (h : semopLoop cfg c [] ops s = (.error e, t)) :
    attempt cfg c ops s = (.error e, { t with call := update t.call c.p none }) := by
  rw [attempt, h]

theorem attempt_sleeps {ops : List Sembuf} {ch : Chan}
    (h : semopLoop cfg c [] ops s = (.sleeps ch, t)) :
    attempt cfg c ops s = (.sleeps ch, { t.addSleeper ch with
      slp := update t.slp c.p (some ch)
      call := update t.call c.p (some ⟨c.semid, c.slot, c.first, ops, ch⟩) }) := by
  rw [attempt, h]

/-- Going on at the label `check`. -/
theorem attempt_allOrNothing (hs : SemWf cfg s) (c : SemCtx) (ops : List Sembuf) :
    AllOrNothing cfg c.p c.slot (some ops) s (attempt cfg c ops s) := by
  rcases hloop : semopLoop cfg c [] ops s with ⟨_ | e | ch, t⟩
  · rw [attempt_done hloop]
    refine ⟨fun _ => ⟨ops, rfl, fun g => ?_⟩, fun h => absurd rfl h⟩
    rcases semopLoop_cases cfg c [] ops s with ⟨t', hrun, heq⟩ |
      ⟨_, op, _, v, r, _, _, _, hstop, heq⟩ <;> rw [hloop] at heq <;> cases heq
    · have hwf := (undoes_tryOp cfg c).keeps_exec hs hrun
      have hdata := (setPids_data c ops t).2.2 g
      simp only [hdata]
      exact ⟨semval_exec hs hrun g, hwf.semval g⟩
    · exact absurd rfl hstop.ne_done
  · rw [attempt_error hloop]
    have h := untouched_semopLoop hs hloop (by simp)
    exact ⟨nofun, fun _ => ⟨h.sema, h.semval, h.sempid, h.entries, h.others, h.table⟩⟩
  · rw [attempt_sleeps hloop]
    have h := (untouched_semopLoop hs hloop (by simp)).trans (sameData_addSleeper t ch).untouched
    exact ⟨nofun, fun _ => ⟨h.sema, h.semval, h.sempid, h.entries, h.others, h.table⟩⟩

theorem semconv_eq_some {id : ℤ} {slot : ℕ} (h : semconv cfg s id = some slot) :
    slot = (id % cfg.semmni).toNat := by
  simp only [semconv] at h
  split_ifs at h
  cases h
  rfl

/-- A new call fails its checks, with nothing changed, or goes to the label `check`
with the array that was verified. -/
theorem semop_cases (cfg : SemInfo) (p : Proc) (u : Cred) (id : ℤ) (nsops : ℕ)
    (ops : Option (List Sembuf)) (s : SemState) :
    (∃ e, semop cfg p u id nsops ops s = (.error e, s)) ∨
      ∃ slot l, semconv cfg s id = some slot ∧ ops = some l ∧ verify u (s.sema slot) l = none ∧
        semop cfg p u id nsops ops s = attempt cfg ⟨p, id, slot, l⟩ l s := by
  cases hconv : semconv cfg s id with
  | none => exact Or.inl ⟨.EINVAL, by simp only [semop, hconv]⟩
  | some slot =>
    simp only [semop, hconv]
    by_cases hbig : cfg.semopm < nsops
    · exact Or.inl ⟨.E2BIG, by simp only [if_pos hbig]⟩
    · cases ops with
      | none => exact Or.inl ⟨.EFAULT, by simp only [if_neg hbig]⟩
      | some l =>
        cases hver : verify u (s.sema slot) l with
        | some e => exact Or.inl ⟨e, by simp only [if_neg hbig, hver]⟩
        | none => exact Or.inr ⟨slot, l, rfl, rfl, hver, by simp only [if_neg hbig, hver]⟩

/-- After a sleep a call gives up, or goes to the label `check` with the new array. -/
theorem resume_cases (cfg : SemInfo) (p : Proc) (c : SemCall) (ops : Option (List Sembuf))
    (s : SemState) :
    (∃ e, resume cfg p c ops s = (.error e, { s with call := update s.call p none })) ∨
      ∃ slot l, semconv cfg s c.semid = some slot ∧ ops = some l ∧
        resume cfg p c ops s = attempt cfg ⟨p, c.semid, c.slot, c.first⟩ l s := by
  cases hconv : semconv cfg s c.semid with
  | none => exact Or.inl ⟨.EIDRM, by simp only [resume, hconv]⟩
  | some slot =>
    cases ops with
    | none => exact Or.inl ⟨.EFAULT, by simp only [resume, hconv]⟩
    | some l => exact Or.inr ⟨slot, l, rfl, rfl, by simp only [resume, hconv]⟩

theorem sameData_dropSleeper (s : SemState) (ch : Chan) : SameData s (s.dropSleeper ch) := by
  have hcount : ∀ (g : ℕ) (f : Sem → Sem) (ch' : Chan),
      (∀ x, (f x).semval = x.semval ∧ (f x).sempid = x.sempid) →
      SameData s ((s.onSem g f).wakeup ch') := fun g f ch' hf =>
    ⟨rfl, rfl, rfl, (sameData_onSem hf).semval, (sameData_onSem hf).sempid⟩
  cases ch <;> rw [dropSleeper] <;> split_ifs
  · exact hcount _ _ _ fun x => ⟨rfl, rfl⟩
  · exact sameData_onSem fun x => ⟨rfl, rfl⟩
  · exact hcount _ _ _ fun x => ⟨rfl, rfl⟩
  · exact sameData_onSem fun x => ⟨rfl, rfl⟩

theorem interrupt_untouched (p : Proc) (c : SemCall) (s : SemState) :
    Untouched p s (interrupt p c s).2 := by
  have h := sameData_dropSleeper
    { s with slp := update s.slp p none, call := update s.call p none } c.chan
  exact ⟨h.sema, h.semval, h.sempid, entries_congr (congrFun h.undo p), fun q _ => congrFun h.undo q,
    fun hp => by rw [interrupt, h.undo]; exact hp⟩

theorem semop_allOrNothing (hs : SemWf cfg s) (p : Proc) (u : Cred) (id : ℤ) (nsops : ℕ)
    (ops : Option (List Sembuf)) :
    AllOrNothing cfg p (id % cfg.semmni).toNat ops s (semop cfg p u id nsops ops s) := by
  rcases semop_cases cfg p u id nsops ops s with ⟨e, heq⟩ | ⟨slot, l, hconv, rfl, -, heq⟩ <;> rw [heq]
  · exact ⟨nofun, fun _ => (SameData.refl s).untouched⟩
  · rw [← semconv_eq_some hconv]
    exact attempt_allOrNothing hs ⟨p, id, slot, l⟩ l

theorem resume_allOrNothing (hs : SemWf cfg s) (p : Proc) (c : SemCall)
    (ops : Option (List Sembuf)) : AllOrNothing cfg p c.slot ops s (resume cfg p c ops s) := by
  rcases resume_cases cfg p c ops s with ⟨e, heq⟩ | ⟨slot, l, -, rfl, heq⟩ <;> rw [heq]
  · exact ⟨nofun, fun _ => ⟨rfl, fun _ => rfl, fun _ => rfl, rfl, fun _ _ => rfl, fun h => h⟩⟩
  · exact attempt_allOrNothing hs ⟨p, c.semid, c.slot, c.first⟩ l

/-- **`semop` is all or nothing**, whether the process has just called it, goes on
after a sleep, or is interrupted in its sleep. -/
theorem semop_all_or_nothing (hs : SemWf cfg s) (p : Proc) (u : Cred) (id : ℤ) (nsops : ℕ)
    (ops : Option (List Sembuf)) (c : SemCall) :
    AllOrNothing cfg p (id % cfg.semmni).toNat ops s (semop cfg p u id nsops ops s) ∧
      AllOrNothing cfg p c.slot ops s (resume cfg p c ops s) ∧
      Untouched p s (interrupt p c s).2 :=
  ⟨semop_allOrNothing hs p u id nsops ops, resume_allOrNothing hs p c ops,
    interrupt_untouched p c s⟩

/-- The limits the system is shipped with. -/
def shipped : SemInfo := ⟨10, 10, 10, 32767, 16384, by decide, by decide, by decide⟩

/-- One set of three semaphores, all zero. -/
def idle : SemState where
  sema _ := ⟨⟨0, 0, 0, 0, 0o100600, 0⟩, 1, 3⟩
  sem _ := ⟨0, 0, 0, 0⟩
  undo _ := none
  semunp := []
  semfup := 30
  slp _ := none
  call _ := none
  used := []

theorem idle_wf : SemWf shipped idle := ⟨fun _ => Nat.zero_le _, fun _ => tableOk_nil⟩

/-- Raise semaphore 0 by two, adjusting on exit, then lower semaphore 1, which cannot be
done: the call fails and the first operation is taken back. -/
theorem semop_all_or_nothing_eagain :
    let ops := some [⟨0, 2, true, false, by decide, by decide⟩,
      ⟨1, -1, false, true, by decide, by decide⟩]
    (semop shipped 7 ⟨0, 0⟩ 0 2 ops idle).1 = .error .EAGAIN ∧
      Untouched 7 idle (semop shipped 7 ⟨0, 0⟩ 0 2 ops idle).2 :=
  ⟨rfl, (semop_all_or_nothing idle_wf 7 ⟨0, 0⟩ 0 2 _ ⟨0, 0, [], [], .semncnt 0⟩).1.2 nofun⟩

/-! ## The states that occur -/

theorem Untouched.wf (h : Untouched p s t) (hs : SemWf cfg s) : SemWf cfg t := by
  refine ⟨fun g => by rw [h.semval]; exact hs.semval g, fun q => ?_⟩
  by_cases hq : q = p
  · rw [hq, h.entries]; exact hs.tables p
  · rw [entries_congr (h.others q hq)]; exact hs.tables q

theorem wf_attempt (hs : SemWf cfg s) (c : SemCtx) (ops : List Sembuf) :
    SemWf cfg (attempt cfg c ops s).2 := by
  by_cases hdone : (attempt cfg c ops s).1 = .done
  · rcases semopLoop_cases cfg c [] ops s with ⟨t, hrun, heq⟩ |
      ⟨_, op, _, v, r, _, _, _, hstop, heq⟩
    · have hwf := (undoes_tryOp cfg c).keeps_exec hs hrun
      obtain ⟨-, h2, h3⟩ := setPids_data c ops t
      rw [attempt_done heq]
      refine ⟨fun g => (h3 g).trans_le (hwf.semval g), fun q => ?_⟩
      exact entries_congr (congrFun h2 q) ▸ hwf.tables q
    · cases r with
      | done => exact absurd rfl hstop.ne_done
      | error e => rw [attempt_error heq] at hdone; cases hdone
      | sleeps ch => rw [attempt_sleeps heq] at hdone; cases hdone
  · exact ((attempt_allOrNothing hs c ops).2 hdone).wf hs

theorem unrmEntries_sublist (id : ℤ) (low high : ℕ) (ents : List Undo) :
    List.Sublist (unrmEntries id low high ents) ents := by
  induction ents with
  | nil => exact List.Sublist.refl _
  | cons e rest ih =>
    rw [unrmEntries]
    split_ifs
    · exact List.Sublist.refl _
    · exact ih.cons_cons e
    · exact List.Sublist.refl _
    · exact ih.cons e

theorem TableOk.sublist {ents ents' : List Undo} (h : TableOk cfg ents)
    (hsub : List.Sublist ents' ents) : TableOk cfg ents' :=
  ⟨h.sorted.sublist hsub, fun e he => h.bounded e (hsub.subset he),
    hsub.length_le.trans h.length_le⟩

section

variable (hs : SemWf cfg s)

include hs

theorem wf_semunrm (id : ℤ) (low high : ℕ) : SemWf cfg (semunrm id low high s) := by
  refine ⟨hs.semval, fun p => ?_⟩
  have hsub : List.Sublist ((semunrm id low high s).entries p) (s.entries p) := by
    simp only [entries, semunrm]
    split_ifs
    · cases s.undo p with
      | none => exact List.Sublist.refl _
      | some ents => exact unrmEntries_sublist id low high ents
    · exact List.Sublist.refl _
  exact (hs.tables p).sublist hsub

/-- A change of one semaphore that leaves its value within limits. -/
theorem wf_onSem {f : Sem → Sem} (hf : (f (s.sem g)).semval ≤ cfg.semvmx) :
    SemWf cfg (s.onSem g f) := by
  refine ⟨fun k => ?_, hs.tables⟩
  rw [sem_onSem]
  split_ifs
  · exact hf
  · exact hs.semval k

theorem wf_setVal {v : ℕ} (hv : v ≤ cfg.semvmx) (g : ℕ) (p : Proc) :
    SemWf cfg (s.setVal g v p) := by
  have h : SemWf cfg (s.onSem g fun x => { x with semval := v, sempid := p }) := wf_onSem hs hv
  simp only [setVal]
  split_ifs
  · exact (sameData_wakeN _ _).wf h
  · exact (sameData_wakeZ _ _).wf h

theorem wf_setAll {vals : List ℕ} (hv : ∀ v ∈ vals, v ≤ cfg.semvmx) (g : ℕ)
    (p : Proc) : SemWf cfg (setAll p vals g s) := by
  induction vals generalizing g s with
  | nil => exact hs
  | cons v vals ih =>
    exact ih (wf_setVal hs (hv v mem_cons_self) g p)
      (fun w hw => hv w (mem_cons_of_mem _ hw)) (g + 1)

theorem wf_rmAll (n g : ℕ) : SemWf cfg (rmAll n g s) := by
  induction n generalizing g s with
  | zero => exact hs
  | succ n ih =>
    refine ih ((sameData_wakeZ _ _).wf ((sameData_wakeN _ _).wf (wf_onSem hs ?_))) (g + 1)
    exact Nat.zero_le _

theorem wf_semctl (p : Proc) (u : Cred) (id : ℤ) (cmd : SemCmd) :
    SemWf cfg (semctl cfg p u id cmd s).2 := by
  rw [semctl]
  cases semconv cfg s id with
  | none => exact hs
  | some slot =>
    cases cmd with
    | rmid =>
      simp only [semctlCmd]
      split_ifs
      · exact hs
      · have h := wf_rmAll (wf_semunrm hs id 0 (s.sema slot).nsems) (s.sema slot).nsems
          (s.sema slot).base
        exact ⟨h.semval, h.tables⟩
      · have h := wf_rmAll (wf_semunrm hs id 0 (s.sema slot).nsems) (s.sema slot).nsems
          (s.sema slot).base
        exact ⟨h.semval, h.tables⟩
    | ipcSet ds =>
      simp only [semctlCmd]
      split_ifs
      · exact hs
      · cases ds with
        | none => exact hs
        | some ds => exact ⟨hs.semval, hs.tables⟩
    | setval semnum arg =>
      simp only [semctlCmd]
      split_ifs with h1 h2 h3
      · exact hs
      · exact hs
      · exact hs
      · exact wf_semunrm (wf_setVal hs (not_lt.mp h3) _ p) id semnum semnum
    | setall vals =>
      simp only [semctlCmd]
      split_ifs
      · exact hs
      · cases vals with
        | none => exact hs
        | some vals =>
          simp only
          split_ifs with hv
          · exact hs
          · exact wf_setAll (wf_semunrm hs id 0 _) (fun v hm => not_lt.mp fun hlt => hv ⟨v, hm, hlt⟩)
              _ p

theorem wf_exitEntry (e : Undo) : SemWf cfg (exitEntry cfg e s) := by
  rw [exitEntry]
  cases semconv cfg s e.unId with
  | none => exact hs
  | some slot =>
    simp only
    split_ifs with hv
    · exact hs
    all_goals
      have hmax := cfg.semvmx_le
      have hw : SemWf cfg (s.onSem ((s.sema slot).base + e.unNum).toNat fun x =>
          { x with semval := ushort ((s.sem ((s.sema slot).base + e.unNum).toNat).semval
            + e.unAoe) }) := by
        refine wf_onSem hs ?_
        have := ushort_eq (x := (s.sem ((s.sema slot).base + e.unNum).toNat).semval + e.unAoe)
          (by omega)
        simp only
        omega
    · exact (sameData_wakeN _ _).wf ((sameData_wakeZ _ _).wf hw)
    · exact (sameData_wakeN _ _).wf hw
    · exact (sameData_wakeZ _ _).wf hw
    · exact hw

theorem wf_exitEntries (ents : List Undo) :
    SemWf cfg (exitEntries cfg ents s) := by
  induction ents generalizing s with
  | nil => exact hs
  | cons e ents ih => exact ih (wf_exitEntry hs e)

theorem wf_semexit (p : Proc) : SemWf cfg (semexit cfg p s) := by
  rw [semexit]
  cases s.undo p with
  | none => exact hs
  | some ents =>
    have hdrop : ∀ (t : SemState) (k : ℕ), SemWf cfg t →
        SemWf cfg { t with semfup := k, undo := update t.undo p none } := by
      refine fun t k ht => ⟨ht.semval, fun q => ?_⟩
      by_cases hq : q = p
      · simp [entries, hq, tableOk_nil]
      · simpa [entries, hq] using ht.tables q
    simp only
    split_ifs
    · exact hdrop s _ hs
    · have h := wf_exitEntries hs ents.reverse
      exact hdrop _ _ ⟨h.semval, h.tables⟩

/-- **The values and tables that occur are well formed**: every event keeps them so. -/
theorem SemWf.step {e : SemEvent} (h : s.step cfg e = some t) : SemWf cfg t := by
  cases e with
  | semop p u id nsops ops =>
    rw [SemState.step] at h
    split_ifs at h
    cases h
    rcases semop_cases cfg p u id nsops ops s with ⟨e, heq⟩ | ⟨slot, l, -, -, -, heq⟩ <;> rw [heq]
    · exact hs
    · exact wf_attempt hs _ l
  | resume p ops =>
    rw [SemState.step] at h
    split at h
    · cases h
    · rename_i c _
      split_ifs at h
      cases h
      rcases resume_cases cfg p c ops s with ⟨e, heq⟩ | ⟨slot, l, -, -, heq⟩ <;> rw [heq]
      · exact ⟨hs.semval, hs.tables⟩
      · exact wf_attempt hs _ l
  | interrupt p =>
    obtain ⟨c, -, rfl⟩ := Option.map_eq_some_iff.mp h
    exact (interrupt_untouched p c s).wf hs
  | semctl p u id cmd =>
    rw [SemState.step] at h
    split_ifs at h
    cases h
    exact wf_semctl hs p u id cmd
  | semexit p =>
    rw [SemState.step] at h
    split_ifs at h
    cases h
    exact wf_semexit hs p

end

end Io
