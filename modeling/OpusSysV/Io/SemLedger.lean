import OpusSysV.Io.SemSet

/-!
# What the adjust-on-exit tables hold

A `Ledger` keeps, beside the state, what each process has committed with `SEM_UNDO` on
each semaphore since the semaphore was last set or removed.  The kernel keeps no such
sum: it edits sorted tables, entry by entry.

* `aoe` reads a table; `aoe_aoeEntries`, `aoe_unrmEntries` say what the two editing
  routines do to what is read.
* `ChainOk`: the processes on the list `semunp` are those with entries.
* `undo_exact` — the tables hold the ledger with the sign changed, as long as no
  semaphore from 32768 on is set or removed while there is an entry for it: its number is
  negative in the entry, and `semunrm` passes it by (`setval_keeps_entry`).
-/

namespace Io

open Lib Function List Option SemState

variable {cfg : SemInfo}

/-! ## Reading a table -/

/-- The adjustment a table holds for semaphore `num` of the set `id`: no entry is zero. -/
def aoe : List Undo → ℤ → ℤ → ℤ
  | [], _, _ => 0
  | e :: rest, id, num => if e.unId = id ∧ e.unNum = num then e.unAoe else aoe rest id num

/-- The order of the entries of a table. -/
def Sorted (ents : List Undo) : Prop := ents.Pairwise fun e f => e.Before f.unId f.unNum

variable {ents : List Undo} {val id num id' num' : ℤ}

/-- A key that comes before all entries has none. -/
theorem aoe_eq_zero (h : ∀ e ∈ ents, ¬ (e.unId = id ∧ e.unNum = num)) : aoe ents id num = 0 := by
  induction ents with
  | nil => rfl
  | cons e rest ih =>
    rw [aoe, if_neg (h e mem_cons_self)]
    exact ih fun f hf => h f (mem_cons_of_mem _ hf)

/-- Charging an operation takes its amount from what is read, and nothing else. -/
theorem aoe_aoeEntries {room : Bool} (hval : val ≠ 0 ∧ -cfg.semaem ≤ val ∧ val ≤ cfg.semaem)
    (hs : Sorted ents) (hb : Bounded cfg ents) (h : (aoeEntries cfg room val id num ents).1 = none)
    (id' num' : ℤ) :
    aoe (aoeEntries cfg room val id num ents).2 id' num' =
      aoe ents id' num' - if id' = id ∧ num' = num then val else 0 := by
  have haem := cfg.semaem_le
  have hnew : short (-val) = -val := short_eq (by omega)
  induction ents with
  | nil =>
    rw [aoeEntries] at h ⊢
    by_cases h1 : room
    · rw [if_pos h1]
      show aoe [⟨short (-val), num, id⟩] id' num' = _
      have h0 : aoe [] id' num' = 0 := rfl
      rw [h0, aoe, h0]
      by_cases hk : id = id' ∧ num = num'
      · rw [if_pos hk, if_pos (by omega), hnew, zero_sub]
      · rw [if_neg hk, if_neg (by omega), sub_zero]
    · rw [if_neg h1] at h
      cases h
  | cons e rest ih =>
    obtain ⟨he, hs'⟩ := pairwise_cons.mp hs
    have heb := hb e mem_cons_self
    rw [aoeEntries] at h ⊢
    by_cases h1 : e.Before id num
    · -- the search passes `e`
      rw [if_pos h1] at h ⊢
      have ih := ih hs' (fun f hf => hb f (mem_cons_of_mem _ hf)) h
      show aoe (e :: _) id' num' = _
      rw [aoe, aoe]
      split
      · rw [if_neg (by unfold Undo.Before at h1; omega), sub_zero]
      · rw [ih]
    rw [if_neg h1] at h ⊢
    by_cases h2 : e.unId = id ∧ e.unNum = num
    · rw [if_pos h2] at h ⊢
      by_cases h3 : cfg.semaem < short (e.unAoe - val) ∨ short (e.unAoe - val) < -cfg.semaem
      · rw [if_pos h3] at h
        cases h
      rw [if_neg h3] at h ⊢
      have haoe := short_sub_eq (by omega) heb.2 hval.2 (by omega)
      by_cases h4 : short (e.unAoe - val) = 0
      · -- the entry goes; there is no other for its semaphore
        rw [if_pos h4]
        show aoe rest id' num' = _
        rw [aoe]
        split
        · rw [if_pos (by omega), aoe_eq_zero, ← haoe, h4]
          intro f hf
          have := he f hf
          unfold Undo.Before at this
          omega
        · rw [if_neg (by omega), sub_zero]
      · rw [if_neg h4]
        show aoe ({ e with unAoe := short (e.unAoe - val) } :: rest) id' num' = _
        rw [aoe, aoe]
        by_cases hk : e.unId = id' ∧ e.unNum = num'
        · rw [if_pos hk, if_pos hk, if_pos (by omega), haoe]
        · rw [if_neg hk, if_neg hk, if_neg (by omega), sub_zero]
    · -- a new entry in front of `e`
      rw [if_neg h2] at h ⊢
      by_cases h5 : room
      · rw [if_pos h5]
        show aoe (⟨short (-val), num, id⟩ :: e :: rest) id' num' = _
        rw [aoe]
        by_cases hk : id = id' ∧ num = num'
        · rw [if_pos hk, if_pos (by omega), hnew, aoe_eq_zero, zero_sub]
          intro f hf
          unfold Undo.Before at h1
          rcases mem_cons.mp hf with rfl | hf
          · omega
          · have := he f hf
            unfold Undo.Before at this
            omega
        · rw [if_neg hk, if_neg (by omega), sub_zero]
      · rw [if_neg h5] at h
        cases h

/-- Removing a range of semaphores takes their entries, and nothing else. -/
theorem aoe_unrmEntries (hs : Sorted ents) (id : ℤ) (low high : ℕ) (id' num' : ℤ) :
    aoe (unrmEntries id low high ents) id' num' =
      if id' = id ∧ low ≤ num' ∧ num' ≤ high then 0 else aoe ents id' num' := by
  induction ents with
  | nil =>
    unfold unrmEntries aoe
    rw [ite_self]
  | cons e rest ih =>
    obtain ⟨he, hs'⟩ := pairwise_cons.mp hs
    have ih := ih hs'
    -- the entries left where the loop stops come after the range
    have hstop : (id < e.unId ∨ (e.unId = id ∧ (high : ℤ) < e.unNum)) → aoe (e :: rest) id' num' =
        if id' = id ∧ low ≤ num' ∧ num' ≤ high then 0 else aoe (e :: rest) id' num' := by
      intro hlt
      split_ifs with hin
      · apply aoe_eq_zero
        intro f hf
        rcases mem_cons.mp hf with rfl | hf
        · omega
        · have := he f hf
          unfold Undo.Before at this
          omega
      · rfl
    rw [unrmEntries]
    by_cases h1 : id < e.unId
    · rw [if_pos h1]
      exact hstop (Or.inl h1)
    rw [if_neg h1]
    split
    · rw [aoe, aoe, ih]
      split
      · rw [if_neg (by omega)]
      · rfl
    by_cases h3 : (high : ℤ) < e.unNum
    · rw [if_pos h3]
      exact hstop (Or.inr ⟨by omega, h3⟩)
    rw [if_neg h3, ih, aoe]
    split
    · rfl
    · rw [if_neg (by omega)]

/-! ## What the routines charge -/

variable {s t u : SemState} {p : Proc} {op : Sembuf} {c : SemCtx} {l : List Sembuf}

/-- A `semaoe` that succeeds. -/
theorem aoe_semaoe (hs : SemWf cfg s) (h : (semaoe cfg s p val id num).1 = none) (id' num' : ℤ) :
    aoe ((semaoe cfg s p val id num).2.entries p) id' num' =
      aoe (s.entries p) id' num' - if id' = id ∧ num' = num then val else 0 := by
  rcases semaoe_cases cfg s p val id num with ⟨heq, hz, -⟩ | ⟨hval, h1, h2⟩
  · rw [heq, hz h, ite_self, sub_zero]
  · rw [h1] at h
    rw [entries_of_undo h2]
    exact aoe_aoeEntries hval (hs.tables p).sorted (hs.tables p).bounded h id' num'

/-- What an operation commits on a semaphore of the set it names. -/
def Sembuf.charged (op : Sembuf) (num : ℤ) : ℤ :=
  if op.semUndo ∧ short op.semNum = num then op.semOp else 0

theorem aoe_charge (hs : SemWf cfg s) (h : charge cfg s p id op = (none, t)) (id' num' : ℤ) :
    aoe (t.entries p) id' num' =
      aoe (s.entries p) id' num' - if id' = id then op.charged num' else 0 := by
  unfold Sembuf.charged
  rw [charge] at h
  split_ifs at h with hu
  · have h1 : (semaoe cfg s p op.semOp id (short op.semNum)).1 = none := by rw [h]
    have := aoe_semaoe hs h1 id' num'
    rw [h] at this
    rw [this]
    congr 1
    by_cases hid : id' = id
    · rw [if_pos hid]
      by_cases hn : short op.semNum = num'
      · rw [if_pos ⟨hid, hn.symm⟩, if_pos ⟨hu, hn⟩]
      · rw [if_neg fun h => hn h.2.symm, if_neg fun h => hn h.2]
    · rw [if_neg hid, if_neg fun h => hid h.1]
  · cases h
    have h0 : ¬ (op.semUndo ∧ short op.semNum = num') := fun hc => hu hc.1
    rw [if_neg h0, ite_self, sub_zero]

/-- One operation that is done charges its process, and no other. -/
theorem aoe_did (hs : SemWf cfg s) (h : did cfg c s op = some t) (id' num' : ℤ) :
    aoe (t.entries c.p) id' num' =
        aoe (s.entries c.p) id' num' - (if id' = c.semid then op.charged num' else 0) ∧
      ∀ q ≠ c.p, t.undo q = s.undo q := by
  have hcases := tryOp_cases cfg c op s
  rw [did_eq_some.mp h] at hcases
  have huse := (sameData_use s c.slot c.first op).wf hs
  have hsems := sameSems_charge cfg (s.use c.slot c.first op) c.p c.semid op
  cases hcases with
  | zero h0 =>
    refine ⟨?_, fun _ _ => rfl⟩
    have : op.charged num' = 0 := by unfold Sembuf.charged; rw [h0, ite_self]
    rw [this, ite_self, sub_zero]
    rfl
  | raise r hop hv hc =>
    rw [hc] at hsems
    have hd := (sameData_wakeN (r.addVal (s.semp c.slot op) op.semOp) (s.semp c.slot op)).trans
      (sameData_wakeIfZero _ (s.semp c.slot op))
    refine ⟨?_, fun q hq => (congrFun hd.undo q).trans (hsems.others q hq)⟩
    rw [entries_congr (congrFun hd.undo c.p)]
    exact aoe_charge huse hc id' num'
  | lower r hop hv hc =>
    rw [hc] at hsems
    have hd := sameData_wakeIfZero (r.addVal (s.semp c.slot op) op.semOp) (s.semp c.slot op)
    refine ⟨?_, fun q hq => (congrFun hd.undo q).trans (hsems.others q hq)⟩
    rw [entries_congr (congrFun hd.undo c.p)]
    exact aoe_charge huse hc id' num'

/-- What the operations of an array commit on a semaphore. -/
def charged (l : List Sembuf) (num : ℤ) : ℤ := (l.map fun op => op.charged num).sum

/-- A pass whose operations are all done. -/
theorem aoe_exec (hs : SemWf cfg s) (h : exec (did cfg c) s l = some t) (id' num' : ℤ) :
    aoe (t.entries c.p) id' num' =
        aoe (s.entries c.p) id' num' - (if id' = c.semid then charged l num' else 0) ∧
      ∀ q ≠ c.p, t.undo q = s.undo q := by
  induction l generalizing s with
  | nil =>
    cases h
    refine ⟨?_, fun _ _ => rfl⟩
    rw [show charged [] num' = 0 from rfl, ite_self, sub_zero]
  | cons op l ih =>
    obtain ⟨v, hv, h⟩ := exec_cons.mp h
    obtain ⟨h1, h2⟩ := aoe_did hs hv id' num'
    obtain ⟨h3, h4⟩ := ih ((undoes_tryOp cfg c).keeps hs hv) h
    refine ⟨?_, fun q hq => (h4 q hq).trans (h2 q hq)⟩
    rw [h3, h1, show charged (op :: l) num' = op.charged num' + charged l num' from sum_cons]
    split_ifs <;> omega

/-! ## The list of processes with entries -/

/-- The processes on `semunp` are those with entries, each once. -/
structure ChainOk (s : SemState) : Prop where
  nodup : s.semunp.Nodup
  mem : ∀ p, p ∈ s.semunp ↔ s.entries p ≠ []

/-- The tables and the list are the same. -/
structure SameTables (s t : SemState) : Prop where
  undo : t.undo = s.undo
  semunp : t.semunp = s.semunp

theorem SameTables.refl (s : SemState) : SameTables s s := ⟨rfl, rfl⟩

theorem SameTables.trans (h : SameTables s t) (h' : SameTables t u) : SameTables s u :=
  ⟨h'.undo.trans h.undo, h'.semunp.trans h.semunp⟩

theorem ChainOk.same (h : ChainOk s) (hst : SameTables s t) : ChainOk t := by
  constructor
  · rw [hst.semunp]
    exact h.nodup
  · intro p
    rw [hst.semunp, entries_congr (congrFun hst.undo p)]
    exact h.mem p

theorem sameTables_wakeN (s : SemState) (g : ℕ) : SameTables s (s.wakeN g) := by
  unfold wakeN
  split_ifs
  · exact ⟨rfl, rfl⟩
  · exact SameTables.refl s

theorem sameTables_wakeZ (s : SemState) (g : ℕ) : SameTables s (s.wakeZ g) := by
  unfold wakeZ
  split_ifs
  · exact ⟨rfl, rfl⟩
  · exact SameTables.refl s

theorem sameTables_wakeIfZero (s : SemState) (g : ℕ) : SameTables s (s.wakeIfZero g) := by
  unfold wakeIfZero
  split_ifs
  · exact sameTables_wakeZ s g
  · exact SameTables.refl s

section

variable (h : ChainOk s)

include h

/-- Storing the entries of a process links and unlinks its table. -/
theorem ChainOk.setEntries (new : List Undo) :
    ChainOk (s.setEntries p (s.entries p) new) := by
  have hent : ∀ q, (s.setEntries p (s.entries p) new).entries q =
      if q = p then new else s.entries q := by
    intro q
    unfold entries SemState.setEntries
    simp only [update_apply]
    split_ifs <;> rfl
  have hp := h.mem p
  constructor
  · show (if s.entries p = [] ∧ new ≠ [] then p :: s.semunp
      else if s.entries p ≠ [] ∧ new = [] then s.semunp.erase p else s.semunp).Nodup
    split_ifs with h1 h2
    · exact nodup_cons.mpr ⟨fun hm => hp.mp hm h1.1, h.nodup⟩
    · exact h.nodup.erase p
    · exact h.nodup
  · intro q
    rw [hent q]
    show q ∈ (if s.entries p = [] ∧ new ≠ [] then p :: s.semunp
      else if s.entries p ≠ [] ∧ new = [] then s.semunp.erase p else s.semunp) ↔ _
    have hq := h.mem q
    by_cases hqp : q = p
    · subst hqp
      rw [if_pos rfl]
      split_ifs with h1 h2
      · exact ⟨fun _ => h1.2, fun _ => mem_cons_self⟩
      · exact ⟨fun hm => absurd hm h.nodup.not_mem_erase, fun hn => absurd h2.2 hn⟩
      · rw [hq]
        tauto
    · rw [if_neg hqp]
      split_ifs with h1 h2
      · rw [mem_cons, hq]
        tauto
      · rw [mem_erase_of_ne hqp, hq]
      · exact hq

theorem ChainOk.semaoe (p : Proc) (val id num : ℤ) :
    ChainOk (semaoe cfg s p val id num).2 := by
  unfold Io.semaoe
  by_cases h1 : val = 0
  · rwa [if_pos h1]
  by_cases h2 : cfg.semaem < val ∨ val < -cfg.semaem
  · rwa [if_neg h1, if_pos h2]
  rw [if_neg h1, if_neg h2]
  cases hp : s.undo p with
  | some ents =>
    have := h.setEntries (p := p)
      (aoeEntries cfg (decide (ents.length < cfg.semume)) val id num ents).2
    rw [entries_of_undo hp] at this
    exact this
  | none =>
    have hent : s.entries p = [] := by unfold entries; rw [hp]; rfl
    by_cases h3 : s.semfup = 0
    · simpa only [if_pos h3] using h
    · simp only [if_neg h3]
      have := ChainOk.setEntries (p := p)
        (h.same (t := { s with semfup := s.semfup - 1 }) ⟨rfl, rfl⟩)
        (aoeEntries cfg (decide (([] : List Undo).length < cfg.semume)) val id num []).2
      rw [show entries { s with semfup := s.semfup - 1 } p = [] from hent] at this
      exact this

theorem ChainOk.charge (p : Proc) (id : ℤ) (op : Sembuf) :
    ChainOk (charge cfg s p id op).2 := by
  unfold Io.charge
  split_ifs
  · exact h.semaoe p _ _ _
  · exact h

theorem ChainOk.tryOp (op : Sembuf) : ChainOk (tryOp cfg c op s).state := by
  have huse : ChainOk (s.use c.slot c.first op) := h.same ⟨rfl, rfl⟩
  have hcharge : ChainOk (Io.charge cfg (s.use c.slot c.first op) c.p c.semid op).2 :=
    huse.charge c.p c.semid op
  have hcases := tryOp_cases cfg c op s
  generalize Io.tryOp cfg c op s = r at hcases
  cases hcases with
  | zero => exact huse
  | raise t _ _ hc =>
    rw [hc] at hcharge
    have hadd : SameTables t (t.addVal (s.semp c.slot op) op.semOp) := ⟨rfl, rfl⟩
    exact hcharge.same (hadd.trans ((sameTables_wakeN _ _).trans (sameTables_wakeIfZero _ _)))
  | lower t _ _ hc =>
    rw [hc] at hcharge
    have hadd : SameTables t (t.addVal (s.semp c.slot op) op.semOp) := ⟨rfl, rfl⟩
    exact hcharge.same (hadd.trans (sameTables_wakeIfZero _ _))
  | range => exact huse
  | refused e t hc =>
    rw [hc] at hcharge
    exact hcharge
  | waitsN => exact huse
  | waitsZ => exact huse

theorem ChainOk.undoOp (op : Sembuf) : ChainOk (undoOp cfg c op s) := by
  unfold Io.undoOp
  by_cases h0 : op.semOp = 0
  · rwa [if_pos h0]
  rw [if_neg h0]
  have hadd : ChainOk ((s.use c.slot c.first op).addVal (s.semp c.slot op) (-op.semOp)) :=
    h.same ⟨rfl, rfl⟩
  by_cases hu : op.semUndo
  · simp only [if_pos hu]
    exact hadd.semaoe _ _ _ _
  · simp only [if_neg hu]
    exact hadd

theorem ChainOk.semundo (done : List Sembuf) : ChainOk (semundo cfg c done s) := by
  induction done generalizing s with
  | nil => exact h
  | cons op done ih => exact ih (h.undoOp op)

theorem ChainOk.semopLoop (done ops : List Sembuf) :
    ChainOk (semopLoop cfg c done ops s).2 := by
  induction ops generalizing done s with
  | nil => exact h
  | cons op ops ih =>
    have htry : ChainOk (Io.tryOp cfg c op s).state := h.tryOp op
    unfold Io.semopLoop
    cases heq : Io.tryOp cfg c op s with
    | did t => rw [heq] at htry; exact ih htry (op :: done)
    | fails e t => rw [heq] at htry; exact htry.semundo done
    | waits ch t => rw [heq] at htry; exact htry.semundo done

end

theorem sameTables_setPids (c : SemCtx) (ops : List Sembuf) (s : SemState) :
    SameTables s (setPids c ops s) := by
  induction ops generalizing s with
  | nil => exact SameTables.refl s
  | cons op ops ih =>
    have h : SameTables s ((s.use c.slot c.first op).onSem (s.semp c.slot op) fun x =>
        { x with sempid := c.p }) := ⟨rfl, rfl⟩
    exact h.trans (ih _)

theorem sameTables_addSleeper (s : SemState) (ch : Chan) : SameTables s (s.addSleeper ch) := by
  cases ch <;> exact ⟨rfl, rfl⟩

theorem ChainOk.attempt (h : ChainOk s) (c : SemCtx) (ops : List Sembuf) :
    ChainOk (attempt cfg c ops s).2 := by
  have hloop : ChainOk (Io.semopLoop cfg c [] ops s).2 := h.semopLoop [] ops
  rcases heq : Io.semopLoop cfg c [] ops s with ⟨_ | e | ch, t⟩
  · rw [heq] at hloop
    rw [attempt_done heq]
    have hp := hloop.same (sameTables_setPids c ops t)
    exact hp.same ⟨rfl, rfl⟩
  · rw [heq] at hloop
    rw [attempt_error heq]
    exact hloop.same ⟨rfl, rfl⟩
  · rw [heq] at hloop
    rw [attempt_sleeps heq]
    have hp := hloop.same (sameTables_addSleeper t ch)
    exact hp.same ⟨rfl, rfl⟩

theorem sameTables_setVal (s : SemState) (g v : ℕ) (p : Proc) : SameTables s (s.setVal g v p) := by
  have h : SameTables s (s.onSem g fun x => { x with semval := v, sempid := p }) := ⟨rfl, rfl⟩
  simp only [setVal]
  split_ifs
  · exact h.trans (sameTables_wakeN _ _)
  · exact h.trans (sameTables_wakeZ _ _)

theorem sameTables_setAll (vals : List ℕ) (g : ℕ) (p : Proc) (s : SemState) :
    SameTables s (setAll p vals g s) := by
  induction vals generalizing g s with
  | nil => exact SameTables.refl s
  | cons v vals ih => exact (sameTables_setVal s g v p).trans (ih (g + 1) _)

theorem sameTables_rmAll (n g : ℕ) (s : SemState) : SameTables s (rmAll n g s) := by
  induction n generalizing g s with
  | zero => exact SameTables.refl s
  | succ n ih =>
    have h : SameTables s (s.onSem g fun x => { x with semval := 0, sempid := 0 }) := ⟨rfl, rfl⟩
    exact h.trans ((sameTables_wakeN _ _).trans ((sameTables_wakeZ _ _).trans (ih (g + 1) _)))

/-- What `semunrm` leaves in the table of each process. -/
theorem entries_semunrm (h : ChainOk s) (id : ℤ) (low high : ℕ) (p : Proc) :
    (semunrm id low high s).entries p = unrmEntries id low high (s.entries p) := by
  unfold semunrm entries
  by_cases hp : p ∈ s.semunp
  · simp only [if_pos hp]
    cases s.undo p <;> rfl
  · simp only [if_neg hp]
    have hnil : s.entries p = [] := not_not.mp fun hne => hp ((h.mem p).mpr hne)
    unfold entries at hnil
    rw [hnil]
    rfl

/-- The walk along `semunp` unlinks the tables it empties. -/
theorem ChainOk.semunrm (h : ChainOk s) (id : ℤ) (low high : ℕ) :
    ChainOk (semunrm id low high s) := by
  refine ⟨h.nodup.filter _, fun p => ?_⟩
  rw [entries_semunrm h]
  show p ∈ s.semunp.filter (fun p => decide ((if p ∈ s.semunp then
    (s.undo p).map (unrmEntries id low high) else s.undo p) ≠ some [])) ↔ _
  rw [mem_filter]
  by_cases hp : p ∈ s.semunp
  · have hne := (h.mem p).mp hp
    unfold entries at hne ⊢
    cases hu : s.undo p with
    | none => rw [hu] at hne; exact absurd rfl hne
    | some ents => simp [hp]
  · have hnil : s.entries p = [] := not_not.mp fun hne => hp ((h.mem p).mpr hne)
    rw [hnil]
    exact ⟨fun hm => absurd hm.1 hp, fun hne => absurd rfl hne⟩

theorem sameTables_exitEntry (cfg : SemInfo) (e : Undo) (s : SemState) :
    SameTables s (exitEntry cfg e s) := by
  unfold exitEntry
  cases semconv cfg s e.unId with
  | none => exact SameTables.refl s
  | some slot =>
    simp only
    have hset : ∀ (g : ℕ) (f : Sem → Sem), SameTables s (s.onSem g f) := fun _ _ => ⟨rfl, rfl⟩
    split_ifs
    · exact SameTables.refl s
    · exact (hset _ _).trans ((sameTables_wakeZ _ _).trans (sameTables_wakeN _ _))
    · exact (hset _ _).trans (sameTables_wakeN _ _)
    · exact (hset _ _).trans (sameTables_wakeZ _ _)
    · exact hset _ _

theorem sameTables_exitEntries (cfg : SemInfo) (ents : List Undo) (s : SemState) :
    SameTables s (exitEntries cfg ents s) := by
  induction ents generalizing s with
  | nil => exact SameTables.refl s
  | cons e ents ih => exact (sameTables_exitEntry cfg e s).trans (ih _)

/-- `semexit` leaves its process without entries and the others as they are. -/
theorem entries_semexit (cfg : SemInfo) (p q : Proc) (s : SemState) :
    (semexit cfg p s).entries q = if q = p then [] else s.entries q := by
  unfold semexit
  cases hu : s.undo p with
  | none =>
    split_ifs with hq
    · unfold entries
      rw [hq, hu]
      rfl
    · rfl
  | some ents =>
    have hex := congrFun (sameTables_exitEntries cfg ents.reverse s).undo q
    simp only [entries, update_apply]
    split_ifs
    · rfl
    · rfl
    · exact congrArg (Option.getD · []) hex

theorem ChainOk.semexit (h : ChainOk s) (p : Proc) : ChainOk (semexit cfg p s) := by
  have hent := entries_semexit cfg p
  have hp := h.mem p
  unfold Io.semexit at hent ⊢
  cases hu : s.undo p with
  | none => exact h
  | some ents =>
    have hent := fun q => hent q s
    rw [hu] at hent
    rw [entries_of_undo hu] at hp
    by_cases hnil : ents = []
    · simp only [if_pos hnil] at hent ⊢
      refine ⟨h.nodup, fun q => ?_⟩
      rw [hent q]
      show q ∈ s.semunp ↔ _
      split_ifs with hq
      · rw [hq, hp]
        tauto
      · exact h.mem q
    · simp only [if_neg hnil] at hent ⊢
      refine ⟨h.nodup.erase p, fun q => ?_⟩
      rw [hent q]
      show q ∈ s.semunp.erase p ↔ _
      split_ifs with hq
      · rw [hq]
        exact ⟨fun hm => absurd hm h.nodup.not_mem_erase, fun hne => absurd rfl hne⟩
      · rw [mem_erase_of_ne hq]
        exact h.mem q

/-! ## The ledger -/

/-- What each process has committed on each semaphore of each set. -/
abbrev Ledger := Proc → ℤ → ℕ → ℤ

/-- The process `p` has committed the operations of `l` on the set `id`. -/
def Ledger.commit (L : Ledger) (p : Proc) (id : ℤ) (l : List Sembuf) : Ledger := fun q id' num =>
  if q = p ∧ id' = id then
    L q id' num + ((l.filter fun op => op.semUndo ∧ op.semNum = num).map Sembuf.semOp).sum
  else L q id' num

/-- The semaphores `num` of the set `id` that satisfy `P` are set or removed. -/
def Ledger.reset (L : Ledger) (id : ℤ) (P : ℕ → Prop) [DecidablePred P] : Ledger :=
  fun q id' num => if id' = id ∧ P num then 0 else L q id' num

/-- The process `p` has gone. -/
def Ledger.leave (L : Ledger) (p : Proc) : Ledger := fun q id num => if q = p then 0 else L q id num

/-- What an event writes in the ledger. -/
def Ledger.after (cfg : SemInfo) (L : Ledger) (s : SemState) : SemEvent → Ledger
  | .semop p u id nsops ops =>
    if (Io.semop cfg p u id nsops ops s).1 = .done then L.commit p id (ops.getD []) else L
  | .resume p ops =>
    match s.call p with
    | none => L
    | some c =>
      if (Io.resume cfg p c ops s).1 = .done then L.commit p c.semid (ops.getD []) else L
  | .interrupt _ => L
  | .semctl p u id cmd =>
    if (Io.semctl cfg p u id cmd s).1 = none then
      match cmd with
      | .rmid => L.reset id fun _ => True
      | .ipcSet _ => L
      | .setval semnum _ => L.reset id (· = semnum)
      | .setall _ => L.reset id fun _ => True
    else L
  | .semexit p => L.leave p

/-- One event, and what it writes in the ledger. -/
def ledgerStep (cfg : SemInfo) (x : SemState × Ledger) (e : SemEvent) : Option (SemState × Ledger) :=
  (x.1.step cfg e).map fun t => (t, x.2.after cfg x.1 e)

/-- The number of semaphores of the set an id names. -/
def SemState.size (cfg : SemInfo) (s : SemState) (id : ℤ) : ℕ :=
  (s.sema (id % cfg.semmni).toNat).nsems

/-- The adjust-on-exit values are exact: the tables are sorted and within bounds, the
list has the processes with entries, and for each semaphore of each set the entry of a
process, kept under the 16 bits of its number, is minus what the process has committed. -/
structure UndoExact (cfg : SemInfo) (x : SemState × Ledger) : Prop where
  tables : ∀ p, TableOk cfg (x.1.entries p)
  chain : ChainOk x.1
  exact : ∀ p id num, num < x.1.size cfg id →
    aoe (x.1.entries p) id (short num) = -x.2 p id num

/-- The semaphores of its set a command sets or removes. -/
def SemCmd.Sets : SemCmd → ℕ → Prop
  | .rmid, _ => True
  | .ipcSet _, _ => False
  | .setval semnum _, num => num = semnum
  | .setall _, _ => True

/-- A command sets or removes no semaphore from number 32768 on that a process has an
adjustment for. -/
def BelowSign (cfg : SemInfo) (x : SemState × Ledger) : SemEvent → Prop
  | .semctl _ _ id cmd => ∀ q num, num < x.1.size cfg id → cmd.Sets num →
      aoe (x.1.entries q) id (short num) ≠ 0 → num < 32768
  | _ => True

/-! ## One event -/

variable {L : Ledger}

/-- What the operations of an array commit on a semaphore, in the words of the ledger. -/
theorem charged_eq (l : List Sembuf) {num : ℕ} (h : num < 65536) :
    charged l (short num) =
      ((l.filter fun op => op.semUndo ∧ op.semNum = num).map Sembuf.semOp).sum := by
  induction l with
  | nil => rfl
  | cons op l ih =>
    have hc : op.charged (short num) = if op.semUndo ∧ op.semNum = num then op.semOp else 0 := by
      unfold Sembuf.charged
      simp only [short_inj op.num_lt h]
    rw [show charged (op :: l) (short num) = op.charged (short num) + charged l (short num) from
      sum_cons, ih, hc]
    by_cases hop : op.semUndo ∧ op.semNum = num
    · rw [if_pos hop, filter_cons_of_pos (by simpa using hop), map_cons, sum_cons]
    · rw [if_neg hop, filter_cons_of_neg (by simpa using hop), zero_add]

theorem size_of_nsems (h : ∀ k, (t.sema k).nsems = (s.sema k).nsems) (id : ℤ) :
    t.size cfg id = s.size cfg id := h _

section

variable (h : UndoExact cfg (s, L))

include h

theorem UndoExact.same (hst : SameTables s t)
    (hsize : ∀ k, (t.sema k).nsems = (s.sema k).nsems) : UndoExact cfg (t, L) := by
  have hent : ∀ p, t.entries p = s.entries p := fun p => entries_congr (congrFun hst.undo p)
  refine ⟨fun p => ?_, h.chain.same hst, fun p id num hnum => ?_⟩
  · show TableOk cfg (t.entries p)
    rw [hent]
    exact h.tables p
  · show aoe (t.entries p) id (short num) = _
    rw [hent]
    exact h.exact p id num (hnum.trans_eq (size_of_nsems hsize id))

/-- A pass commits its operations, or nothing. -/
theorem UndoExact.attempt (hs : SemWf cfg s)
    (hushort : ∀ k, (s.sema k).nsems < 65536) (c : SemCtx) (l : List Sembuf) :
    UndoExact cfg ((attempt cfg c l s).2,
      if (attempt cfg c l s).1 = .done then L.commit c.p c.semid l else L) := by
  have hsema := (uses_attempt cfg c l s).1
  have hwf := wf_attempt hs c l
  refine ⟨hwf.tables, h.chain.attempt c l, fun p id num hnum => ?_⟩
  have hnum : num < s.size cfg id := hnum.trans_eq (size_of_nsems (fun k => by rw [hsema]) id)
  have hold := h.exact p id num hnum
  show aoe ((Io.attempt cfg c l s).2.entries p) id (short num) = -_
  by_cases hdone : (Io.attempt cfg c l s).1 = .done
  · rcases semopLoop_cases cfg c [] l s with ⟨t, hrun, heq⟩ | ⟨_, op, _, v, r, _, _, _, hstop, heq⟩
    · obtain ⟨hp, hq⟩ := aoe_exec hs hrun id (short num)
      have hent : ∀ q, (Io.attempt cfg c l s).2.entries q = t.entries q := by
        intro q
        rw [attempt_done heq]
        exact entries_congr (congrFun (sameTables_setPids c l t).undo q)
      rw [if_pos hdone, hent]
      show aoe (t.entries p) id (short num) = -L.commit c.p c.semid l p id num
      unfold Ledger.commit
      by_cases hpc : p = c.p
      · rw [hpc, hp]
        rw [hpc] at hold
        by_cases hid : id = c.semid
        · rw [if_pos hid, if_pos ⟨rfl, hid⟩, hold, charged_eq l (hnum.trans (hushort _)), neg_add]
          rfl
        · rw [if_neg hid, if_neg fun hc => hid hc.2, sub_zero, hold]
      · rw [if_neg fun hc => hpc hc.1, entries_congr (hq p hpc), hold]
    · cases r with
      | done => exact absurd rfl hstop.ne_done
      | error e => rw [attempt_error heq] at hdone; cases hdone
      | sleeps ch => rw [attempt_sleeps heq] at hdone; cases hdone
  · have hun := (attempt_allOrNothing hs c l).2 hdone
    rw [if_neg hdone, ← hold]
    congr 1
    by_cases hpc : p = c.p
    · rw [hpc]
      exact hun.entries
    · exact entries_congr (hun.others p hpc)

/-- The semaphores whose entries a command removes. -/
def SemCmd.range (size : ℕ) : SemCmd → Option (ℕ × ℕ)
  | .rmid => some (0, size)
  | .ipcSet _ => none
  | .setval semnum _ => some (semnum, semnum)
  | .setall _ => some (0, size)

omit h in
/-- A command that succeeds removes the entries of its semaphores; nothing else happens
to the tables. -/
theorem semctl_tables (cfg : SemInfo) (p : Proc) (u : Cred) (id : ℤ) (cmd : SemCmd) (s : SemState) :
    (SameTables s (semctl cfg p u id cmd s).2 ∧
        ((semctl cfg p u id cmd s).1 = none → cmd.range (s.size cfg id) = none)) ∨
      ((semctl cfg p u id cmd s).1 = none ∧
        ∃ low high, cmd.range (s.size cfg id) = some (low, high) ∧
          ∃ v, SameTables s v ∧ SameTables (semunrm id low high v) (semctl cfg p u id cmd s).2) := by
  have hs := SameTables.refl s
  unfold semctl
  cases hconv : semconv cfg s id with
  | none => exact Or.inl ⟨hs, fun h => by cases h⟩
  | some slot =>
    have hsize : s.size cfg id = (s.sema slot).nsems := by rw [semconv_eq_some hconv]; rfl
    rw [hsize]
    cases cmd with
    | rmid =>
      have hrm := sameTables_rmAll (s.sema slot).nsems (s.sema slot).base
        (semunrm id 0 (s.sema slot).nsems s)
      have hperm : ∀ (w : SemState) perm, SameTables w (w.setPerm slot perm) :=
        fun _ _ => ⟨rfl, rfl⟩
      simp only [semctlCmd]
      split_ifs
      · exact Or.inl ⟨hs, fun h => by cases h⟩
      all_goals exact Or.inr ⟨rfl, 0, _, rfl, s, hs, hrm.trans (hperm _ _)⟩
    | ipcSet ds =>
      simp only [semctlCmd]
      split_ifs
      · exact Or.inl ⟨hs, fun h => by cases h⟩
      · cases ds with
        | none => exact Or.inl ⟨hs, fun h => by cases h⟩
        | some ds => exact Or.inl ⟨⟨rfl, rfl⟩, fun _ => rfl⟩
    | setval semnum arg =>
      simp only [semctlCmd]
      split_ifs
      · exact Or.inl ⟨hs, fun h => by cases h⟩
      · exact Or.inl ⟨hs, fun h => by cases h⟩
      · exact Or.inl ⟨hs, fun h => by cases h⟩
      · exact Or.inr ⟨rfl, semnum, semnum, rfl, _, sameTables_setVal s _ arg p, SameTables.refl _⟩
    | setall vals =>
      simp only [semctlCmd]
      split_ifs
      · exact Or.inl ⟨hs, fun h => by cases h⟩
      · cases vals with
        | none => exact Or.inl ⟨hs, fun h => by cases h⟩
        | some vals =>
          simp only
          split_ifs
          · exact Or.inl ⟨hs, fun h => by cases h⟩
          · exact Or.inr ⟨rfl, 0, _, rfl, s, hs, sameTables_setAll vals _ p _⟩

/-- A range of entries is removed from all tables, a range of semaphores reset: where
the two differ, there is no entry. -/
theorem UndoExact.clear {id : ℤ} {low high : ℕ} {P : ℕ → Prop}
    [DecidablePred P] (hP : ∀ q, ∀ num < s.size cfg id, aoe (s.entries q) id (short num) ≠ 0 →
      ((low : ℤ) ≤ short num ∧ short num ≤ high ↔ P num)) :
    UndoExact cfg (semunrm id low high s, L.reset id P) := by
  refine ⟨fun p => ?_, h.chain.semunrm id low high, fun p id' num hnum => ?_⟩
  · show TableOk cfg ((semunrm id low high s).entries p)
    rw [entries_semunrm h.chain]
    exact (h.tables p).sublist (unrmEntries_sublist id low high _)
  · show aoe ((semunrm id low high s).entries p) id' (short num) = -L.reset id P p id' num
    rw [entries_semunrm h.chain, aoe_unrmEntries (h.tables p).sorted, Ledger.reset]
    by_cases hid : id' = id
    · subst hid
      have hold : aoe (s.entries p) id' (short num) = -L p id' num := h.exact p id' num hnum
      by_cases h0 : aoe (s.entries p) id' (short num) = 0
      · rw [h0, ite_self]
        split_ifs <;> omega
      have := hP p num hnum h0
      by_cases hnumP : P num
      · rw [if_pos ⟨rfl, this.mpr hnumP⟩, if_pos ⟨rfl, hnumP⟩, neg_zero]
      · rw [if_neg fun hc => hnumP (this.mp hc.2), if_neg fun hc => hnumP hc.2]
        exact hold
    · rw [if_neg fun hc => hid hc.1, if_neg fun hc => hid hc.1]
      exact h.exact p id' num hnum

theorem UndoExact.semctl (hushort : ∀ k, (s.sema k).nsems < 65536)
    {p : Proc} {u : Cred} {id : ℤ} {cmd : SemCmd} (hok : BelowSign cfg (s, L) (.semctl p u id cmd)) :
    UndoExact cfg ((semctl cfg p u id cmd s).2, L.after cfg s (.semctl p u id cmd)) := by
  have hsize := (sameCalls_semctl cfg p u id cmd s).nsems
  rcases semctl_tables cfg p u id cmd s with ⟨hst, hnone⟩ | ⟨hnone, low, high, hr, v, hv, ht⟩
  · have hL : L.after cfg s (.semctl p u id cmd) = L := by
      unfold Ledger.after
      by_cases hdone : (Io.semctl cfg p u id cmd s).1 = none
      · simp only [if_pos hdone]
        have := hnone hdone
        cases cmd <;> first | rfl | cases this
      · simp only [if_neg hdone]
    rw [hL]
    exact h.same hst hsize
  · -- `semunrm` of the command's range, between changes that leave the tables alone
    have hclear : ∀ (P : ℕ → Prop) [DecidablePred P],
        (∀ q, ∀ num < s.size cfg id, aoe (s.entries q) id (short num) ≠ 0 →
          ((low : ℤ) ≤ short num ∧ short num ≤ high ↔ P num)) →
        UndoExact cfg ((Io.semctl cfg p u id cmd s).2, L.reset id P) := by
      intro P _ hP
      have hent : ∀ q, (Io.semctl cfg p u id cmd s).2.entries q = (semunrm id low high s).entries q := by
        intro q
        rw [entries_congr (congrFun ht.undo q), entries_semunrm (h.chain.same hv),
          entries_semunrm h.chain, entries_congr (congrFun hv.undo q)]
      have hc := h.clear hP
      refine ⟨fun q => ?_, ((h.chain.same hv).semunrm id low high).same ht, fun q id' num hnum => ?_⟩
      · show TableOk cfg ((Io.semctl cfg p u id cmd s).2.entries q)
        rw [hent]
        exact hc.tables q
      · show aoe ((Io.semctl cfg p u id cmd s).2.entries q) id' (short num) = _
        rw [hent]
        exact hc.exact q id' num (hnum.trans_eq (size_of_nsems hsize id'))
    have hsmall : ∀ num < 32768, short ((num : ℕ) : ℤ) = num := fun num hn => short_eq (by omega)
    unfold Ledger.after
    simp only [if_pos hnone]
    cases cmd with
    | rmid =>
      cases hr
      refine hclear _ fun q num hn h0 => ⟨fun _ => trivial, fun _ => ?_⟩
      rw [hsmall num (hok q num hn trivial h0)]
      omega
    | ipcSet ds => cases hr
    | setval semnum arg =>
      obtain ⟨rfl, rfl⟩ : semnum = low ∧ semnum = high := by simpa [SemCmd.range] using hr
      refine hclear _ fun q num hn h0 => ?_
      constructor
      · intro hb
        have hlt : num < 65536 := hn.trans (hushort _)
        have heq : short num = semnum := le_antisymm hb.2 hb.1
        have hpos : ¬ 32768 ≤ num := fun hle => by have := short_neg hle hlt; omega
        rw [hsmall num (by omega)] at heq
        omega
      · rintro rfl
        rw [hsmall num (hok q num hn rfl h0)]
        omega
    | setall vals =>
      cases hr
      refine hclear _ fun q num hn h0 => ⟨fun _ => trivial, fun _ => ?_⟩
      rw [hsmall num (hok q num hn trivial h0)]
      omega

theorem UndoExact.semexit (p : Proc) :
    UndoExact cfg (semexit cfg p s, L.leave p) := by
  have hsize := (sameCalls_semexit cfg p s).nsems
  refine ⟨fun q => ?_, h.chain.semexit p, fun q id num hnum => ?_⟩
  · show TableOk cfg ((Io.semexit cfg p s).entries q)
    rw [entries_semexit]
    split_ifs
    · exact tableOk_nil
    · exact h.tables q
  · show aoe ((Io.semexit cfg p s).entries q) id (short num) = -L.leave p q id num
    rw [entries_semexit, Ledger.leave]
    split_ifs
    · rfl
    · exact h.exact q id num (hnum.trans_eq (size_of_nsems hsize id))

end

/-- What is carried along a run: the tables are exact, the values within limits, and the
sizes of the sets 16-bit numbers. -/
structure UndoInv (cfg : SemInfo) (x : SemState × Ledger) : Prop where
  exact : UndoExact cfg x
  wf : SemWf cfg x.1
  ushort : ∀ k, (x.1.sema k).nsems < 65536

theorem nsems_step {e : SemEvent} (h : s.step cfg e = some t) (k : ℕ) :
    (t.sema k).nsems = (s.sema k).nsems := by
  cases e with
  | semop p u id nsops ops =>
    rw [SemState.step] at h
    split_ifs at h
    cases h
    rcases semop_cases cfg p u id nsops ops s with ⟨e, heq⟩ | ⟨slot, l, -, -, -, heq⟩ <;> rw [heq]
    rw [(uses_attempt cfg _ l s).1]
  | resume p ops =>
    rw [SemState.step] at h
    split at h
    · cases h
    · rename_i c _
      split_ifs at h
      cases h
      rcases resume_cases cfg p c ops s with ⟨e, heq⟩ | ⟨slot, l, -, -, heq⟩ <;> rw [heq]
      rw [(uses_attempt cfg _ l s).1]
  | interrupt p =>
    obtain ⟨c, -, rfl⟩ := map_eq_some_iff.mp h
    rw [(interrupt_untouched p c s).sema]
  | semctl p u id cmd =>
    rw [SemState.step] at h
    split_ifs at h
    cases h
    exact (sameCalls_semctl cfg p u id cmd s).nsems k
  | semexit p =>
    rw [SemState.step] at h
    split_ifs at h
    cases h
    exact (sameCalls_semexit cfg p s).nsems k

/-- **One event keeps the adjust-on-exit values exact**, unless it sets or removes a
semaphore that has an entry with a negative number. -/
theorem UndoExact.step (hx : UndoInv cfg (s, L)) {e : SemEvent} (hok : BelowSign cfg (s, L) e)
    (h : s.step cfg e = some t) : UndoExact cfg (t, L.after cfg s e) := by
  obtain ⟨hexact, hwf, hushort⟩ := hx
  cases e with
  | semop p u id nsops ops =>
    rw [SemState.step] at h
    split_ifs at h
    cases h
    rw [Ledger.after]
    rcases semop_cases cfg p u id nsops ops s with ⟨e, heq⟩ | ⟨slot, l, -, rfl, -, heq⟩ <;> rw [heq]
    · exact hexact
    · exact hexact.attempt hwf hushort ⟨p, id, slot, l⟩ l
  | resume p ops =>
    rw [SemState.step] at h
    rw [Ledger.after]
    cases hcall : s.call p with
    | none => rw [hcall] at h; cases h
    | some c =>
      rw [hcall] at h
      simp only at h ⊢
      split_ifs at h
      cases h
      rcases resume_cases cfg p c ops s with ⟨e, heq⟩ | ⟨slot, l, -, rfl, heq⟩ <;> rw [heq]
      · exact hexact.same ⟨rfl, rfl⟩ fun _ => rfl
      · exact hexact.attempt hwf hushort ⟨p, c.semid, c.slot, c.first⟩ l
  | interrupt p =>
    obtain ⟨c, -, rfl⟩ := map_eq_some_iff.mp h
    refine hexact.same ?_ fun k => by rw [(interrupt_untouched p c s).sema]
    unfold interrupt dropSleeper
    constructor <;> cases c.chan <;> simp only <;> split_ifs <;> rfl
  | semctl p u id cmd =>
    rw [SemState.step] at h
    split_ifs at h
    cases h
    exact hexact.semctl hushort hok
  | semexit p =>
    rw [SemState.step] at h
    split_ifs at h
    cases h
    exact hexact.semexit p

/-- **Adjust-on-exit values are exact** in every state of a history, from one without
entries, in which no semaphore from number 32768 on is set or removed while a process
has an adjustment for it. -/
theorem undo_exact {es : List SemEvent} (hwf : SemWf cfg s) (hent : ∀ p, s.entries p = [])
    (hchain : s.semunp = []) (hushort : ∀ k, (s.sema k).nsems < 65536)
    (hok : StepsMeet (BelowSign cfg) (ledgerStep cfg) (s, 0) es)
    (h : exec (ledgerStep cfg) (s, 0) es = some (t, L)) : UndoExact cfg (t, L) := by
  have h0 : UndoInv cfg (s, 0) := by
    refine ⟨⟨hwf.tables, ⟨?_, fun p => ?_⟩, fun p id num _ => ?_⟩, hwf, hushort⟩
    · show s.semunp.Nodup
      rw [hchain]
      exact nodup_nil
    · show p ∈ s.semunp ↔ s.entries p ≠ []
      rw [hchain, hent]
      simp
    · show aoe (s.entries p) id (short num) = -0
      rw [hent]
      rfl
  refine (exec_invariant (P := UndoInv cfg) (fun x e y hx hc hstep => ?_) h0 hok h).exact
  obtain ⟨v, hv, rfl⟩ := map_eq_some_iff.mp hstep
  exact ⟨UndoExact.step hx hc hv, hx.wf.step hv, fun k => (nsems_step hv k) ▸ hx.ushort k⟩

/-- Raise a semaphore by one, adjusting on exit, and then set it to zero. -/
def raiseAndSet (num : Fin 65536) : List SemEvent :=
  [.semop 7 ⟨0, 0⟩ 0 1 (some [{ raise num with semUndo := true }]),
    .semctl 7 ⟨0, 0⟩ 0 (.setval num 0)]

/-- A history in which semaphore 1 of a set of three is charged and set. -/
theorem undo_exact_setval : ∃ t L, exec (ledgerStep shipped) (idle, 0) (raiseAndSet 1) = some (t, L) ∧
    UndoExact shipped (t, L) := by
  obtain ⟨t, L, ht⟩ : ∃ t L,
      exec (ledgerStep shipped) (idle, 0) (raiseAndSet 1) = some (t, L) := ⟨_, _, rfl⟩
  have hok : StepsMeet (BelowSign shipped) (ledgerStep shipped) (idle, 0) (raiseAndSet 1) := by
    refine ⟨trivial, fun x _ => ⟨fun q num _ hset _ => ?_, fun _ _ => trivial⟩⟩
    have hset : num = 1 := hset
    omega
  refine ⟨t, L, ht, undo_exact idle_wf (fun _ => rfl) rfl (fun _ => ?_) hok ht⟩
  show 3 < 65536
  omega

/-- One set of 40001 semaphores, all zero. -/
def bigSet : SemState := { idle with sema := fun _ => ⟨⟨0, 0, 0, 0, 0o100600, 0⟩, 1, 40001⟩ }

/-- Semaphore 40000 is charged and then set, but its entry stays: the process will lower
it by one when it exits. -/
theorem setval_keeps_entry : ¬ ∀ (s t : SemState) (L : Ledger) (es : List SemEvent),
    SemWf shipped s → (∀ p, s.entries p = []) → s.semunp = [] → (∀ k, (s.sema k).nsems < 65536) →
      exec (ledgerStep shipped) (s, 0) es = some (t, L) → UndoExact shipped (t, L) := by
  intro h
  have hwf : SemWf shipped bigSet := ⟨fun _ => Nat.zero_le _, fun _ => tableOk_nil⟩
  have hsize : ∀ k, (bigSet.sema k).nsems < 65536 := by
    intro k
    show 40001 < 65536
    omega
  have hexact := (h bigSet _ _ (raiseAndSet 40000) hwf (fun _ => rfl) rfl hsize rfl).exact 7 0 40000
    (by decide)
  exact absurd hexact (by decide)

end Io
