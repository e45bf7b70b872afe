import OpusSysV.Lib.Rollback
import OpusSysV.Io.Sem

/-!
# `semop` is all or nothing

* `aoeEntries_back` — on a table that is sorted and within its bounds, charging an
  operation and then its opposite restores the table, entry by entry.
* `tryOp_back` — so `undoOp` undoes an operation that was done, in any state that
  agrees with its result on values and table.
* `semop_all_or_nothing` — by `Lib.Undoes.rollback`, a pass over the array that fails
  or goes to sleep leaves values, pids and table as they were; one that succeeds adds
  to each value the sum of its operations.
* `SemWf.step` — the tables and values that occur are the ones this is proved of.
-/

namespace Io

open Lib Function List

variable {cfg : SemInfo}

/-! ## The adjust-on-exit table -/

/-- The bounds on the values of a table. -/
def Bounded (cfg : SemInfo) (ents : List Undo) : Prop :=
  ∀ e ∈ ents, e.unAoe ≠ 0 ∧ -cfg.semaem ≤ e.unAoe ∧ e.unAoe ≤ cfg.semaem

/-- The entries of a table: in the order of their keys, no value zero or beyond
`semaem`, no more than `semume` of them. -/
structure TableOk (cfg : SemInfo) (ents : List Undo) : Prop where
  sorted : ents.Pairwise fun e f => e.Before f.unId f.unNum
  bounded : Bounded cfg ents
  length_le : ents.length ≤ cfg.semume

theorem tableOk_nil : TableOk cfg [] := ⟨by simp, by simp [Bounded], by simp⟩

variable {room : Bool} {val id num : ℤ} {ents : List Undo}

/-- An error leaves the entries as they were. -/
theorem aoeEntries_error (hb : Bounded cfg ents)
    (h : (aoeEntries cfg room val id num ents).1 ≠ none) :
    (aoeEntries cfg room val id num ents).2 = ents := by
  induction ents with
  | nil =>
    rw [aoeEntries] at h ⊢
    split_ifs at h ⊢
    · exact absurd rfl h
    · rfl
  | cons f rest ih =>
    have haem := cfg.semaem_le
    have hf := hb f mem_cons_self
    rw [aoeEntries] at h ⊢
    split_ifs at h ⊢ with h1 h2 h3 h4 h5
    · rw [ih (fun e he => hb e (mem_cons_of_mem _ he)) h]
    · rw [short_restore (by omega)]
    · exact absurd rfl h
    · exact absurd rfl h
    · exact absurd rfl h
    · rfl

/-- The keys of the new entries are the old ones and the one charged. -/
theorem key_of_mem_aoeEntries : ∀ f ∈ (aoeEntries cfg room val id num ents).2,
    (f.unId = id ∧ f.unNum = num) ∨ ∃ e ∈ ents, e.unId = f.unId ∧ e.unNum = f.unNum := by
  induction ents with
  | nil =>
    intro f hf
    rw [aoeEntries] at hf
    split_ifs at hf
    · exact Or.inl (by rw [mem_singleton.mp hf]; exact ⟨rfl, rfl⟩)
    · simp at hf
  | cons e rest ih =>
    intro f hf
    have hold : f ∈ e :: rest → (f.unId = id ∧ f.unNum = num) ∨
        ∃ e' ∈ e :: rest, e'.unId = f.unId ∧ e'.unNum = f.unNum :=
      fun h => Or.inr ⟨f, h, rfl, rfl⟩
    rw [aoeEntries] at hf
    split_ifs at hf with h1 h2 h3 h4 h5
    · rcases mem_cons.mp hf with rfl | hf
      · exact hold mem_cons_self
      · rcases ih f hf with h | ⟨e', he', h⟩
        · exact Or.inl h
        · exact Or.inr ⟨e', mem_cons_of_mem _ he', h⟩
    · rcases mem_cons.mp hf with rfl | hf
      · exact Or.inl h2
      · exact hold (mem_cons_of_mem _ hf)
    · exact hold (mem_cons_of_mem _ hf)
    · rcases mem_cons.mp hf with rfl | hf
      · exact Or.inl h2
      · exact hold (mem_cons_of_mem _ hf)
    · rcases mem_cons.mp hf with rfl | hf
      · exact Or.inl ⟨rfl, rfl⟩
      · exact hold hf
    · exact hold hf

/-- A key that comes before all entries is entered in front. -/
theorem aoeEntries_front
    (h : ∀ e ∈ ents, (Undo.mk 0 num id).Before e.unId e.unNum) (hroom : room) :
    aoeEntries cfg room val id num ents = (none, ⟨short (-val), num, id⟩ :: ents) := by
  cases ents with
  | nil => rw [aoeEntries, if_pos hroom]
  | cons e rest =>
    have he := h e mem_cons_self
    simp only [Undo.Before] at he
    rw [aoeEntries, if_neg (by unfold Undo.Before; omega), if_neg (by omega), if_pos hroom]

/-- Crediting the entry in front. -/
theorem aoeEntries_found {a : ℤ} {rest : List Undo}
    (h : -cfg.semaem ≤ short (a - val) ∧ short (a - val) ≤ cfg.semaem) :
    aoeEntries cfg room val id num (⟨a, num, id⟩ :: rest) =
      (none, if short (a - val) = 0 then rest else ⟨short (a - val), num, id⟩ :: rest) := by
  rw [aoeEntries, if_neg (by simp [Undo.Before]), if_pos ⟨rfl, rfl⟩, if_neg (by simp only; omega)]
  split_ifs <;> rfl

/-- **Charging and crediting the same amount restores the entries**, and what is
stored in between is a table like the one before. -/
theorem aoeEntries_back (hval : val ≠ 0 ∧ -cfg.semaem ≤ val ∧ val ≤ cfg.semaem)
    (hsort : ents.Pairwise fun e f => e.Before f.unId f.unNum) (hb : Bounded cfg ents)
    (h : (aoeEntries cfg room val id num ents).1 = none) :
    let new := (aoeEntries cfg room val id num ents).2
    new.Pairwise (fun e f => e.Before f.unId f.unNum) ∧ Bounded cfg new ∧
      (new.length ≤ ents.length ∨ new.length = ents.length + 1 ∧ room) ∧
      ∀ room' : Bool, (new.length < ents.length → room') →
        aoeEntries cfg room' (-val) id num new = (none, ents) := by
  have haem := cfg.semaem_le
  have hnew : short (-val) = -val := short_eq (by omega)
  have hzero : short (-val - -val) = 0 := by rw [sub_self]; rfl
  -- a new entry is taken out again when its value is back at zero
  have hout : ∀ (room' : Bool) rest, aoeEntries cfg room' (-val) id num
      (⟨short (-val), num, id⟩ :: rest) = (none, rest) := by
    intro room' rest
    rw [hnew, aoeEntries_found (by rw [hzero]; omega), if_pos hzero]
  induction ents with
  | nil =>
    rw [aoeEntries] at h ⊢
    split_ifs at h ⊢ with hroom
    refine ⟨by simp, ?_, Or.inr ⟨rfl, hroom⟩, fun room' _ => hout room' []⟩
    intro e he
    rw [mem_singleton.mp he, hnew]
    simp only
    omega
  | cons e rest ih =>
    obtain ⟨he, hsort'⟩ := pairwise_cons.mp hsort
    have heb := hb e mem_cons_self
    have hrest : Bounded cfg rest := fun f hf => hb f (mem_cons_of_mem _ hf)
    rw [aoeEntries] at h ⊢
    split_ifs at h ⊢ with h1 h2 h3 h4 h5
    · -- the search passes `e`
      obtain ⟨ih1, ih2, ih3, ih4⟩ := ih hsort' hrest h
      refine ⟨pairwise_cons.mpr ⟨fun f hf => ?_, ih1⟩, ?_, ?_, fun room' hr => ?_⟩
      · rcases key_of_mem_aoeEntries f hf with ⟨hid, hnum⟩ | ⟨e', he', hid, hnum⟩
        · rw [hid, hnum]; exact h1
        · rw [← hid, ← hnum]; exact he e' he'
      · exact forall_mem_cons.mpr ⟨heb, ih2⟩
      · exact ih3.imp Nat.succ_le_succ fun h => ⟨congrArg Nat.succ h.1, h.2⟩
      · simp only [length_cons] at hr
        rw [aoeEntries, if_pos h1, ih4 room' fun hlt => hr (by omega)]
    · -- the entry goes: its value was `val`
      have haoe := short_sub_eq (by omega) heb.2 hval.2 (by omega)
      refine ⟨hsort', hrest, Or.inl (by simp), fun room' hr => ?_⟩
      obtain ⟨a, n, i⟩ := e
      obtain ⟨rfl, rfl⟩ := h2
      rw [aoeEntries_front he (hr (by simp)), neg_neg, short_eq (by omega),
        show a = val by simp only at haoe h4; omega]
    · -- the value of the entry changes
      have haoe := short_sub_eq (by omega) heb.2 hval.2 (by omega)
      obtain ⟨a, n, i⟩ := e
      obtain ⟨rfl, rfl⟩ := h2
      refine ⟨pairwise_cons.mpr ⟨he, hsort'⟩, ?_, Or.inl le_rfl, fun room' hr => ?_⟩
      · exact forall_mem_cons.mpr ⟨⟨h4, by simp only at h3 ⊢; omega⟩, hrest⟩
      · have hback : short (short (a - val) - -val) = a := by
          rw [sub_neg_eq_add]; exact short_restore (by simp only at heb; omega) val
        simp only at heb
        rw [aoeEntries_found (by rw [hback]; omega), hback, if_neg heb.1]
    · -- a new entry in front of `e`
      have hlt : ∀ f ∈ e :: rest, (Undo.mk (short (-val)) num id).Before f.unId f.unNum := by
        intro f hf
        rcases mem_cons.mp hf with rfl | hf
        · unfold Undo.Before at h1 ⊢
          simp only
          omega
        · have := he f hf
          unfold Undo.Before at h1 this ⊢
          simp only
          omega
      refine ⟨pairwise_cons.mpr ⟨hlt, hsort⟩, ?_, Or.inr ⟨rfl, h5⟩, fun room' _ =>
        hout room' (e :: rest)⟩
      exact forall_mem_cons.mpr ⟨by simp only [hnew]; omega, hb⟩

/-! ## What the parts of a pass touch -/

/-- The entries of the table of a process, none when it has no table. -/
def SemState.entries (s : SemState) (p : Proc) : List Undo := (s.undo p).getD []

variable {s t u : SemState} {p : Proc} {g : ℕ} {op : Sembuf} {c : SemCtx}

/-- The states differ at most in counters, sleepers and the notes of uses. -/
structure SameData (s t : SemState) : Prop where
  sema : t.sema = s.sema
  undo : t.undo = s.undo
  call : t.call = s.call
  semval : ∀ g, (t.sem g).semval = (s.sem g).semval
  sempid : ∀ g, (t.sem g).sempid = (s.sem g).sempid

theorem SameData.refl (s : SemState) : SameData s s := ⟨rfl, rfl, rfl, fun _ => rfl, fun _ => rfl⟩

theorem SameData.trans (h : SameData s t) (h' : SameData t u) : SameData s u :=
  ⟨h'.sema.trans h.sema, h'.undo.trans h.undo, h'.call.trans h.call,
    fun g => (h'.semval g).trans (h.semval g), fun g => (h'.sempid g).trans (h.sempid g)⟩

theorem sem_onSem (s : SemState) (g k : ℕ) (f : Sem → Sem) :
    (s.onSem g f).sem k = if k = g then f (s.sem g) else s.sem k := update_apply _ _ _ _

/-- A change of a semaphore that concerns only its counters. -/
theorem sameData_onSem {f : Sem → Sem}
    (hf : ∀ x, (f x).semval = x.semval ∧ (f x).sempid = x.sempid) : SameData s (s.onSem g f) := by
  refine ⟨rfl, rfl, rfl, fun k => ?_, fun k => ?_⟩ <;> rw [sem_onSem] <;> split_ifs with hk
  · rw [hk, (hf _).1]
  · rfl
  · rw [hk, (hf _).2]
  · rfl

theorem sameData_wakeN (s : SemState) (g : ℕ) : SameData s (s.wakeN g) := by
  rw [SemState.wakeN]
  split_ifs
  · have h : SameData s (s.onSem g fun x => { x with semncnt := 0 }) :=
      sameData_onSem fun x => ⟨rfl, rfl⟩
    exact ⟨h.sema, h.undo, h.call, h.semval, h.sempid⟩
  · exact SameData.refl s

theorem sameData_wakeZ (s : SemState) (g : ℕ) : SameData s (s.wakeZ g) := by
  rw [SemState.wakeZ]
  split_ifs
  · have h : SameData s (s.onSem g fun x => { x with semzcnt := 0 }) :=
      sameData_onSem fun x => ⟨rfl, rfl⟩
    exact ⟨h.sema, h.undo, h.call, h.semval, h.sempid⟩
  · exact SameData.refl s

theorem sameData_wakeIfZero (s : SemState) (g : ℕ) : SameData s (s.wakeIfZero g) := by
  rw [SemState.wakeIfZero]
  split_ifs
  · exact sameData_wakeZ s g
  · exact SameData.refl s

theorem sameData_use (s : SemState) (slot : ℕ) (first : List Sembuf) (op : Sembuf) :
    SameData s (s.use slot first op) := ⟨rfl, rfl, rfl, fun _ => rfl, fun _ => rfl⟩

/-- The part of the state `semaoe` does not touch. -/
structure SameSems (p : Proc) (s t : SemState) : Prop where
  sem : t.sem = s.sem
  sema : t.sema = s.sema
  slp : t.slp = s.slp
  call : t.call = s.call
  used : t.used = s.used
  others : ∀ q ≠ p, t.undo q = s.undo q

theorem sameSems_aoeUpdate (cfg : SemInfo) (s : SemState) (p : Proc) (ents : List Undo) (val id num : ℤ) :
    SameSems p s (aoeUpdate cfg s p ents val id num).2 :=
  ⟨rfl, rfl, rfl, rfl, rfl, fun _ hq => update_of_ne hq _ _⟩

theorem sameSems_semaoe (cfg : SemInfo) (s : SemState) (p : Proc) (val id num : ℤ) :
    SameSems p s (semaoe cfg s p val id num).2 := by
  have hrefl : SameSems p s s := ⟨rfl, rfl, rfl, rfl, rfl, fun _ _ => rfl⟩
  by_cases h1 : val = 0
  · rwa [semaoe, if_pos h1]
  by_cases h2 : cfg.semaem < val ∨ val < -cfg.semaem
  · rwa [semaoe, if_neg h1, if_pos h2]
  rw [semaoe, if_neg h1, if_neg h2]
  cases hp : s.undo p with
  | some ents => exact sameSems_aoeUpdate cfg s p ents val id num
  | none =>
    by_cases h3 : s.semfup = 0
    · simpa only [if_pos h3] using hrefl
    · have h := sameSems_aoeUpdate cfg { s with semfup := s.semfup - 1 } p [] val id num
      simpa only [if_neg h3] using
        (⟨h.sem, h.sema, h.slp, h.call, h.used, h.others⟩ : SameSems p s _)

theorem sameSems_charge (cfg : SemInfo) (s : SemState) (p : Proc) (id : ℤ) (op : Sembuf) :
    SameSems p s (charge cfg s p id op).2 := by
  rw [charge]
  split_ifs
  · exact sameSems_semaoe cfg s p _ _ _
  · exact ⟨rfl, rfl, rfl, rfl, rfl, fun _ _ => rfl⟩

/-- `semaoe` leaves everything alone, or it is `aoeEntries` on the entries of the
process; with a table and a value within bounds it is the latter. -/
theorem semaoe_cases (cfg : SemInfo) (s : SemState) (p : Proc) (val id num : ℤ) :
    ((semaoe cfg s p val id num).2 = s ∧ ((semaoe cfg s p val id num).1 = none → val = 0) ∧
        (val = 0 ∨ cfg.semaem < val ∨ val < -cfg.semaem ∨ s.undo p = none)) ∨
      (val ≠ 0 ∧ -cfg.semaem ≤ val ∧ val ≤ cfg.semaem) ∧
        (let r := aoeEntries cfg (decide ((s.entries p).length < cfg.semume)) val id num (s.entries p)
        (semaoe cfg s p val id num).1 = r.1 ∧ (semaoe cfg s p val id num).2.undo p = some r.2) := by
  by_cases h1 : val = 0
  · rw [semaoe, if_pos h1]
    exact Or.inl ⟨rfl, fun _ => h1, Or.inl h1⟩
  by_cases h2 : cfg.semaem < val ∨ val < -cfg.semaem
  · rw [semaoe, if_neg h1, if_pos h2]
    exact Or.inl ⟨rfl, nofun, Or.inr (by tauto)⟩
  have hval : val ≠ 0 ∧ -cfg.semaem ≤ val ∧ val ≤ cfg.semaem := by omega
  rw [semaoe, if_neg h1, if_neg h2, SemState.entries]
  cases hp : s.undo p with
  | some ents => exact Or.inr ⟨hval, rfl, update_self _ _ _⟩
  | none =>
    by_cases h3 : s.semfup = 0
    · simp only [if_pos h3]
      exact Or.inl ⟨trivial, nofun, Or.inr (Or.inr (Or.inr trivial))⟩
    · simp only [if_neg h3]
      exact Or.inr ⟨hval, rfl, update_self _ _ _⟩

/-! ## Untouched by a pass -/

/-- For the process `p` nothing has happened: values, pids, its adjust-on-exit entries,
and everybody else's tables are the same.  (A table may have been allocated.) -/
structure Untouched (p : Proc) (s t : SemState) : Prop where
  sema : t.sema = s.sema
  semval : ∀ g, (t.sem g).semval = (s.sem g).semval
  sempid : ∀ g, (t.sem g).sempid = (s.sem g).sempid
  entries : t.entries p = s.entries p
  others : ∀ q ≠ p, t.undo q = s.undo q
  table : (s.undo p).isSome → (t.undo p).isSome

theorem SameData.untouched (h : SameData s t) : Untouched p s t :=
  ⟨h.sema, h.semval, h.sempid, by rw [SemState.entries, SemState.entries, h.undo],
    fun q _ => by rw [h.undo], by rw [h.undo]; exact id⟩

theorem Untouched.trans (h : Untouched p s t) (h' : Untouched p t u) : Untouched p s u :=
  ⟨h'.sema.trans h.sema, fun g => (h'.semval g).trans (h.semval g),
    fun g => (h'.sempid g).trans (h.sempid g), h'.entries.trans h.entries,
    fun q hq => (h'.others q hq).trans (h.others q hq), fun hs => h'.table (h.table hs)⟩

theorem entries_of_undo {ents : List Undo} (h : s.undo p = some ents) : s.entries p = ents := by
  rw [SemState.entries, h, Option.getD_some]

theorem entries_congr (h : t.undo p = s.undo p) : t.entries p = s.entries p := by
  rw [SemState.entries, SemState.entries, h]

/-- What the states that occur satisfy: values within `semvmx`, tables in order. -/
structure SemWf (cfg : SemInfo) (s : SemState) : Prop where
  semval : ∀ g, (s.sem g).semval ≤ cfg.semvmx
  tables : ∀ p, TableOk cfg (s.entries p)

/-- A failing `semaoe` does nothing. -/
theorem semaoe_error {val id num : ℤ} (hs : SemWf cfg s)
    (h : (semaoe cfg s p val id num).1 ≠ none) : Untouched p s (semaoe cfg s p val id num).2 := by
  have hf := sameSems_semaoe cfg s p val id num
  rcases semaoe_cases cfg s p val id num with ⟨heq, -⟩ | ⟨hval, h1, h2⟩
  · rw [heq]
    exact (SameData.refl s).untouched
  · rw [h1] at h
    refine ⟨hf.sema, fun g => by rw [hf.sem], fun g => by rw [hf.sem], ?_, hf.others, ?_⟩
    · rw [entries_of_undo h2, aoeEntries_error (hs.tables p).bounded h]
    · rw [h2]; simp

/-- A successful `semaoe` keeps the table in order, and `semaoe` of the opposite value
takes it back in any state with the same table. -/
theorem semaoe_back {val id num : ℤ} (hs : SemWf cfg s)
    (h : (semaoe cfg s p val id num).1 = none) :
    TableOk cfg ((semaoe cfg s p val id num).2.entries p) ∧
      ((s.undo p).isSome → ((semaoe cfg s p val id num).2.undo p).isSome) ∧
      ∀ u, u.entries p = (semaoe cfg s p val id num).2.entries p →
        (((semaoe cfg s p val id num).2.undo p).isSome → (u.undo p).isSome) →
        (semaoe cfg u p (short (-val)) id num).2.entries p = s.entries p ∧
          ((s.undo p).isSome → ((semaoe cfg u p (short (-val)) id num).2.undo p).isSome) := by
  have hok := hs.tables p
  have haem := cfg.semaem_le
  rcases semaoe_cases cfg s p val id num with ⟨heq, hz, -⟩ | ⟨hval, h1, h2⟩
  · have hz := hz h
    rw [heq]
    refine ⟨hok, fun h => h, fun u hu ht => ?_⟩
    have h0 : semaoe cfg u p (short (-val)) id num = (none, u) := by
      rw [hz, semaoe, if_pos (by rfl)]
    rw [h0]
    exact ⟨hu, ht⟩
  · rw [h1] at h
    obtain ⟨b1, b2, b3, b4⟩ := aoeEntries_back hval hok.sorted hok.bounded h
    have hlen := hok.length_le
    rw [entries_of_undo h2, h2]
    refine ⟨⟨b1, b2, ?_⟩, fun _ => rfl, fun u hu ht => ?_⟩
    · rcases b3 with b3 | ⟨b3, hroom⟩
      · omega
      · have := of_decide_eq_true hroom; omega
    · have hneg : short (-val) = -val := short_eq (by omega)
      rw [hneg]
      have htab := ht rfl
      rcases semaoe_cases cfg u p (-val) id num with ⟨-, -, hno⟩ | ⟨-, h1', h2'⟩
      · exfalso
        rcases hno with hno | hno | hno | hno
        · omega
        · omega
        · omega
        · rw [hno] at htab; simp at htab
      · rw [hu, b4 _ fun hlt => decide_eq_true (by omega)] at h2'
        rw [entries_of_undo h2', h2']
        exact ⟨rfl, fun _ => rfl⟩

end Io
