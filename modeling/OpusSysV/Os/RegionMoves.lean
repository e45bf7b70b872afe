import OpusSysV.Os.Pregion
import OpusSysV.Os.RegionTables

/-!
# Where a region is after a call of `growreg`

What `growreg` does to the address, the offset and the size of a region, whatever its page tables
are.

* `SameBut` — two states that differ in the address, the offset and the tables at most.
* `Moved` — the outcomes of a call; `growreg_moved` says there are no others.
-/

namespace Os

open Lib Option

variable {s t u : Vm} {va off va' off' change : ℤ} {e : GrowEnv} {lotohi list ok : Bool}
  {tabs : List ℕ}

/-- `t` is at the address `va`, has the offset `off`, and is otherwise as big as `s`. -/
structure Vm.SameBut (s t : Vm) (va off : ℤ) : Prop where
  prp : t.prp = { s.prp with p_regva := va }
  pgoff : t.reg.r_pgoff = off
  pgsz : t.reg.r_pgsz = s.reg.r_pgsz
  refcnt : t.reg.r_refcnt = s.reg.r_refcnt

theorem Vm.SameBut.refl : s.SameBut s s.prp.p_regva s.reg.r_pgoff := ⟨rfl, rfl, rfl, rfl⟩

theorem Vm.SameBut.trans (h : s.SameBut t va off) (h' : t.SameBut u va' off') :
    s.SameBut u va' off' where
  prp := by rw [h'.prp, h.prp]
  pgoff := h'.pgoff
  pgsz := h'.pgsz.trans h.pgsz
  refcnt := h'.refcnt.trans h.refcnt

/-- The offset is changed afterwards. -/
theorem Vm.SameBut.offset (h : s.SameBut t va off) (o : ℤ) :
    s.SameBut { t with reg := { t.reg with r_pgoff := o } } va o :=
  ⟨h.prp, rfl, h.pgsz, h.refcnt⟩

/-! ## The parts of `ptexpand` -/

theorem shrinkTables_same {o n : ℤ} (h : s.shrinkTables o n lotohi = some t) :
    s.SameBut t
      (if lotohi then s.prp.p_regva else caddr (s.prp.p_regva + stob (ctos o - ctos n)))
      (if lotohi then s.reg.r_pgoff else short (s.reg.r_pgoff - stoc (ctos o - ctos n))) := by
  unfold Vm.shrinkTables at h
  cases lotohi with
  | true =>
    rw [if_pos rfl] at h
    obtain ⟨⟨l, m⟩, -, rfl⟩ := map_eq_some_iff.mp h
    exact ⟨rfl, rfl, rfl, rfl⟩
  | false =>
    rw [if_neg Bool.false_ne_true] at h
    obtain ⟨⟨l, m⟩, -, h⟩ := bind_eq_some_iff.mp h
    obtain ⟨⟨l', m'⟩, -, rfl⟩ := map_eq_some_iff.mp h
    exact ⟨rfl, rfl, rfl, rfl⟩

theorem shrinkList_same (n : ℤ) (list : Bool) :
    s.SameBut (s.shrinkList n list) s.prp.p_regva s.reg.r_pgoff := by
  unfold Vm.shrinkList
  dsimp only
  split_ifs <;> exact ⟨rfl, rfl, rfl, rfl⟩

theorem growList_same {o n : ℤ} (h : s.growList o n list = some t) :
    s.SameBut t s.prp.p_regva s.reg.r_pgoff := by
  unfold Vm.growList at h
  dsimp only at h
  split_ifs at h <;> cases h <;> exact ⟨rfl, rfl, rfl, rfl⟩

theorem growTables_same {o n : ℤ} (h : s.growTables o n lotohi tabs = some (ok, t)) :
    s.SameBut t
      (if lotohi then s.prp.p_regva else caddr (s.prp.p_regva - stob (ctos n - ctos o)))
      (if lotohi then s.reg.r_pgoff else short (s.reg.r_pgoff + stoc (ctos n - ctos o))) := by
  unfold Vm.growTables at h
  cases lotohi with
  | true =>
    rw [if_pos rfl] at h
    obtain ⟨⟨ok', l, m⟩, -, heq⟩ := map_eq_some_iff.mp h
    cases heq
    exact ⟨rfl, rfl, rfl, rfl⟩
  | false =>
    rw [if_neg Bool.false_ne_true] at h
    obtain ⟨l, -, h⟩ := bind_eq_some_iff.mp h
    obtain ⟨⟨ok', l', m⟩, -, heq⟩ := map_eq_some_iff.mp h
    cases heq
    exact ⟨rfl, rfl, rfl, rfl⟩

theorem growList_space {o n : ℤ} (h : s.growList o n list = some t) :
    ¬ (s.reg.r_listsz < btorl (ctos n * 4) ∧ list = false) := by
  rintro ⟨hneed, rfl⟩
  unfold Vm.growList at h
  dsimp only at h
  rw [if_pos hneed, if_neg Bool.false_ne_true] at h
  cases h

/-- `allocTables` fails only if there are fewer table pairs than it needs. -/
theorem allocTables_false {lp1 : ℕ} {k lp : ℕ} {l l' : List ℕ} {m m' : Ptmem}
    (h : allocTables lp1 k lp tabs l m = some (false, l', m')) : tabs.length < k := by
  induction k generalizing lp tabs l m with
  | zero => cases h
  | succ k ih =>
    unfold allocTables at h
    split_ifs at h
    cases tabs with
    | nil => exact Nat.succ_pos k
    | cons a tabs => exact Nat.succ_lt_succ (ih h)

theorem growTables_false {o n : ℤ} (h : s.growTables o n false tabs = some (false, t)) :
    (tabs.length : ℤ) < ctos n - ctos o := by
  unfold Vm.growTables at h
  rw [if_neg Bool.false_ne_true] at h
  obtain ⟨l, -, h⟩ := bind_eq_some_iff.mp h
  obtain ⟨⟨ok', l', m⟩, hloop, heq⟩ := map_eq_some_iff.mp h
  cases heq
  have := allocTables_false hloop
  omega

/-! ## `ptexpand` -/

/-- A region that grows upwards stays where it is. -/
theorem ptexpand_up_same (h : s.ptexpand change true list tabs = some (ok, t)) :
    s.SameBut t s.prp.p_regva s.reg.r_pgoff := by
  unfold Vm.ptexpand at h
  dsimp only at h
  rw [if_pos rfl] at h
  obtain ⟨w, hw, h⟩ := bind_eq_some_iff.mp h
  have hsw : s.SameBut w s.prp.p_regva s.reg.r_pgoff := by
    split_ifs at hw
    · obtain ⟨v, hv, rfl⟩ := map_eq_some_iff.mp hw
      have h1 : s.SameBut v s.prp.p_regva s.reg.r_pgoff := shrinkTables_same hv
      have h2 := h1.trans (shrinkList_same (s.reg.r_pgoff + s.reg.r_pgsz + change) list)
      rwa [h1.prp, h1.pgoff] at h2
    · cases hw
      exact .refl
  split at h
  · rw [if_pos rfl] at h
    cases h
    exact hsw
  · split at h
    · cases h
      exact hsw
    · rename_i v hv
      obtain ⟨⟨ok', x⟩, hx, heq⟩ := map_eq_some_iff.mp h
      have h1 := hsw.trans (growList_same hv)
      rw [hsw.prp, hsw.pgoff] at h1
      have h2 : v.SameBut x v.prp.p_regva v.reg.r_pgoff := growTables_same hx
      have h3 := h1.trans h2
      rw [h1.prp, h1.pgoff] at h3
      cases ok' <;> cases heq <;> exact h3

/-- A stack that shrinks. -/
theorem ptexpand_down_shrink_same (h0 : change ≤ 0)
    (hva : 0 ≤ s.prp.p_regva ∧ s.prp.p_regva < 2 ^ 32) (hz : s.reg.Sized)
    (h : s.ptexpand change false list tabs = some (ok, t)) {d : ℤ}
    (hd : d = ctos s.reg.r_pgsz - ctos (s.reg.r_pgsz + change)) :
    s.SameBut t (caddr (s.prp.p_regva + stob d))
      (short (short (s.reg.r_pgoff - stoc d) - change)) := by
  obtain ⟨hz1, hz2, hz3, hz4⟩ := hz
  unfold Vm.ptexpand at h
  dsimp only at h
  rw [if_neg Bool.false_ne_true] at h
  obtain ⟨w, hw, h⟩ := bind_eq_some_iff.mp h
  have hsw : s.SameBut w (caddr (s.prp.p_regva + stob d)) (short (s.reg.r_pgoff - stoc d)) := by
    split_ifs at hw with hlt
    · obtain ⟨v, hv, rfl⟩ := map_eq_some_iff.mp hw
      have h1 := shrinkTables_same hv
      rw [if_neg Bool.false_ne_true, if_neg Bool.false_ne_true, ← hd] at h1
      have h2 := h1.trans (shrinkList_same (s.reg.r_pgsz + change) list)
      rwa [h1.prp, h1.pgoff] at h2
    · cases hw
      have hd0 : d = 0 := by
        unfold ctos at hd hlt
        omega
      have hv : caddr (s.prp.p_regva + stob d) = s.prp.p_regva := by
        unfold caddr stob
        omega
      have ho : short (s.reg.r_pgoff - stoc d) = s.reg.r_pgoff := by
        unfold stoc
        rw [hd0, zero_mul, sub_zero]
        exact short_eq (by omega)
      rw [hv, ho]
      exact .refl
  rw [if_pos h0, if_neg Bool.false_ne_true, hsw.pgoff] at h
  cases h
  exact hsw.offset _

/-- A stack that grows: there is no space for the list, or it moves. -/
theorem ptexpand_down_grow_same (h0 : 0 < change)
    (h : s.ptexpand change false list tabs = some (ok, t)) {d : ℤ}
    (hd : d = ctos (s.reg.r_pgsz + change) - ctos s.reg.r_pgsz) :
    (ok = false ∧ t = s) ∨
    ¬ (s.reg.r_listsz < btorl (ctos (s.reg.r_pgsz + change) * 4) ∧ list = false) ∧
      ((ok = false ∧ (tabs.length : ℤ) < d ∧
        s.SameBut t (caddr (s.prp.p_regva - stob d)) (short (s.reg.r_pgoff + stoc d))) ∨
      (ok = true ∧ s.SameBut t (caddr (s.prp.p_regva - stob d))
        (short (short (s.reg.r_pgoff + stoc d) - change)))) := by
  unfold Vm.ptexpand at h
  dsimp only at h
  rw [if_neg Bool.false_ne_true, if_neg (by unfold ctos; omega), bind_some,
    if_neg (by omega)] at h
  split at h
  · cases h
    exact Or.inl ⟨rfl, rfl⟩
  · rename_i v hv
    obtain ⟨⟨ok', x⟩, hx, heq⟩ := map_eq_some_iff.mp h
    have h1 := growList_same hv
    have h2 := growTables_same hx
    rw [if_neg Bool.false_ne_true, if_neg Bool.false_ne_true, ← hd, h1.prp, h1.pgoff] at h2
    have h3 := h1.trans h2
    cases ok' with
    | false =>
      rw [if_neg Bool.false_ne_true] at heq
      cases heq
      exact Or.inr ⟨growList_space hv, Or.inl ⟨rfl, hd ▸ growTables_false hx, h3⟩⟩
    | true =>
      rw [if_pos rfl, if_neg Bool.false_ne_true, h3.pgoff] at heq
      cases heq
      exact Or.inr ⟨growList_space hv, Or.inr ⟨rfl, h3.offset _⟩⟩

/-! ## `growreg` -/

theorem onPages_same {a b : ℤ} {f : ℤ → Pgent → Pgent} (h : s.onPages a b f = some t) :
    s.SameBut t s.prp.p_regva s.reg.r_pgoff := by
  obtain ⟨ent, -, rfl⟩ := map_eq_some_iff.mp h
  exact ⟨rfl, rfl, rfl, rfl⟩

/-- The number of segments by which a stack moves down. -/
def Vm.down (s : Vm) (change : ℤ) : ℤ := ctos (s.reg.r_pgsz + change) - ctos s.reg.r_pgsz

/-- The address, the offset and the size that a call may lead to. -/
inductive Vm.Moved (s : Vm) (e : GrowEnv) (change : ℤ) : ℤ → ℤ → ℤ → Prop
  | stay : s.Moved e change s.prp.p_regva s.reg.r_pgoff s.reg.r_pgsz
  | up (htype : s.prp.p_type ≠ .stack) (h : change < 0 ∨ 0 < change ∧ ¬ s.Refused e change true) :
    s.Moved e change s.prp.p_regva s.reg.r_pgoff (short (s.reg.r_pgsz + change))
  | shrink (htype : s.prp.p_type = .stack) (h0 : change < 0) :
    s.Moved e change (caddr (s.prp.p_regva - stob (s.down change)))
      (short (short (s.reg.r_pgoff + stoc (s.down change)) - change))
      (short (s.reg.r_pgsz + change))
  | grow (htype : s.prp.p_type = .stack) (h0 : 0 < change) (h : ¬ s.Refused e change false)
      (hl : ¬ s.NoList e change) :
    s.Moved e change (caddr (s.prp.p_regva - stob (s.down change)))
      (short (short (s.reg.r_pgoff + stoc (s.down change)) - change))
      (short (s.reg.r_pgsz + change))
  | fail (htype : s.prp.p_type = .stack) (h0 : 0 < change) (h : ¬ s.Refused e change false)
      (hl : ¬ s.NoList e change) (ht : (e.tabs.length : ℤ) < s.down change) :
    s.Moved e change (caddr (s.prp.p_regva - stob (s.down change)))
      (short (s.reg.r_pgoff + stoc (s.down change))) s.reg.r_pgsz

/-- What `growreg` was called for and where the region is afterwards. -/
structure Vm.MovesTo (s : Vm) (e : GrowEnv) (change : ℤ) (t : Vm) : Prop where
  refcnt : s.reg.r_refcnt = 1
  fits : -change ≤ s.reg.r_pgsz ∨ 0 ≤ change
  moved : s.Moved e change t.prp.p_regva t.reg.r_pgoff t.reg.r_pgsz
  prp : t.prp = { s.prp with p_regva := t.prp.p_regva }
  same : t.reg.r_refcnt = s.reg.r_refcnt

theorem Vm.SameBut.movesTo (h : s.SameBut t va off) (hr : s.reg.r_refcnt = 1)
    (hf : -change ≤ s.reg.r_pgsz ∨ 0 ≤ change) (hm : s.Moved e change va off s.reg.r_pgsz) :
    s.MovesTo e change t := by
  refine ⟨hr, hf, ?_, ?_, h.refcnt⟩
  · rw [h.prp, h.pgoff, h.pgsz]
    exact hm
  · rw [h.prp]

/-- The same for a call that changes the size. -/
theorem Vm.SameBut.resize (h : s.SameBut t va off) (hr : s.reg.r_refcnt = 1)
    (hf : -change ≤ s.reg.r_pgsz ∨ 0 ≤ change)
    (hm : s.Moved e change va off (short (s.reg.r_pgsz + change))) :
    s.MovesTo e change (t.resize change) := by
  refine ⟨hr, hf, ?_, ?_, h.refcnt⟩
  · show s.Moved e change t.prp.p_regva t.reg.r_pgoff (short (t.reg.r_pgsz + change))
    rw [h.prp, h.pgoff, h.pgsz]
    exact hm
  · show t.prp = { s.prp with p_regva := t.prp.p_regva }
    rw [h.prp]

/-- Every call of `growreg` that returns is one of these. -/
theorem growreg_moved {type : ℕ} {r : ℤ} (h : s.growreg e change type = some (r, t))
    (hva : 0 ≤ s.prp.p_regva ∧ s.prp.p_regva < 2 ^ 32) (hz : s.reg.Sized) :
    s.MovesTo e change t := by
  have hg : (0 ≤ change ∨ -change ≤ s.reg.r_pgsz) ∧ s.reg.r_refcnt = 1 := by
    by_contra hno
    unfold Vm.growreg at h
    rw [if_neg hno] at h
    cases h
  obtain ⟨hf, hr⟩ := hg
  replace hf := hf.symm
  rcases lt_trichotomy change 0 with h0 | h0 | h0
  · unfold Vm.growreg at h
    rw [if_pos ⟨hf.symm, hr⟩, if_neg (by omega)] at h
    dsimp only at h
    rw [if_pos h0] at h
    obtain ⟨w, hw, h⟩ := bind_eq_some_iff.mp h
    obtain ⟨⟨ok, v⟩, hv, heq⟩ := map_eq_some_iff.mp h
    cases heq
    have h1 := onPages_same hw
    by_cases hst : s.prp.p_type = .stack
    · rw [decide_eq_false (not_not.mpr hst)] at hv
      have hwz : w.reg.Sized := by
        unfold Reg.Sized
        rw [h1.pgsz, h1.pgoff]
        exact hz
      have h2 := ptexpand_down_shrink_same h0.le (by rw [h1.prp]; exact hva) hwz hv rfl
      rw [h1.prp, h1.pgoff, h1.pgsz] at h2
      have h3 := h1.trans h2
      refine h3.resize hr hf ?_
      have := Vm.Moved.shrink (e := e) hst h0
      unfold Vm.down at this
      rwa [show s.prp.p_regva - stob (ctos (s.reg.r_pgsz + change) - ctos s.reg.r_pgsz) =
          s.prp.p_regva + stob (ctos s.reg.r_pgsz - ctos (s.reg.r_pgsz + change)) by
          unfold stob; omega,
        show s.reg.r_pgoff + stoc (ctos (s.reg.r_pgsz + change) - ctos s.reg.r_pgsz) =
          s.reg.r_pgoff - stoc (ctos s.reg.r_pgsz - ctos (s.reg.r_pgsz + change)) by
          unfold stoc; omega] at this
    · rw [decide_eq_true hst] at hv
      have h2 := h1.trans (ptexpand_up_same hv)
      rw [h1.prp, h1.pgoff] at h2
      exact h2.resize hr hf (.up hst (Or.inl h0))
  · subst h0
    unfold Vm.growreg at h
    rw [if_pos ⟨hf.symm, hr⟩, if_pos rfl] at h
    cases h
    exact Vm.SameBut.refl.movesTo hr hf .stay
  · rcases growreg_grow_eq type (e := e) h0 hr with ⟨-, heq⟩ | ⟨href, heq⟩
    · rw [heq] at h
      cases h
      exact Vm.SameBut.refl.movesTo hr hf .stay
    · rw [heq] at h
      obtain ⟨⟨ok, v⟩, hv, h⟩ := bind_eq_some_iff.mp h
      dsimp only at h
      by_cases hst : s.prp.p_type = .stack
      · rw [decide_eq_false (not_not.mpr hst)] at hv href
        rcases ptexpand_down_grow_same h0 hv rfl with ⟨rfl, rfl⟩ | ⟨hl, ⟨rfl, ht, h1⟩ | ⟨rfl, h1⟩⟩
        · rw [if_pos rfl] at h
          cases h
          exact Vm.SameBut.refl.movesTo hr hf .stay
        · rw [if_pos rfl] at h
          cases h
          exact h1.movesTo hr hf (.fail hst h0 href hl ht)
        · rw [if_neg (by decide)] at h
          obtain ⟨w, hw, heq⟩ := map_eq_some_iff.mp h
          cases heq
          have h2 := h1.trans (onPages_same hw)
          rw [h1.prp, h1.pgoff] at h2
          exact h2.resize hr hf (.grow hst h0 href hl)
      · rw [decide_eq_true hst] at hv href
        have h1 := ptexpand_up_same hv
        cases ok with
        | false =>
          rw [if_pos rfl] at h
          cases h
          exact h1.movesTo hr hf .stay
        | true =>
          rw [if_neg (by decide)] at h
          obtain ⟨w, hw, heq⟩ := map_eq_some_iff.mp h
          cases heq
          have h2 := h1.trans (onPages_same hw)
          rw [h1.prp, h1.pgoff] at h2
          exact h2.resize hr hf (.up hst (Or.inr ⟨h0, href⟩))

end Os
