import OpusSysV.Io.ShmRun

/-!
# What each call keeps

* `Inv.ctlLocked`, `Inv.atLocked`, `Inv.growreg`, `Inv.rmidLocked`, `Inv.dtLocked`, `Inv.getLocked` — the
  parts of the calls that run with the lock of a region.
-/

namespace Io.Shm

open Function List
open Lib

variable {c : Tune} {s t : Sys} {p q r i j n : ℕ} {id : ℤ} {mem : ℤ} {Z : Call} {a : Answers}

theorem only_call (ht : t.call = update s.call p Z) (h1 : About r (s.call p).region)
    (h2 : About r Z.region) (q : ℕ) :
    t.call q = s.call q ∨ About r (s.call q).region ∧ About r (t.call q).region := by
  rw [ht]
  by_cases hq : q = p
  · subst hq
    exact .inr ⟨h1, by rwa [update_self]⟩
  · exact .inl (update_of_ne hq _ _)

theorem only_shmem {X : Shmid} (ht : t.shmem = update s.shmem i X) (h1 : About r (s.shmem i).shm_reg)
    (h2 : About r X.shm_reg) (j : ℕ) :
    t.shmem j = s.shmem j ∨ About r (s.shmem j).shm_reg ∧ About r (t.shmem j).shm_reg := by
  rw [ht]
  by_cases hj : j = i
  · subst hj
    exact .inr ⟨h1, by rwa [update_self]⟩
  · exact .inl (update_of_ne hj _ _)

theorem only_region {Y : Region} (ht : t.region = update s.region r Y) (x : ℕ) (hx : x ≠ r) :
    t.region x = s.region x := by
  rw [ht, update_of_ne hx]

theorem quiet_idle (r : ℕ) : Quiet r .idle := ⟨nofun, nofun⟩

theorem call_self (ht : t.call = update s.call p Z) : t.call p = Z := by
  rw [ht, update_self]

/-- When a region is not locked, no process grows it. -/
theorem Live.no_grow (h : Live c s r) (hlock : (s.region r).RG_LOCK = false) (q : ℕ) (id : ℤ) (i n : ℕ) :
    s.call q ≠ .grow id i r n := fun hg => by
  have := h.lock.mpr (.inr ⟨q, id, i, n, hg⟩)
  rw [hlock] at this
  cases this

theorem Live.not_kern (h : Live c s r) (hlock : (s.region r).RG_LOCK = false) : r ∉ s.kern := fun hk => by
  have := h.lock.mpr (.inl hk)
  rw [hlock] at this
  cases this

/-- A region that is not locked and is named is either not grown yet or done. -/
theorem Live.ready' (h : Live c s r) (hlock : (s.region r).RG_LOCK = false)
    (hi : (s.shmem i).shm_reg = some r) :
    (s.shmem i).SHM_INIT = true ∧ (s.region r).RG_DONE = false ∧ (s.region r).r_refcnt = 0 ∨
    (s.shmem i).SHM_INIT = false ∧ (s.region r).RG_DONE = true :=
  (h.ready i hi).imp_right fun hr => ⟨hr.1, hr.2.resolve_right fun ⟨p, id, n, hg⟩ => h.no_grow hlock p id i n hg⟩

theorem Live.done (h : Live c s r) (hlock : (s.region r).RG_LOCK = false) (hp : (p, r) ∈ s.att) :
    (s.region r).RG_DONE = true :=
  (h.att p hp).resolve_right fun ⟨id, i, n, hg⟩ => h.no_grow hlock p id i n hg

/-! ## `shmctl` -/

section

variable (h : Inv c mem s)

include h

theorem Inv.ctlLocked {cmd : Cmd} (hl : Live c s r) (hlock : (s.region r).RG_LOCK = false)
    (hphys : (s.region r).r_type ≠ .RT_PHMEM) (hquiet : ∀ r, Quiet r (s.call p))
    (habout : About r (s.call p).region) : Inv c mem (s.ctlLocked c p r cmd) := by
  have hkey : ∀ (av : ℤ) (m : ℕ), av + (if m = 0 then 0 else (s.region r).r_pgsz : ℕ) =
      s.availrmem + (s.region r).locked →
      Inv c mem ⟨s.shmem, update s.region r { s.region r with r_noswapcnt := m }, s.rfree, av, s.att,
        s.kern, update s.call p .idle⟩ := by
    intro av m hav
    refine h.change hl rfl rfl (fun _ => .inl rfl) (moves_of rfl trivial habout (about_none r)
      (fun id => ⟨(hquiet r).1 id, nofun⟩) (fun q _ => hl.no_grow hlock q) fun _ _ h => h)
      (fun _ _ _ => .rfl) (fun _ _ => rfl) h.kern (fun _ _ => .rfl) rfl rfl hl.refcnt hl.kept
      (fun j hj => (hl.ready' hlock hj).imp_right fun hr => ⟨hr.1, .inl hr.2⟩)
      (fun q hq => .inl (hl.done hlock hq)) hl.pgsz (unlocked rfl hlock (hl.not_kern hlock)) ?_
    rw [← hav]
    unfold Region.locked
    simp [hphys, ite_not]
  have hpages : (s.region r).locked = if (s.region r).r_noswapcnt = 0 then 0 else (s.region r).r_pgsz := by
    unfold Region.locked
    simp [hphys, ite_not]
  cases cmd with
  | SHM_LOCK =>
    unfold Sys.ctlLocked
    dsimp only
    split
    · exact h.setCall hquiet quiet_idle trivial nofun
    · refine hkey (s.availrmem - if (s.region r).r_noswapcnt = 0 then (s.region r).r_pgsz else 0)
        ((s.region r).r_noswapcnt + 1) ?_
      rw [hpages, if_neg (Nat.succ_ne_zero _)]
      split <;> push_cast <;> omega
  | SHM_UNLOCK =>
    unfold Sys.ctlLocked
    dsimp only
    refine hkey (s.availrmem + if (s.region r).r_noswapcnt = 1 then (s.region r).r_pgsz else 0)
      ((s.region r).r_noswapcnt - 1) ?_
    rw [hpages]
    rcases (s.region r).r_noswapcnt with _ | _ | m <;> simp

/-! ## `shmat` -/

theorem Names.live (hn : Names c s id i r) : Live c s r :=
  (h.region r).resolve_left fun hf => hf.shmem i hn.2

omit h in
theorem Names.about (hn : Names c s id i r) : About r (s.shmem i).shm_reg := hn.2 ▸ about_some r

omit h in
theorem Live.unattached (h : Live c s r) (hz : (s.region r).r_refcnt = 0) (q : ℕ) : (q, r) ∉ s.att := by
  intro hq
  have := countP_eq_zero.mp (h.refcnt.symm.trans hz) _ hq
  simp at this

/-- The region is attached to be grown. -/
theorem Inv.attachInit (hn : Names c s id i r) (hlock : (s.region r).RG_LOCK = false)
    (hinit : (s.shmem i).SHM_INIT = true) (hquiet : ∀ r, Quiet r (s.call p))
    (habout : About r (s.call p).region) (n : ℕ) :
    Inv c mem ⟨update s.shmem i { s.shmem i with SHM_INIT := false },
      update s.region r { s.region r with RG_LOCK := true, r_refcnt := (s.region r).r_refcnt + 1 }, s.rfree,
      s.availrmem, (p, r) :: s.att, s.kern, update s.call p (.grow id i r n)⟩ := by
  have hl := hn.live h
  obtain ⟨hdone, hzero⟩ : (s.region r).RG_DONE = false ∧ (s.region r).r_refcnt = 0 := by
    rcases hl.ready' hlock hn.2 with hr | hr
    · exact hr.2
    · rw [hinit] at hr
      cases hr.1
  have hnone := hl.unattached hzero
  have hok : CallOK c ⟨update s.shmem i { s.shmem i with SHM_INIT := false },
      update s.region r { s.region r with RG_LOCK := true, r_refcnt := (s.region r).r_refcnt + 1 }, s.rfree,
      s.availrmem, (p, r) :: s.att, s.kern, update s.call p (.grow id i r n)⟩ p (.grow id i r n) := by
    refine ⟨Iff.mpr (SameNames.names (.of_entry (shmem_upd rfl hn.2 ⟨rfl, rfl, rfl⟩))) hn, init_self rfl rfl, ?_, ?_, mem_cons_self, hl.not_kern hlock⟩
    all_goals dsimp only
    · rw [update_self]
      exact hdone
    · rw [update_self, hzero]
  refine h.change hl rfl rfl (shmem_upd rfl hn.2 ⟨rfl, rfl, rfl⟩) (moves_of rfl hok habout (about_some r)
    (fun id' => ⟨(hquiet r).1 id', nofun⟩) (fun q _ => hl.no_grow hlock q) fun q _ => mem_cons_of_mem _)
    (fun _ _ => mem_cons_att) (fun _ => count_cons_att) h.kern (fun _ _ => .rfl) rfl rfl ?_
    (fun _ => Nat.succ_pos _) (fun j hj => ?_) (fun q hq => ?_) hl.pgsz
    (iff_of_true rfl (.inr ⟨id, i, n, update_self ..⟩)) rfl
  · rw [countP_cons_of_pos (by simp), ← hl.refcnt]
  · cases hl.one j i hj hn.2
    exact .inr ⟨init_self rfl rfl, .inr ⟨p, id, n, update_self ..⟩⟩
  · rcases mem_cons.mp hq with hq | hq
    · cases hq
      exact .inr ⟨id, i, n, update_self ..⟩
    · exact absurd hq (hnone q)

/-- A region that is done is attached. -/
theorem Inv.attachDone (hn : Names c s id i r) (hlock : (s.region r).RG_LOCK = false)
    (hinit : (s.shmem i).SHM_INIT = false) (hquiet : ∀ r, Quiet r (s.call p))
    (habout : About r (s.call p).region) :
    Inv c mem ⟨update s.shmem i { s.shmem i with shm_lpid := p },
      update s.region r { s.region r with RG_LOCK := false, r_refcnt := (s.region r).r_refcnt + 1 }, s.rfree,
      s.availrmem, (p, r) :: s.att, s.kern, update s.call p .idle⟩ := by
  have hl := hn.live h
  have hdone : (s.region r).RG_DONE = true := by
    rcases hl.ready' hlock hn.2 with hr | hr
    · rw [hinit] at hr
      cases hr.1
    · exact hr.2
  refine h.change hl rfl rfl (shmem_upd rfl hn.2 ⟨rfl, rfl, rfl⟩) (moves_of rfl trivial habout
    (about_none r) (fun id' => ⟨(hquiet r).1 id', nofun⟩) (fun q _ => hl.no_grow hlock q)
    fun q _ => mem_cons_of_mem _) (fun _ _ => mem_cons_att) (fun _ => count_cons_att) h.kern
    (fun _ _ => .rfl) rfl rfl ?_ (fun _ => Nat.succ_pos _) (fun j hj => ?_) (fun _ _ => .inl hdone)
    hl.pgsz (unlocked rfl rfl (hl.not_kern hlock)) rfl
  · rw [countP_cons_of_pos (by simp), ← hl.refcnt]
  · cases hl.one j i hj hn.2
    exact .inr ⟨init_self rfl hinit, .inl hdone⟩

/-! ### After `growreg` -/

/-- One process grows a region. -/
theorem Inv.grower (hp : s.call p = .grow id i r n) {q : ℕ} {id' : ℤ} {j m : ℕ}
    (hq : s.call q = .grow id' j r m) : q = p := by
  obtain ⟨hn, -, -, hone, hmem, -⟩ := hp ▸ h.call p
  obtain ⟨-, -, -, -, hmem', -⟩ := hq ▸ h.call q
  have hl := hn.live h
  rw [hl.refcnt, countP_eq_length_filter, length_eq_one_iff] at hone
  obtain ⟨x, hx⟩ := hone
  have h1 : (p, r) ∈ s.att.filter (·.2 = r) := mem_filter.mpr ⟨hmem, by simp⟩
  have h2 : (q, r) ∈ s.att.filter (·.2 = r) := mem_filter.mpr ⟨hmem', by simp⟩
  rw [hx, mem_singleton] at h1 h2
  exact congrArg Prod.fst (h2.trans h1.symm)

/-- The region is grown. -/
theorem Inv.grown (hp : s.call p = .grow id i r n) :
    Inv c mem (s.growreg p i r n true) := by
  obtain ⟨hn, hinit, hdone, hone, hmem, hkern⟩ := hp ▸ h.call p
  have hl := hn.live h
  have havail : (s.growreg p i r n true).availrmem = s.availrmem -
      if (s.region r).r_type ≠ RType.RT_PHMEM ∧ (s.region r).r_noswapcnt ≠ 0 then n else 0 := rfl
  refine h.change (Y := { s.region r with r_pgsz := (s.region r).r_pgsz + n, RG_DONE := true, RG_LOCK := false })
    hl rfl rfl (shmem_upd rfl hn.2 ⟨rfl, rfl, rfl⟩) (moves_of rfl trivial (hp ▸ about_some r)
    (about_none r) (fun _ => ⟨by rw [hp]; nofun, nofun⟩) (fun q hq id' j m hg => hq (h.grower hp hg))
    fun _ _ h => h) (fun _ _ _ => .rfl) (fun _ _ => rfl) h.kern (fun _ _ => .rfl) rfl rfl hl.refcnt hl.kept
    (fun j hj => ?_) (fun _ _ => .inl rfl) nofun (unlocked rfl rfl hkern) ?_
  · cases hl.one j i hj hn.2
    exact .inr ⟨init_self rfl hinit, .inl rfl⟩
  · rw [havail]
    unfold Region.locked
    dsimp only
    split <;> push_cast <;> omega

omit h in
/-- `detachreg`, when the region is kept. -/
theorem detachreg_keep (hkeep : ¬ ((s.region r).r_refcnt - 1 = 0 ∧ (s.region r).RG_NOFREE = false)) :
    s.detachreg p r = ⟨s.shmem, update s.region r
      { s.region r with r_refcnt := (s.region r).r_refcnt - 1, RG_LOCK := false }, s.rfree, s.availrmem,
      s.att.erase (p, r), s.kern, s.call⟩ := by
  unfold Sys.detachreg Sys.regrele Sys.setRegion
  dsimp only
  rw [if_neg hkeep, update_self, update_idem]

omit h in
theorem Live.count_erase (h : Live c s r) (hmem : (p, r) ∈ s.att) :
    (s.region r).r_refcnt - 1 = (s.att.erase (p, r)).countP (·.2 = r) := by
  rw [countP_erase, if_pos ⟨hmem, by simp⟩, h.refcnt]

omit h in
/-- The other processes keep the region. -/
theorem mem_erase_of_other (hq : q ≠ p) (h : (q, r) ∈ s.att) : (q, r) ∈ s.att.erase (p, r) :=
  (mem_erase_of_ne fun heq => hq (congrArg Prod.fst heq)).mpr h

omit h in
theorem setCall_setCall (s : Sys) (p : ℕ) (y z : Call) : (s.setCall p y).setCall p z = s.setCall p z := by
  unfold Sys.setCall
  dsimp only
  rw [update_idem]

omit h in
/-- Where the process was does not matter. -/
theorem growFailed_setCall (s : Sys) (p i r : ℕ) (y : Call) :
    (s.setCall p y).growFailed p i r = s.growFailed p i r := by
  have hdetach : ∀ u : Sys, (u.setCall p y).detachreg p r = (u.detachreg p r).setCall p y := by
    intro u
    unfold Sys.detachreg
    dsimp only
    split <;> split <;> first | rfl | contradiction
  have hset : ∀ X : Shmid, (s.setCall p y).setShmid i X = (s.setShmid i X).setCall p y := fun _ => rfl
  unfold Sys.growFailed
  dsimp only
  rw [hset, hdetach, setCall_setCall]
  rfl

/-- The region could not be grown. -/
theorem Inv.growFailed (hp : s.call p = .grow id i r n) :
    Inv c mem (s.growFailed p i r) := by
  obtain ⟨hn, hinit, hdone, hone, hmem, hkern⟩ := hp ▸ h.call p
  have hl := hn.live h
  have hno : (s.region r).RG_NOFREE = true := hl.nofree.mpr (.inl ⟨i, hn.2⟩)
  have hform : s.growFailed p i r = ⟨update s.shmem i { s.shmem i with SHM_INIT := true }, update s.region r
      { s.region r with r_refcnt := (s.region r).r_refcnt - 1, RG_LOCK := false }, s.rfree, s.availrmem,
      s.att.erase (p, r), s.kern, update s.call p .idle⟩ := by
    unfold Sys.growFailed
    dsimp only
    rw [detachreg_keep fun hc => by
      have hf : (s.region r).RG_NOFREE = false := hc.2
      rw [hno] at hf
      cases hf]
    rfl
  have hcount := hl.count_erase hmem
  have hnone : ∀ q, (q, r) ∉ s.att.erase (p, r) := fun q hq => by
    rw [hone] at hcount
    have := countP_eq_zero.mp hcount.symm _ hq
    simp at this
  rw [hform]
  refine h.change hl rfl rfl (shmem_upd rfl hn.2 ⟨rfl, rfl, rfl⟩) (moves_of rfl trivial
    (hp ▸ about_some r) (about_none r) (fun _ => ⟨by rw [hp]; nofun, nofun⟩)
    (fun q hq id' j m hg => hq (h.grower hp hg)) fun q hq hqr => mem_erase_of_other hq hqr)
    (fun _ _ => mem_erase_att) (fun _ => count_erase_att) h.kern (fun _ _ => .rfl) rfl rfl hcount
    (fun hf => ?_) (fun j hj => ?_) (fun q hq => absurd hq (hnone q)) hl.pgsz (unlocked rfl rfl hkern) rfl
  · exact Bool.noConfusion (hno.symm.trans hf)
  · cases hl.one j i hj hn.2
    exact .inl ⟨init_self rfl rfl, hdone, by show (s.region r).r_refcnt - 1 = 0; omega⟩

/-- `shmat`, with the lock of the region. -/
theorem Inv.atLocked (hn : Names c s id i r) (hlock : (s.region r).RG_LOCK = false)
    (hquiet : ∀ r, Quiet r (s.call p)) (habout : About r (s.call p).region) :
    Inv c mem (s.atLocked c p id i r a) := by
  have hl := hn.live h
  have hret : Inv c mem (s.setCall p .idle) := h.setCall hquiet quiet_idle trivial nofun
  unfold Sys.atLocked
  dsimp only
  split
  · exact hret
  split
  next hwait =>
    rcases hl.ready' hlock hn.2 with hr | hr
    · rw [hwait.2] at hr
      cases hr.1
    · rw [hwait.1] at hr
      cases hr.2
  split
  · exact hret
  split
  next hinit =>
    have hgrow := h.attachInit hn hlock hinit hquiet habout (btoc (s.shmem i).shm_segsz)
    split
    · have hfail := hgrow.growFailed (call_self (s := s) rfl)
      rw [← growFailed_setCall _ _ _ _ (.grow id i r (btoc (s.shmem i).shm_segsz))]
      exact hfail
    · exact hgrow
  next hinit =>
    have hdone := h.attachDone hn hlock (Bool.eq_false_iff.mpr hinit) hquiet habout
    unfold Sys.regrele Sys.setRegion Sys.setShmid Sys.setCall
    dsimp only
    rw [update_self, update_idem]
    exact hdone

/-! ## Regions that are freed -/

omit h in
/-- A call about a region that is neither named nor attached. -/
theorem CallOK.idle {y : Call} (hok : CallOK c s q y) (ha : About r y.region)
    (hnames : ∀ i, (s.shmem i).shm_reg ≠ some r) (hatt : (q, r) ∉ s.att)
    (hrmid : ∀ id, y ≠ .rmid id r) : y = .idle := by
  cases y with
  | idle => rfl
  | wait => exact hok.elim
  | get => exact hok.elim
  | «at» id i r' =>
    cases ha r' rfl
    exact absurd hok.2 (hnames i)
  | grow id i r' n =>
    cases ha r' rfl
    exact absurd hok.1.2 (hnames i)
  | rmid id r' =>
    cases ha r' rfl
    exact absurd rfl (hrmid id)
  | ctl cmd id i r' =>
    cases ha r' rfl
    exact absurd hok.1.2 (hnames i)
  | dt r' =>
    cases ha r' rfl
    exact absurd hok hatt

/-- `freereg`, for a region that nothing is about any more. -/
theorem Inv.freereg (hl : Live c s r) (ho : Only r s t) (hzero : t.region r = Region.zero)
    (hfree : t.rfree = r :: s.rfree) (hshmem : t.shmem = s.shmem)
    (hnames : ∀ i, (s.shmem i).shm_reg ≠ some r)
    (hcall : ∀ q, About r (t.call q).region → t.call q = .idle) (hatt : ∀ q, (q, r) ∉ t.att)
    (hkern : t.kern = s.kern) (hk : r ∉ s.kern)
    (havail : t.availrmem = s.availrmem + (s.region r).locked) : Inv c mem t := by
  refine h.of_only ho (.inl ⟨hzero, ?_, ?_, ?_, hatt, by rwa [hkern]⟩) (fun q ha => ?_)
    (by rw [hshmem]; exact h.alloc) ?_ (by rw [hkern]; exact h.kern) hl.bound ?_
  · rw [hfree]
    exact iff_of_true mem_cons_self hl.bound
  · rw [hshmem]
    exact hnames
  · intro q hq
    have := hcall q (hq ▸ about_some r)
    rw [this] at hq
    cases hq
  · rw [hcall q ha]
    trivial
  · rw [hfree]
    exact nodup_cons.mpr ⟨hl.notfree, h.nodup⟩
  · rw [hzero, havail]
    show _ + ((Region.zero).locked : ℤ) = _
    rw [show Region.zero.locked = 0 from rfl]
    exact add_zero _

/-! ## `shmctl` with `IPC_RMID` -/

theorem Inv.rmidLocked (hp : s.call p = .rmid id r)
    (hlock : (s.region r).RG_LOCK = false) : Inv c mem (s.rmidLocked p r) := by
  obtain ⟨hused, hnames⟩ := hp ▸ h.call p
  have hl : Live c s r := (h.region r).resolve_left fun hf => hused (by rw [hf.zero]; rfl)
  have hrmid : ∀ q, q ≠ p → ∀ id', s.call q ≠ .rmid id' r := fun q hq id' hr => hq (hl.rmid q p id' id hr hp)
  unfold Sys.rmidLocked
  dsimp only
  split
  next hzero =>
    have hnone := hl.unattached hzero
    obtain ⟨t, ht⟩ : ∃ t : Sys, t = (s.freereg r).setCall p .idle := ⟨_, rfl⟩
    have hcall : t.call = update s.call p .idle := by rw [ht]; rfl
    have hregion : t.region = update s.region r Region.zero := by rw [ht]; rfl
    have hfree : t.rfree = r :: s.rfree := by rw [ht]; rfl
    have honly : Only r s t := ⟨only_region hregion, fun x hx => by
      rw [hfree, mem_cons, or_iff_right hx], fun _ => .inl (by rw [ht]; rfl),
      only_call hcall (hp ▸ about_some r) (about_none r), fun _ _ _ => by rw [ht]; rfl,
      fun _ _ => by rw [ht]; rfl, fun _ _ => by rw [ht]; rfl⟩
    rw [← ht]
    refine h.freereg hl honly (by rw [hregion, update_self]) hfree (by rw [ht]; rfl) hnames
      (fun q ha => ?_) (by rw [ht]; exact hnone) (by rw [ht]; rfl) (hl.not_kern hlock) (by rw [ht]; rfl)
    by_cases hq : q = p
    · rw [hq, hcall, update_self]
    · have hsame : t.call q = s.call q := by rw [hcall, update_of_ne hq]
      rw [hsame] at ha ⊢
      exact (h.call q).idle ha hnames (hnone q) (hrmid q hq)
  next hpos =>
    obtain ⟨t, ht⟩ : ∃ t : Sys, t = (s.setRegion r { s.region r with RG_NOFREE := false, RG_LOCK := false
      }).setCall p .idle := ⟨_, rfl⟩
    have hcall : t.call = update s.call p .idle := by rw [ht]; rfl
    have hregion : t.region = update s.region r { s.region r with RG_NOFREE := false, RG_LOCK := false } := by
      rw [ht]; rfl
    have hreg : t.region r = { s.region r with RG_NOFREE := false, RG_LOCK := false } := by
      rw [hregion]
      exact update_self r _ s.region
    have hshmem : t.shmem = s.shmem := by rw [ht]; rfl
    have hatt : t.att = s.att := by rw [ht]; rfl
    have hsame : SameNames s t := fun j => by rw [hshmem]; exact ⟨rfl, rfl, rfl⟩
    have honly : Only r s t := ⟨only_region hregion, fun x hx => by rw [ht]; rfl, fun _ => .inl (by rw [hshmem]),
      only_call hcall (hp ▸ about_some r) (about_none r), fun _ _ _ => by rw [hatt],
      fun _ _ => by rw [hatt], fun _ _ => by rw [ht]; rfl⟩
    have hnogrow : ∀ q id' i n, t.call q ≠ .grow id' i r n := by
      rw [hcall]
      exact (forall_update_iff s.call fun _ y => ∀ id' i n, y ≠ .grow id' i r n).mpr
        ⟨fun _ _ _ => nofun, fun q _ => hl.no_grow hlock q⟩
    have hnormid : ∀ q id', t.call q ≠ .rmid id' r := by
      rw [hcall]
      exact (forall_update_iff s.call fun _ y => ∀ id', y ≠ .rmid id' r).mpr
        ⟨fun _ => nofun, fun q hq => hrmid q hq⟩
    rw [← ht]
    refine h.of_only honly (.inr ?_) (fun q ha => ?_) (by rw [hshmem]; exact h.alloc)
      (by rw [ht]; exact h.nodup) (by rw [ht]; exact h.kern) hl.bound ?_
    · refine ⟨hl.bound, by rw [hreg]; exact hl.used, by rw [ht]; exact hl.notfree, by
        rw [hreg, hatt]; exact hl.refcnt, by rw [hshmem]; exact hl.one, ?_, ?_, ?_, ?_, ?_, ?_, ?_⟩
      · rw [hreg, hshmem]
        refine iff_of_false nofun ?_
        rintro (⟨i, hi⟩ | ⟨q, id', hq⟩)
        · exact hnames i hi
        · exact hnormid q id' hq
      · rw [hreg]
        exact fun _ => Nat.pos_of_ne_zero hpos
      · exact fun q _ id' _ hq => absurd hq (hnormid q id')
      · rw [hshmem]
        exact fun i hi => absurd hi (hnames i)
      · rw [hatt, hreg]
        exact fun q hq => .inl (hl.done hlock hq)
      · rw [hreg]
        exact hl.pgsz
      · rw [hreg]
        refine iff_of_false nofun ?_
        rintro (hk | ⟨q, id', i, n, hq⟩)
        · rw [ht] at hk
          exact hl.not_kern hlock hk
        · exact hnogrow q id' i n hq
    · by_cases hq : q = p
      · rw [hq, call_self hcall]
        trivial
      · have hself : t.call q = s.call q := by rw [hcall, update_of_ne hq]
        rw [hself] at ha ⊢
        exact (h.call q).of_same hsame (by rw [hreg]) (hl.no_grow hlock q)
          (by rw [hatt]; exact fun h => h) ha
    · rw [hreg, ht]
      rfl

/-- The entry of the table that a call was given. -/
def Call.slot : Call → Option ℕ
  | .at _ i _ => some i
  | .grow _ i _ _ => some i
  | .ctl _ _ i _ => some i
  | _ => none

/-- The identifier is removed, and no call on it sleeps. -/
theorem Inv.remove {X : Shmid} (hi : (s.shmem i).shm_reg = some r)
    (hp : s.call p = .idle) (hslot : ∀ q, (s.call q).slot ≠ some i)
    (hX : X.IPC_ALLOC = false ∧ X.shm_reg = none) :
    Inv c mem ⟨update s.shmem i X, s.region, s.rfree, s.availrmem, s.att, s.kern,
      update s.call p (.rmid id r)⟩ := by
  have hl : Live c s r := (h.region r).resolve_left fun hf => hf.shmem i hi
  have hno : (s.region r).RG_NOFREE = true := hl.nofree.mpr (.inl ⟨i, hi⟩)
  obtain ⟨t, ht⟩ : ∃ t : Sys, t = ⟨update s.shmem i X, s.region, s.rfree, s.availrmem, s.att, s.kern,
    update s.call p (.rmid id r)⟩ := ⟨_, rfl⟩
  have hcall : t.call = update s.call p (.rmid id r) := by rw [ht]
  have hself : t.call p = .rmid id r := call_self hcall
  have hne : ∀ q, q ≠ p → t.call q = s.call q := fun q hq => by rw [hcall, update_of_ne hq]
  have hshmem : t.shmem = update s.shmem i X := by rw [ht]
  have hreg : t.region = s.region := by rw [ht]
  have hother : ∀ j, j ≠ i → t.shmem j = s.shmem j := fun j hj => by
    rw [hshmem, update_of_ne hj]
  have hthis : t.shmem i = X := by rw [hshmem, update_self]
  have hnames : ∀ j, (t.shmem j).shm_reg ≠ some r := by
    intro j hj
    by_cases hji : j = i
    · rw [hji, hthis, hX.2] at hj
      cases hj
    · rw [hother j hji] at hj
      exact hji (hl.one j i hj hi)
  -- no call that was given the identifier sleeps, so none grows the region
  have hnormid : ∀ q id', s.call q ≠ .rmid id' r := fun q id' hq =>
    (hq ▸ h.call q : CallOK c s q (.rmid id' r)).2 i hi
  have hgrow : ∀ q id' j m, t.call q = .grow id' j r m ↔ s.call q = .grow id' j r m := fun q id' j m => by
    rw [hcall]
    exact update_call_iff hp nofun nofun
  have honly : Only r s t := ⟨fun _ _ => by rw [hreg], fun _ _ => by rw [ht],
    only_shmem hshmem (hi ▸ about_some r) (hX.2 ▸ about_none r), only_call hcall (hp ▸ about_none r)
    (about_some r), fun _ _ _ => by rw [ht], fun _ _ => by rw [ht], fun _ _ => by rw [ht]⟩
  rw [← ht]
  refine h.of_only honly (.inr ?_) (fun q ha => ?_) (fun j => ?_) (by rw [ht]; exact h.nodup)
    (by rw [ht]; exact h.kern) hl.bound (by rw [ht])
  · refine ⟨hl.bound, by rw [hreg]; exact hl.used, by rw [ht]; exact hl.notfree, by
      rw [ht]; exact hl.refcnt, fun j _ hj => absurd hj (hnames j), ?_, ?_, ?_,
      fun j hj => absurd hj (hnames j), ?_, by rw [hreg]; exact hl.pgsz, ?_⟩
    · rw [hreg, hno]
      exact iff_of_true rfl (.inr ⟨p, id, hself⟩)
    · rw [hreg, hno]
      nofun
    · intro q q' id1 id2 h1 h2
      have honly : ∀ x id', t.call x = .rmid id' r → x = p := by
        intro x id' hx
        by_contra hxp
        rw [hne x hxp] at hx
        exact hnormid x id' hx
      rw [honly q id1 h1, honly q' id2 h2]
    · simp only [hgrow, hreg]
      rw [ht]
      exact hl.att
    · simp only [hgrow, hreg]
      rw [ht]
      exact hl.lock
  · by_cases hq : q = p
    · rw [hq, hself]
      exact ⟨by rw [hreg]; exact hl.used, hnames⟩
    · rw [hne q hq] at ha ⊢
      have hok := h.call q
      revert hok ha
      have hsl := hslot q
      have hrm := hnormid q
      revert hsl hrm
      cases s.call q with
      | idle => exact fun _ _ _ _ => trivial
      | wait => exact fun _ _ _ h => h
      | get => exact fun _ _ _ h => h
      | «at» id' j r' =>
        intro hsl _ ha hok
        cases ha r' rfl
        cases hl.one j i hok.2 hi
        exact absurd rfl hsl
      | grow id' j r' m =>
        intro hsl _ ha hok
        cases ha r' rfl
        cases hl.one j i hok.1.2 hi
        exact absurd rfl hsl
      | rmid id' r' =>
        intro _ hrm ha _
        cases ha r' rfl
        exact absurd rfl (hrm id')
      | ctl cmd id' j r' =>
        intro hsl _ ha hok
        cases ha r' rfl
        cases hl.one j i hok.1.2 hi
        exact absurd rfl hsl
      | dt r' =>
        intro _ _ _ hok
        show (q, r') ∈ t.att
        rw [ht]
        exact hok
  · by_cases hj : j = i
    · rw [hj, hthis, hX.1, hX.2]
      exact iff_of_false nofun fun ⟨_, h⟩ => nomatch h
    · rw [hother j hj]
      exact h.alloc j

omit h in
theorem rmidLocked_setCall (s : Sys) (p r : ℕ) (y : Call) :
    (s.setCall p y).rmidLocked p r = s.rmidLocked p r := by
  have hfree : (s.setCall p y).freereg r = (s.freereg r).setCall p y := rfl
  have hset : ∀ Y : Region, (s.setCall p y).setRegion r Y = (s.setRegion r Y).setCall p y := fun _ => rfl
  unfold Sys.rmidLocked
  dsimp only
  rw [hfree, hset, setCall_setCall, setCall_setCall]
  rfl

/-! ## `shmdt` -/

theorem Inv.dtLocked (hmem : (p, r) ∈ s.att) (hlock : (s.region r).RG_LOCK = false)
    (hquiet : ∀ r, Quiet r (s.call p)) (habout : About r (s.call p).region) :
    Inv c mem (s.dtLocked c p r) := by
  have hl : Live c s r := (h.region r).resolve_left fun hf => hf.att p hmem
  have hcount := hl.count_erase hmem
  have hdone := hl.done hlock hmem
  have hpos : 0 < (s.region r).r_refcnt := by
    rw [hl.refcnt]
    exact countP_pos_iff.mpr ⟨(p, r), hmem, by simp⟩
  by_cases hlast : (s.region r).r_refcnt - 1 = 0 ∧ (s.region r).RG_NOFREE = false
  · -- nobody else has the region, and it has no name
    have hquietR := not_or.mp fun hor => Bool.false_ne_true (hlast.2.symm.trans (hl.nofree.mpr hor))
    have hnames : ∀ i, (s.shmem i).shm_reg ≠ some r := fun i hi => hquietR.1 ⟨i, hi⟩
    have hnormid : ∀ q id', s.call q ≠ .rmid id' r := fun q id' hq => hquietR.2 ⟨q, id', hq⟩
    have hnone : ∀ q, (q, r) ∉ s.att.erase (p, r) := fun q hq => by
      rw [hlast.1] at hcount
      have := countP_eq_zero.mp hcount.symm _ hq
      simp at this
    have hfind : (List.range c.shmmni).find? (fun i => (s.shmem i).shm_reg = some r) = none := by
      rw [List.find?_eq_none]
      exact fun i _ hi => hnames i (of_decide_eq_true hi)
    obtain ⟨t, ht⟩ : ∃ t : Sys, t = s.dtLocked c p r := ⟨_, rfl⟩
    have hform : t = ⟨s.shmem, update s.region r Region.zero, r :: s.rfree,
        s.availrmem + (s.region r).locked, s.att.erase (p, r), s.kern, update s.call p .idle⟩ := by
      have hdetach : s.detachreg p r = ⟨s.shmem, update s.region r Region.zero, r :: s.rfree,
          s.availrmem + (s.region r).locked, s.att.erase (p, r), s.kern, s.call⟩ := by
        unfold Sys.detachreg
        dsimp only
        rw [if_pos hlast]
        unfold Sys.freereg Sys.setRegion
        dsimp only
        rw [update_self, update_idem]
        rfl
      rw [ht]
      unfold Sys.dtLocked
      rw [hdetach]
      dsimp only
      rw [hfind]
      rfl
    have hcall : t.call = update s.call p .idle := by rw [hform]
    have hregion : t.region = update s.region r Region.zero := by rw [hform]
    have hfree : t.rfree = r :: s.rfree := by rw [hform]
    have hatt : t.att = s.att.erase (p, r) := by rw [hform]
    have honly : Only r s t := ⟨only_region hregion, fun x hx => by
      rw [hfree, mem_cons, or_iff_right hx], fun _ => .inl (by rw [hform]),
      only_call hcall habout (about_none r), fun q x hx => by rw [hatt]; exact mem_erase_att hx,
      fun x hx => by rw [hatt]; exact count_erase_att hx, fun _ _ => by rw [hform]⟩
    rw [← ht]
    refine h.freereg hl honly (by rw [hregion, update_self]) hfree (by rw [hform]) hnames
      (fun q ha => ?_) (by rw [hatt]; exact hnone) (by rw [hform]) (hl.not_kern hlock) (by rw [hform])
    by_cases hq : q = p
    · rw [hq, hcall, update_self]
    · have hsame : t.call q = s.call q := by rw [hcall, update_of_ne hq]
      rw [hsame] at ha ⊢
      exact (h.call q).idle ha hnames (fun hqr => hnone q (mem_erase_of_other hq hqr)) (hnormid q)
  · obtain ⟨shmem, hform, hshmem⟩ : ∃ shmem, s.dtLocked c p r = ⟨shmem, update s.region r
        { s.region r with r_refcnt := (s.region r).r_refcnt - 1, RG_LOCK := false }, s.rfree, s.availrmem,
        s.att.erase (p, r), s.kern, update s.call p .idle⟩ ∧ (shmem = s.shmem ∨ ∃ i,
          (s.shmem i).shm_reg = some r ∧ shmem = update s.shmem i { s.shmem i with shm_lpid := p }) := by
      unfold Sys.dtLocked
      rw [detachreg_keep hlast]
      dsimp only
      cases hfind : (List.range c.shmmni).find? fun i => (s.shmem i).shm_reg = some r with
      | none => exact ⟨s.shmem, rfl, .inl rfl⟩
      | some i =>
        have hi := List.find?_some hfind
        exact ⟨_, rfl, .inr ⟨i, by simpa using hi, rfl⟩⟩
    have hsame : ∀ j, shmem j = s.shmem j ∨ (s.shmem j).shm_reg = some r ∧
        (shmem j).IPC_ALLOC = (s.shmem j).IPC_ALLOC ∧ (shmem j).seq = (s.shmem j).seq ∧
        (shmem j).shm_reg = (s.shmem j).shm_reg := by
      rcases hshmem with rfl | ⟨i, hi, rfl⟩
      · exact fun _ => .inl rfl
      · exact shmem_upd (t := { s with shmem := _ }) rfl hi ⟨rfl, rfl, rfl⟩
    have hinit : ∀ j, (shmem j).SHM_INIT = (s.shmem j).SHM_INIT := by
      rcases hshmem with rfl | ⟨i, _, rfl⟩
      · exact fun _ => rfl
      · exact (forall_update_iff s.shmem fun j X => X.SHM_INIT = (s.shmem j).SHM_INIT).mpr
          ⟨rfl, fun _ _ => rfl⟩
    rw [hform]
    refine h.change hl rfl rfl hsame (moves_of rfl trivial habout (about_none r)
      (fun id' => ⟨(hquiet r).1 id', nofun⟩) (fun q _ => hl.no_grow hlock q)
      fun q hq hqr => mem_erase_of_other hq hqr) (fun _ _ => mem_erase_att) (fun _ => count_erase_att)
      h.kern (fun _ _ => .rfl) rfl rfl hcount (fun hno => Nat.pos_of_ne_zero fun hz => hlast ⟨hz, hno⟩)
      (fun j hj => ?_) (fun _ _ => .inl hdone) hl.pgsz (unlocked rfl rfl (hl.not_kern hlock)) rfl
    rcases hl.ready' hlock hj with hr | hr
    · omega
    · exact .inr ⟨(hinit j).trans hr.1, .inl hr.2⟩

/-! ## `shmget` -/

theorem Inv.shmget {size : ℕ} {phys : Bool} (hp : s.call p = .idle)
    (ht : s.shmget c p size phys = some t) : Inv c mem t := by
  unfold Sys.shmget at ht
  split at ht
  next i r rest hfind hfree =>
    have halloc : (s.shmem i).IPC_ALLOC = false := by simpa using List.find?_some hfind
    have hnone : (s.shmem i).shm_reg = none := by
      cases hreg : (s.shmem i).shm_reg with
      | none => rfl
      | some x =>
        have := (h.alloc i).mpr ⟨x, hreg⟩
        rw [halloc] at this
        cases this
    have hnd := h.nodup
    rw [hfree] at hnd
    obtain ⟨hr, hnd'⟩ := nodup_cons.mp hnd
    have hmem : r ∈ s.rfree := by rw [hfree]; exact mem_cons_self
    have hf : Free c s r := (h.region r).resolve_right fun hl => hl.notfree hmem
    have hlock : (s.region r).RG_LOCK = false := by rw [hf.zero]; rfl
    dsimp only at ht
    rw [hlock, if_neg nofun] at ht
    have hform : t = ⟨update s.shmem i ⟨true, true, (s.shmem i).seq, size, some r, 0⟩,
        update s.region r ⟨if phys then .RT_PHMEM else .RT_SHMEM, false, false, true, 0, 0,
          if phys then 1 else 0⟩, rest, s.availrmem, s.att, s.kern, update s.call p .idle⟩ := by
      rw [← Option.some.inj ht]
      unfold Sys.getLocked Sys.setRegion Sys.setShmid Sys.setCall
      dsimp only
      rw [update_self, update_self, update_idem, update_idem, hf.zero]
      unfold Region.zero
      dsimp only
      rw [Nat.zero_add]
    have hcall : t.call = update s.call p .idle := by rw [hform]
    have hshmem : t.shmem = update s.shmem i ⟨true, true, (s.shmem i).seq, size, some r, 0⟩ := by rw [hform]
    have hregion : t.region = update s.region r ⟨if phys then .RT_PHMEM else .RT_SHMEM, false, false, true,
      0, 0, if phys then 1 else 0⟩ := by rw [hform]
    have hreg : t.region r = ⟨if phys then .RT_PHMEM else .RT_SHMEM, false, false, true, 0, 0,
        if phys then 1 else 0⟩ := by rw [hregion, update_self]
    have htfree : t.rfree = rest := by rw [hform]
    have hatt : t.att = s.att := by rw [hform]
    have hk : t.kern = s.kern := by rw [hform]
    have hthis : t.shmem i = ⟨true, true, (s.shmem i).seq, size, some r, 0⟩ := by
      rw [hshmem, update_self]
    have hother : ∀ j, j ≠ i → t.shmem j = s.shmem j := fun j hj => by
      rw [hshmem, update_of_ne hj]
    have hname : ∀ j, (t.shmem j).shm_reg = some r → j = i := by
      intro j hj
      by_contra hne
      rw [hother j hne] at hj
      exact hf.shmem j hj
    have hcallr : ∀ q, (t.call q).region ≠ some r := by
      intro q
      rw [hcall]
      rw [update_apply]
      split_ifs with hq
      · nofun
      · exact hf.call q
    have honly : Only r s t := ⟨only_region hregion, fun x hx => by
      rw [htfree, hfree, mem_cons, or_iff_right hx], only_shmem hshmem (hnone ▸ about_none r) (about_some r),
      only_call hcall (hp ▸ about_none r) (about_none r), fun _ _ _ => by rw [hatt],
      fun _ _ => by rw [hatt], fun _ _ => by rw [hk]⟩
    refine h.of_only honly (.inr ?_) (fun q ha => ?_) (fun j => ?_) (by rw [htfree]; exact hnd')
      (by rw [hk]; exact h.kern) (hf.rfree.mp hmem) ?_
    · refine ⟨hf.rfree.mp hmem, ?_, by rw [htfree]; exact hr, ?_, fun j j' hj hj' => by
        rw [hname j hj, hname j' hj'], ?_, ?_, fun q _ id' _ hq => absurd (hq ▸ rfl) (hcallr q), ?_, ?_, ?_, ?_⟩
      · rw [hreg]
        cases phys <;> nofun
      · rw [hreg, hatt]
        refine (countP_eq_zero.mpr fun x hx hxr => ?_).symm
        obtain ⟨q, y⟩ := x
        cases of_decide_eq_true hxr
        exact hf.att q hx
      · rw [hreg]
        exact iff_of_true rfl (.inl ⟨i, by rw [hthis]⟩)
      · rw [hreg]
        nofun
      · intro j hj
        rw [hname j hj, hthis, hreg]
        exact .inl ⟨rfl, rfl, rfl⟩
      · rw [hatt]
        exact fun q hq => absurd hq (hf.att q)
      · rw [hreg]
        exact fun _ => rfl
      · rw [hreg, hk]
        refine iff_of_false nofun ?_
        rintro (hkern | ⟨q, id', j, n, hq⟩)
        · exact hf.kern hkern
        · exact hcallr q (by rw [hq]; rfl)
    · have hno : (t.call q).region = none := by
        cases hreg' : (t.call q).region with
        | none => rfl
        | some x =>
          rw [hreg'] at ha
          cases ha x rfl
          exact absurd hreg' (hcallr q)
      have hok : t.call q = .idle ∨ t.call q = s.call q := by
        rw [hcall]
        by_cases hq : q = p
        · rw [hq, update_self]
          exact .inl rfl
        · exact .inr (update_of_ne hq _ _)
      rcases hok with hok | hok
      · rw [hok]
        trivial
      · have hs := h.call q
        rw [hok] at hno ⊢
        revert hno hs
        cases s.call q with
        | idle => exact fun _ _ => trivial
        | wait => exact fun _ h => h
        | _ => exact fun hno _ => nomatch hno
    · by_cases hj : j = i
      · rw [hj, hthis]
        exact iff_of_true rfl ⟨r, rfl⟩
      · rw [hother j hj]
        exact h.alloc j
    · rw [hreg, hf.zero, hform]
      unfold Region.locked
      simp [Region.zero]
  next => cases ht

/-! ## Other parts of the kernel -/

theorem Inv.lockRegion (hused : (s.region r).r_type ≠ .none)
    (hlock : (s.region r).RG_LOCK = false) :
    Inv c mem { s.setRegion r { s.region r with RG_LOCK := true } with kern := r :: s.kern } := by
  have hl : Live c s r := (h.region r).resolve_left fun hf => hused (by rw [hf.zero]; rfl)
  exact h.change (p := 0) hl rfl rfl (fun _ => .inl rfl) (fun q => .inl ⟨rfl, hl.no_grow hlock q, fun h => h⟩)
    (fun _ _ _ => .rfl) (fun _ _ => rfl) (nodup_cons.mpr ⟨hl.not_kern hlock, h.kern⟩)
    (fun x hx => by rw [mem_cons, or_iff_right hx]) rfl rfl hl.refcnt hl.kept hl.ready hl.att hl.pgsz
    (iff_of_true rfl (.inl mem_cons_self)) rfl

theorem Inv.unlockRegion (hmem : r ∈ s.kern) :
    Inv c mem { s.regrele r with kern := s.kern.erase r } := by
  have hl : Live c s r := (h.region r).resolve_left fun hf => hf.kern hmem
  have hnogrow : ∀ q id i n, s.call q ≠ .grow id i r n := by
    intro q id i n hg
    obtain ⟨-, -, -, -, -, hk⟩ := (hg ▸ h.call q : CallOK c s q (.grow id i r n))
    exact hk hmem
  refine h.change (p := 0) hl rfl rfl (fun _ => .inl rfl) (fun q => .inl ⟨rfl, hnogrow q, fun h => h⟩)
    (fun _ _ _ => .rfl) (fun _ _ => rfl) (h.kern.erase r) (fun x hx => mem_erase_of_ne hx) rfl rfl
    hl.refcnt hl.kept hl.ready hl.att hl.pgsz (iff_of_false nofun ?_) rfl
  rintro (hkern | ⟨id, i, n, hq⟩)
  · exact h.kern.not_mem_erase hkern
  · exact hnogrow 0 id i n hq

end

end Io.Shm
