import OpusSysV.Io.ShmSegs

/-!
# How long a segment lives

* `Plain` — a step that neither grows a region nor takes one from the list of free regions.
* `takes`, `Right`, `RightStep` — what is asked of a state, and of a step.
* `shm_run` — **what holds in every run** in which no identifier is removed while a call on it sleeps.
* `stale_run` — a run that removes an identifier at the wrong time.
-/

namespace Io.Shm

open Function List Option
open Lib

variable {c : Tune} {s t u : Sys} {p q r i j n : ℕ} {id : ℤ} {mem : ℤ} {a : Answers} {e : Event}
  {ex : ℕ → Prop}

/-! ## Steps that are plain -/

/-- The region has the size that it had. -/
def Region.SameSize (x y : Region) : Prop := y.RG_DONE = x.RG_DONE ∧ y.r_pgsz = x.r_pgsz

/-- What most of the code does; `ex` are the regions that it may attach, and whose locks it may count. -/
structure Plain (ex : ℕ → Prop) (s t : Sys) : Prop where
  rfree : ∀ r ∈ s.rfree, r ∈ t.rfree
  size : ∀ r, r ∈ t.rfree ∨ (s.region r).SameSize (t.region r)
  att : ∀ p r, ¬ ex r → t.att.count (p, r) ≤ s.att.count (p, r)
  locks : ∀ r, ¬ ex r → r ∈ t.rfree ∨ (t.region r).r_noswapcnt = (s.region r).r_noswapcnt

namespace Plain

theorem refl (ex : ℕ → Prop) (s : Sys) : Plain ex s s :=
  ⟨fun _ h => h, fun _ => .inr ⟨rfl, rfl⟩, fun _ _ _ => le_rfl, fun _ _ => .inr rfl⟩

theorem trans (h1 : Plain ex s t) (h2 : Plain ex t u) : Plain ex s u where
  rfree r hr := h2.rfree r (h1.rfree r hr)
  size r := by
    rcases h2.size r with hu | hu
    · exact .inl hu
    · rcases h1.size r with ht | ht
      · exact .inl (h2.rfree r ht)
      · exact .inr ⟨hu.1.trans ht.1, hu.2.trans ht.2⟩
  att p r hr := (h2.att p r hr).trans (h1.att p r hr)
  locks r hr := by
    rcases h2.locks r hr with hu | hu
    · exact .inl hu
    · rcases h1.locks r hr with ht | ht
      · exact .inl (h2.rfree r ht)
      · exact .inr (hu.trans ht)

theorem mono {ex' : ℕ → Prop} (h : Plain ex s t) (hex : ∀ r, ex r → ex' r) : Plain ex' s t :=
  ⟨h.rfree, h.size, fun p r hr => h.att p r fun hx => hr (hex r hx),
    fun r hr => h.locks r fun hx => hr (hex r hx)⟩

/-- Only one region changes, and keeps its size. -/
theorem region {Y : Region} (hreg : t.region = update s.region r Y) (hY : (s.region r).SameSize Y)
    (hlocks : ex r ∨ Y.r_noswapcnt = (s.region r).r_noswapcnt) (hfree : t.rfree = s.rfree)
    (hatt : ∀ p x, ¬ ex x → t.att.count (p, x) ≤ s.att.count (p, x)) : Plain ex s t := by
  refine ⟨fun x hx => hfree ▸ hx, fun x => .inr ?_, hatt, fun x hx => .inr ?_⟩
  · rw [hreg]
    rw [update_apply]
    split_ifs with h
    · rw [h]
      exact hY
    · exact ⟨rfl, rfl⟩
  · rw [hreg]
    rw [update_apply]
    split_ifs with h
    · subst h
      exact hlocks.resolve_left hx
    · rfl

theorem setCall (y : Call) : Plain ex s (s.setCall p y) :=
  ⟨fun _ h => h, fun _ => .inr ⟨rfl, rfl⟩, fun _ _ _ => le_rfl, fun _ _ => .inr rfl⟩

theorem setShmid (X : Shmid) : Plain ex s (s.setShmid i X) :=
  ⟨fun _ h => h, fun _ => .inr ⟨rfl, rfl⟩, fun _ _ _ => le_rfl, fun _ _ => .inr rfl⟩

theorem freereg : Plain ex s (s.freereg r) := by
  have hother : ∀ x, x ∈ (s.freereg r).rfree ∨ (s.freereg r).region x = s.region x := by
    intro x
    by_cases h : x = r
    · exact .inl (h ▸ mem_cons_self)
    · exact .inr (update_of_ne h _ _)
  exact ⟨fun x hx => mem_cons_of_mem r hx, fun x => (hother x).imp_right fun h => by rw [h]; exact ⟨rfl, rfl⟩,
    fun _ _ _ => le_rfl, fun x _ => (hother x).imp_right fun h => by rw [h]⟩

theorem regrele : Plain ex s (s.regrele r) :=
  region rfl ⟨rfl, rfl⟩ (.inr rfl) rfl fun _ _ _ => le_rfl

theorem detachreg : Plain ex s (s.detachreg p r) := by
  have hfirst : Plain ex s { s.setRegion r { s.region r with r_refcnt := (s.region r).r_refcnt - 1 } with
      att := s.att.erase (p, r) } :=
    region rfl ⟨rfl, rfl⟩ (.inr rfl) rfl fun q x _ => List.Sublist.count_le _ erase_sublist
  unfold Sys.detachreg
  dsimp only
  split
  · exact hfirst.trans freereg
  · exact hfirst.trans regrele

theorem growFailed : Plain ex s (s.growFailed p i r) :=
  (setShmid _).trans (detachreg.trans (setCall _))

theorem rmidLocked : Plain ex s (s.rmidLocked p r) := by
  have hset : Plain ex s (s.setRegion r { s.region r with RG_NOFREE := false, RG_LOCK := false }) :=
    region rfl ⟨rfl, rfl⟩ (.inr rfl) rfl fun _ _ _ => le_rfl
  unfold Sys.rmidLocked
  dsimp only
  split
  · exact freereg.trans (setCall _)
  · exact hset.trans (setCall _)

theorem dtLocked : Plain ex s (s.dtLocked c p r) := by
  unfold Sys.dtLocked
  dsimp only
  split
  · exact detachreg.trans (setCall _)
  · exact detachreg.trans ((setShmid _).trans (setCall _))

theorem ctlLocked {cmd : Cmd} : Plain (· = r) s (s.ctlLocked c p r cmd) := by
  have hcount : ∀ (av : ℤ) (m : ℕ), Plain (· = r) s
      ({ s with availrmem := av }.setRegion r { s.region r with r_noswapcnt := m }) := fun av m =>
    region rfl ⟨rfl, rfl⟩ (.inl rfl) rfl fun _ _ _ => le_rfl
  unfold Sys.ctlLocked
  cases cmd with
  | SHM_LOCK =>
    dsimp only
    split
    · exact setCall _
    · exact (hcount _ _).trans (setCall _)
  | SHM_UNLOCK => exact (hcount _ _).trans (setCall _)

theorem atLocked : Plain (· = r) s (s.atLocked c p id i r a) := by
  have hattach : Plain (· = r) s ({ s with att := (p, r) :: s.att }.setRegion r
      { s.region r with RG_LOCK := true, r_refcnt := (s.region r).r_refcnt + 1 }) := by
    refine region rfl ⟨rfl, rfl⟩ (.inr rfl) rfl fun q x hx => ?_
    exact (count_cons_of_ne fun h => hx (congrArg Prod.snd h).symm).le
  unfold Sys.atLocked
  dsimp only
  split
  · exact setCall _
  split
  · exact setCall _
  split
  · exact setCall _
  split
  · split
    · exact hattach.trans ((setShmid _).trans growFailed)
    · exact hattach.trans ((setShmid _).trans (setCall _))
  · exact hattach.trans (regrele.trans ((setShmid _).trans (setCall _)))

end Plain

/-! ## What is asked -/

/-- The region that an identifier names. -/
def Sys.named (c : Tune) (s : Sys) (id : ℤ) : Option ℕ :=
  (s.shmconv c id).bind fun i => (s.shmem i).shm_reg

/-- The identifier that a call was given, and the region whose lock it gets in this step, to attach it or
to count its locks. -/
def takes (c : Tune) (s : Sys) : Event → Option (ℤ × ℕ)
  | .shmat _ id _ => (s.named c id).map fun r => (id, r)
  | .shmctl _ id _ => (s.named c id).map fun r => (id, r)
  | .resume p _ =>
    match s.call p with
    | .at id _ r => some (id, r)
    | .wait id => (s.named c id).map fun r => (id, r)
    | .ctl _ id _ r => some (id, r)
    | _ => none
  | _ => none

/-- The identifier of a call that is removed, or is being removed. -/
def removed (c : Tune) (s : Sys) : Event → Bool
  | .shmat _ id _ => (s.shmconv c id).isNone
  | .rmid _ id => (s.shmconv c id).isNone
  | .shmctl _ id _ => (s.shmconv c id).isNone
  | .resume p _ =>
    match s.call p with
    | .at id _ _ => (s.shmconv c id).isNone
    | .wait id => (s.shmconv c id).isNone
    | .rmid _ _ => true
    | .ctl _ id _ _ => (s.shmconv c id).isNone
    | _ => false
  | .grown p _ =>
    match s.call p with
    | .grow id _ _ _ => (s.shmconv c id).isNone
    | _ => false
  | _ => false

/-- What is asked of a state. -/
structure Right (c : Tune) (mem : ℤ) (s : Sys) : Prop where
  free : ∀ r ∈ s.rfree, s.region r = Region.zero ∧ (∀ i, (s.shmem i).shm_reg ≠ some r) ∧
    ∀ p, (p, r) ∉ s.att
  once : s.rfree.Nodup
  needed : ∀ r < c.v_region, r ∉ s.rfree → (∃ i, (s.shmem i).IPC_ALLOC = true ∧ (s.shmem i).shm_reg = some r) ∨
    (∃ p, (p, r) ∈ s.att) ∨ ∃ p id, s.call p = .rmid id r
  grown : ∀ p r, (p, r) ∈ s.att → (s.region r).RG_DONE = true ∨ ∃ id i n, s.call p = .grow id i r n
  locked : s.availrmem = mem - lockedPages c s

/-- What is asked of a step. -/
structure RightStep (c : Tune) (s : Sys) (e : Event) (t : Sys) : Prop where
  taken : ∀ id r, takes c s e = some (id, r) → (∃ i, Names c s id i r) ∧ r < c.v_region ∧ r ∉ s.rfree
  attached : ∀ p r, s.att.count (p, r) < t.att.count (p, r) → ∃ id, takes c s e = some (id, r)
  counted : ∀ r, (t.region r).r_noswapcnt ≠ (s.region r).r_noswapcnt →
    r ∈ s.rfree ∨ r ∈ t.rfree ∨ ∃ id, takes c s e = some (id, r)
  size : ∀ r, r ∈ t.rfree ∨ (s.region r).SameSize (t.region r) ∨
    (s.region r).RG_DONE = false ∧ (s.region r).r_pgsz = 0 ∧ (t.region r).RG_DONE = true ∧
      ∃ p id i, s.call p = .grow id i r (t.region r).r_pgsz
  removed : removed c s e = true → t.shmem = s.shmem ∧ ∀ r i, (s.shmem i).shm_reg = some r →
    t.region r = s.region r ∧ ∀ p, (p, r) ∈ t.att ↔ (p, r) ∈ s.att

theorem Inv.right (h : Inv c mem s) : Right c mem s := by
  refine ⟨fun r hr => ?_, h.nodup, fun r hlt hr => ?_, fun p r hp => ?_, ?_⟩
  · rcases h.region r with hf | hl
    · exact ⟨hf.zero, hf.shmem, hf.att⟩
    · exact absurd hr hl.notfree
  · rcases h.region r with hf | hl
    · exact absurd (hf.rfree.mpr hlt) hr
    · by_cases hno : (s.region r).RG_NOFREE = true
      · rcases hl.nofree.mp hno with ⟨i, hi⟩ | hrm
        · exact .inl ⟨i, (h.alloc i).mpr ⟨r, hi⟩, hi⟩
        · exact .inr (.inr hrm)
      · have hpos := hl.kept (Bool.eq_false_iff.mpr hno)
        rw [hl.refcnt] at hpos
        obtain ⟨⟨p, x⟩, hmem, hx⟩ := countP_pos_iff.mp hpos
        cases of_decide_eq_true hx
        exact .inr (.inl ⟨p, hmem⟩)
  · rcases h.region r with hf | hl
    · exact absurd hp (hf.att p)
    · exact hl.att p hp
  · have := h.avail
    omega

/-! ## Each step -/

theorem named_eq (hi : s.shmconv c id = some i) (hr : (s.shmem i).shm_reg = some r) :
    s.named c id = some r := by
  unfold Sys.named
  rw [hi]
  exact hr

theorem names_of_named (h : s.named c id = some r) : ∃ i, Names c s id i r :=
  bind_eq_some_iff.mp h

theorem Plain.shmat (ht : s.shmat c p id a = some t) (hex : ∀ r, s.named c id = some r → ex r) :
    Plain ex s t := by
  unfold Sys.shmat at ht
  split at ht
  · cases ht
    exact setCall _
  next i hi =>
    split at ht
    · cases ht
      exact setCall _
    split at ht
    · cases ht
    next r hr =>
      split at ht <;> cases ht
      · exact setCall _
      · exact atLocked.mono fun x hx => hx ▸ hex r (named_eq hi hr)

theorem Plain.rmid (ht : s.rmid c p id = some t) : Plain ex s t := by
  unfold Sys.rmid at ht
  split at ht
  · cases ht
    exact refl ex s
  · split at ht
    · cases ht
    · dsimp only at ht
      split at ht <;> cases ht
      · exact (setShmid _).trans (setCall _)
      · exact (setShmid _).trans rmidLocked

theorem Plain.shmctl {cmd : Cmd} (ht : s.shmctl c p id cmd = some t)
    (hex : ∀ r, s.named c id = some r → ex r) : Plain ex s t := by
  unfold Sys.shmctl at ht
  split at ht
  · cases ht
    exact refl ex s
  next i hi =>
    split at ht
    · cases ht
    next r hr =>
      split at ht
      · cases ht
        exact refl ex s
      split at ht <;> cases ht
      · exact setCall _
      · exact ctlLocked.mono fun x hx => hx ▸ hex r (named_eq hi hr)

theorem Plain.shmdt (ht : s.shmdt c p r = some t) : Plain ex s t := by
  unfold Sys.shmdt at ht
  split at ht
  · split at ht <;> cases ht
    · exact setCall _
    · exact dtLocked
  · cases ht

/-- `resume`, of a call that is not in `allocreg`. -/
theorem Plain.resume (hget : ∀ i r n phys, s.call p ≠ .get i r n phys) (ht : s.resume c p a = some t)
    (hex : ∀ id r, takes c s (.resume p a) = some (id, r) → ex r) : Plain ex s t := by
  unfold takes at hex
  dsimp only at hex
  unfold Sys.resume at ht
  revert hget hex ht
  cases s.call p with
  | idle => exact fun _ ht => nomatch ht
  | get i r n phys => exact fun hget => absurd rfl (hget i r n phys)
  | «at» id i r =>
    intro _ ht hex
    dsimp only at ht
    split at ht <;> cases ht
    exact atLocked.mono fun x hx => hx ▸ hex id r rfl
  | grow => exact fun _ ht => nomatch ht
  | wait id =>
    intro _ ht hex
    exact shmat ht fun r hr => hex id r (congrArg (Option.map fun r => (id, r)) hr)
  | rmid id r =>
    intro _ ht _
    dsimp only at ht
    split at ht <;> cases ht
    exact rmidLocked
  | ctl cmd id i r =>
    intro _ ht hex
    dsimp only at ht
    split at ht <;> cases ht
    exact ctlLocked.mono fun x hx => hx ▸ hex id r rfl
  | dt r =>
    intro _ ht _
    dsimp only at ht
    split at ht <;> cases ht
    exact dtLocked

theorem RightStep.of_plain (htaken : ∀ id r, takes c s e = some (id, r) →
    (∃ i, Names c s id i r) ∧ r < c.v_region ∧ r ∉ s.rfree)
    (hplain : Plain (fun r => ∃ id, takes c s e = some (id, r)) s t)
    (hremoved : Shm.removed c s e = true → t.shmem = s.shmem ∧ ∀ r i, (s.shmem i).shm_reg = some r →
      t.region r = s.region r ∧ ∀ p, (p, r) ∈ t.att ↔ (p, r) ∈ s.att) : RightStep c s e t where
  taken := htaken
  attached p r hlt := by
    by_contra hr
    exact absurd hlt (hplain.att p r hr).not_gt
  counted r hne := by
    by_contra hr
    push Not at hr
    rcases hplain.locks r (fun ⟨id, h⟩ => hr.2.2 id h) with h | h
    · exact hr.2.1 h
    · exact hne h
  size r := (hplain.size r).imp_right .inl
  removed := hremoved

/-- What a call gets. -/
theorem Inv.taken (h : Inv c mem s) (ht : takes c s e = some (id, r)) :
    (∃ i, Names c s id i r) ∧ r < c.v_region ∧ r ∉ s.rfree := by
  have hkey : (∃ i, Names c s id i r) → (∃ i, Names c s id i r) ∧ r < c.v_region ∧ r ∉ s.rfree := by
    rintro ⟨i, hn⟩
    exact ⟨⟨i, hn⟩, (hn.live h).bound, (hn.live h).notfree⟩
  have hnamed : ∀ id', (s.named c id').map (fun r => (id', r)) = some (id, r) → ∃ i, Names c s id i r := by
    intro id' hm
    obtain ⟨r', hr, heq⟩ := map_eq_some_iff.mp hm
    cases heq
    exact names_of_named hr
  refine hkey ?_
  unfold takes at ht
  cases e with
  | shmat p id' a => exact hnamed id' ht
  | shmctl p id' cmd => exact hnamed id' ht
  | resume p a =>
    have hok := h.call p
    dsimp only at ht
    revert ht hok
    cases s.call p with
    | «at» id' i r' =>
      intro ht hok
      cases ht
      exact ⟨i, hok⟩
    | wait => exact fun _ hok => hok.elim
    | ctl cmd id' i r' =>
      intro ht hok
      cases ht
      exact ⟨i, hok.1⟩
    | _ => exact nofun
  | _ => cases ht

theorem isNone_of_names (hn : Names c s id i r) : (s.shmconv c id).isNone = false := by
  rw [hn.1]
  rfl

/-- A call that was given a removed identifier, or removes its own, leaves the segments alone. -/
theorem Inv.removed (h : Inv c mem s) (hr : Shm.removed c s e = true) (ht : Shm.step c s e = some t) :
    t.shmem = s.shmem ∧ ∀ r i, (s.shmem i).shm_reg = some r →
      t.region r = s.region r ∧ ∀ p, (p, r) ∈ t.att ↔ (p, r) ∈ s.att := by
  have hsame : ∀ p, (s.setCall p .idle).shmem = s.shmem ∧ ∀ r i, (s.shmem i).shm_reg = some r →
      (s.setCall p .idle).region r = s.region r ∧ ∀ q, (q, r) ∈ (s.setCall p .idle).att ↔ (q, r) ∈ s.att :=
    fun _ => ⟨rfl, fun _ _ _ => ⟨rfl, fun _ => .rfl⟩⟩
  unfold Shm.removed at hr
  cases e with
  | shmat p id a =>
    obtain ⟨-, ht⟩ := (ite_none_right_eq_some).mp ht
    unfold Sys.shmat at ht
    rw [isNone_iff_eq_none.mp hr] at ht
    cases ht
    exact hsame p
  | rmid p id =>
    obtain ⟨-, ht⟩ := (ite_none_right_eq_some).mp ht
    unfold Sys.rmid at ht
    rw [isNone_iff_eq_none.mp hr] at ht
    cases ht
    exact ⟨rfl, fun _ _ _ => ⟨rfl, fun _ => .rfl⟩⟩
  | shmctl p id cmd =>
    obtain ⟨-, ht⟩ := (ite_none_right_eq_some).mp ht
    unfold Sys.shmctl at ht
    rw [isNone_iff_eq_none.mp hr] at ht
    cases ht
    exact ⟨rfl, fun _ _ _ => ⟨rfl, fun _ => .rfl⟩⟩
  | resume p a =>
    have hok := h.call p
    change s.resume c p a = some t at ht
    unfold Sys.resume at ht
    dsimp only at hr
    cases hp : s.call p with
    | «at» id i r =>
      rw [hp] at hr hok
      dsimp only at hr
      rw [isNone_of_names hok] at hr
      cases hr
    | wait =>
      rw [hp] at hok
      exact hok.elim
    | ctl cmd id i r =>
      rw [hp] at hr hok
      dsimp only at hr
      rw [isNone_of_names hok.1] at hr
      cases hr
    | rmid id r =>
      rw [hp] at ht hok
      dsimp only at ht
      split at ht <;> cases ht
      obtain ⟨-, hnames⟩ := hok
      have hne : ∀ x i, (s.shmem i).shm_reg = some x → x ≠ r := fun x i hx hxr => hnames i (hxr ▸ hx)
      unfold Sys.rmidLocked
      dsimp only
      split
      · exact ⟨rfl, fun x i hx => ⟨update_of_ne (hne x i hx) _ _, fun _ => .rfl⟩⟩
      · exact ⟨rfl, fun x i hx => ⟨update_of_ne (hne x i hx) _ _, fun _ => .rfl⟩⟩
    | _ =>
      rw [hp] at hr
      cases hr
  | grown p ok =>
    have hok := h.call p
    dsimp only at hr
    cases hp : s.call p with
    | grow id i r n =>
      rw [hp] at hr hok
      dsimp only at hr
      rw [isNone_of_names hok.1] at hr
      cases hr
    | _ =>
      rw [hp] at hr
      cases hr
  | _ => cases hr

/-- `shmget` takes a free region, which keeps its size. -/
theorem shmget_region {size : ℕ} {phys : Bool} (ht : s.shmget c p size phys = some t) :
    t.att = s.att ∧ ∃ r ∈ s.rfree, (s.region r).SameSize (t.region r) ∧
      ∀ x, x ≠ r → t.region x = s.region x := by
  unfold Sys.shmget at ht
  split at ht
  next i r rest hfind hfree =>
    dsimp only at ht
    have hmem : r ∈ s.rfree := hfree ▸ mem_cons_self
    split at ht <;> cases ht
    · refine ⟨rfl, r, hmem, ?_, fun x hx => update_of_ne hx _ _⟩
      unfold Sys.setCall Sys.setRegion
      dsimp only
      rw [update_self]
      exact ⟨rfl, rfl⟩
    · refine ⟨rfl, r, hmem, ?_, fun x hx => ?_⟩
      · unfold Sys.getLocked Sys.setCall Sys.setRegion Sys.setShmid
        dsimp only
        rw [update_self, update_self]
        exact ⟨rfl, rfl⟩
      · exact (update_of_ne hx _ _).trans (update_of_ne hx _ _)
  next => cases ht

theorem RightStep.shmget {size : ℕ} {phys : Bool} (ht : s.shmget c p size phys = some t) :
    RightStep c s (.shmget p size phys) t := by
  obtain ⟨hatt, r, hr, hsize, hother⟩ := shmget_region ht
  refine ⟨nofun, fun q x hlt => ?_, fun x hne => ?_, fun x => .inr (.inl ?_), nofun⟩
  · rw [hatt] at hlt
    exact absurd hlt (lt_irrefl _)
  · by_cases hx : x = r
    · exact .inl (hx ▸ hr)
    · exact absurd (congrArg Region.r_noswapcnt (hother x hx)) hne
  · by_cases hx : x = r
    · rw [hx]
      exact hsize
    · rw [hother x hx]
      exact ⟨rfl, rfl⟩

theorem Inv.rightStep_grown (h : Inv c mem s) (hp : s.call p = .grow id i r n) :
    RightStep c s (.grown p true) (s.growreg p i r n true) := by
  obtain ⟨hn, -, hdone, -⟩ := hp ▸ h.call p
  have hpgsz := (hn.live h).pgsz hdone
  have hregion : (s.growreg p i r n true).region = update s.region r { s.region r with
    r_pgsz := (s.region r).r_pgsz + n, RG_DONE := true, RG_LOCK := false } := rfl
  refine ⟨nofun, fun q x hlt => absurd hlt (lt_irrefl _), fun x hne => ?_, fun x => ?_, fun hr => ?_⟩
  · refine absurd ?_ hne
    rw [hregion]
    rw [update_apply]
    split_ifs with hx
    · rw [hx]
    · rfl
  · rw [hregion]
    rw [update_apply]
    split_ifs with hx
    · rw [hx, hpgsz, Nat.zero_add]
      exact .inr (.inr ⟨hdone, rfl, rfl, p, id, i, hp⟩)
    · exact .inr (.inl ⟨rfl, rfl⟩)
  · unfold Shm.removed at hr
    dsimp only at hr
    rw [hp] at hr
    dsimp only at hr
    rw [isNone_of_names hn] at hr
    cases hr

theorem Inv.rightStep (h : Inv c mem s) (ht : Shm.step c s e = some t) : RightStep c s e t := by
  have hplain : Plain (fun r => ∃ id, takes c s e = some (id, r)) s t → RightStep c s e t := fun hpl =>
    .of_plain (fun id r hr => h.taken hr) hpl fun hr => h.removed hr ht
  cases e with
  | shmget p size phys =>
    obtain ⟨-, ht⟩ := (ite_none_right_eq_some).mp ht
    exact .shmget ht
  | shmat p id a =>
    obtain ⟨-, ht⟩ := (ite_none_right_eq_some).mp ht
    exact hplain (.shmat ht fun r hr => ⟨id, congrArg (Option.map fun r => (id, r)) hr⟩)
  | rmid p id =>
    obtain ⟨-, ht⟩ := (ite_none_right_eq_some).mp ht
    exact hplain (.rmid ht)
  | shmctl p id cmd =>
    obtain ⟨-, ht⟩ := (ite_none_right_eq_some).mp ht
    exact hplain (.shmctl ht fun r hr => ⟨id, congrArg (Option.map fun r => (id, r)) hr⟩)
  | shmdt p r =>
    obtain ⟨-, ht⟩ := (ite_none_right_eq_some).mp ht
    exact hplain (.shmdt ht)
  | resume p a =>
    refine hplain (.resume (fun i r n phys hp => ?_) ht fun id r hr => ⟨id, hr⟩)
    exact (hp ▸ h.call p : CallOK c s p (.get i r n phys))
  | grown p ok =>
    unfold Shm.step at ht
    dsimp only at ht
    cases hp : s.call p with
    | grow id i r n =>
      rw [hp] at ht
      cases ht
      cases ok with
      | true => exact h.rightStep_grown hp
      | false => exact hplain .growFailed
    | _ =>
      rw [hp] at ht
      cases ht
  | lock r =>
    obtain ⟨-, ht⟩ := (ite_none_right_eq_some).mp ht
    cases ht
    exact hplain (.region rfl ⟨rfl, rfl⟩ (.inr rfl) rfl fun _ _ _ => le_rfl)
  | unlock r =>
    obtain ⟨-, ht⟩ := (ite_none_right_eq_some).mp ht
    cases ht
    exact hplain (.region rfl ⟨rfl, rfl⟩ (.inr rfl) rfl fun _ _ _ => le_rfl)

/-! ## Each run -/

/-- **Segments live exactly as long as they are needed**, when no identifier is removed while a `shmat` or
a `shmctl` that was given it sleeps. -/
theorem shm_run {es : List Event} (hmeets : StepsMeet (Meets c) (step c) (boot c mem) es)
    (hs : exec (step c) (boot c mem) es = some s) :
    Right c mem s ∧ ∀ e t, step c s e = some t → RightStep c s e t := by
  have h : Inv c mem s := exec_invariant (P := Inv c mem) (fun s e t h hm ht => h.step hm ht)
    (inv_boot c mem) hmeets hs
  exact ⟨h.right, fun e t ht => h.rightStep ht⟩

/-- A segment that two processes attach and that is locked. -/
def attachTwo : List Event :=
  [.shmget 1 8192 false, .shmat 2 0 ⟨true, true, true, true⟩, .shmat 3 0 ⟨true, true, true, true⟩,
    .grown 2 true, .resume 3 ⟨true, true, true, true⟩, .shmctl 1 0 .SHM_LOCK, .shmdt 2 0]

/-- No identifier is removed. -/
def Event.keeps : Event → Bool
  | .rmid _ _ => false
  | _ => true

theorem attachTwo_run : ∃ s, exec (step ⟨4, 2, 10⟩) (boot ⟨4, 2, 10⟩ 100) attachTwo = some s ∧
    s.availrmem = 98 ∧ s.att = [(3, 0)] ∧ Right ⟨4, 2, 10⟩ 100 s ∧
    ∀ e t, step ⟨4, 2, 10⟩ s e = some t → RightStep ⟨4, 2, 10⟩ s e t := by
  obtain ⟨s, hs, hav, hatt⟩ : ∃ s, exec (step ⟨4, 2, 10⟩) (boot ⟨4, 2, 10⟩ 100) attachTwo = some s ∧
      s.availrmem = 98 ∧ s.att = [(3, 0)] :=
    ⟨_, rfl, by decide +kernel, by decide +kernel⟩
  have hmeets : StepsMeet (Meets ⟨4, 2, 10⟩) (step ⟨4, 2, 10⟩) (boot ⟨4, 2, 10⟩ 100) attachTwo := by
    refine stepsMeet_of_allSteps (c := fun _ e => e.keeps) (fun s e h => ?_) (by decide +kernel)
    cases e with
    | rmid => cases h
    | _ => trivial
  exact ⟨s, hs, hav, hatt, shm_run hmeets hs⟩

/-- The identifier 0 is removed while `shmat` waits for the lock, and its slot and its region are used
again. -/
def stale : List Event :=
  [.shmget 1 8192 false, .lock 0, .shmat 3 0 ⟨true, true, true, true⟩, .rmid 1 0, .unlock 0,
    .resume 1 ⟨true, true, true, true⟩, .shmget 1 4096 false]

/-- **What `shmat` attaches then** is the region of the next segment. -/
theorem stale_run : ∃ s e t, exec (step ⟨4, 2, 10⟩) (boot ⟨4, 2, 10⟩ 100) stale = some s ∧
    step ⟨4, 2, 10⟩ s e = some t ∧ s.shmconv ⟨4, 2, 10⟩ 0 = none ∧ (s.shmem 0).shm_reg = some 0 ∧
    t.att = [(3, 0)] ∧ ¬ RightStep ⟨4, 2, 10⟩ s e t := by
  obtain ⟨s, t, hs, ht, htake, hconv, hreg, hatt⟩ : ∃ s t,
      exec (step ⟨4, 2, 10⟩) (boot ⟨4, 2, 10⟩ 100) stale = some s ∧
      step ⟨4, 2, 10⟩ s (.resume 3 ⟨true, true, true, true⟩) = some t ∧
      takes ⟨4, 2, 10⟩ s (.resume 3 ⟨true, true, true, true⟩) = some (0, 0) ∧
      s.shmconv ⟨4, 2, 10⟩ 0 = none ∧ (s.shmem 0).shm_reg = some 0 ∧ t.att = [(3, 0)] :=
    ⟨_, _, rfl, rfl, by decide +kernel, by decide +kernel, by decide +kernel, by decide +kernel⟩
  refine ⟨s, _, t, hs, ht, hconv, hreg, hatt, fun hright => ?_⟩
  obtain ⟨⟨i, hi, -⟩, -⟩ := hright.taken 0 0 htake
  rw [hconv] at hi
  cases hi

end Io.Shm
