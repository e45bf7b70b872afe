import Mathlib.Algebra.BigOperators.Fin
import OpusSysV.Io.Shm

/-!
# What holds of the segments between two steps

* `Live`, `Free`, `CallOK` — a region in use, a region that is free, a call that sleeps.
* `Inv` — the invariant; `inv_boot` — it holds at first.
* `Only` — a step that is about one region; `Inv.of_only` — what is to be shown of it then.
* `SameNames` — a step that keeps the names; `Inv.change` — what is to be shown of it then.
-/

namespace Io.Shm

open Function List
open Lib

variable {c : Tune} {s t : Sys} {p q r i j : ℕ} {id : ℤ}

/-! ## The invariant -/

/-- The region that a call is about. -/
def Call.region : Call → Option ℕ
  | .idle => none
  | .wait _ => none
  | .get _ r _ _ => some r
  | .at _ _ r => some r
  | .grow _ _ r _ => some r
  | .rmid _ r => some r
  | .ctl _ _ _ r => some r
  | .dt r => some r

/-- The identifier names the region. -/
def Names (c : Tune) (s : Sys) (id : ℤ) (i r : ℕ) : Prop :=
  s.shmconv c id = some i ∧ (s.shmem i).shm_reg = some r

/-- Where a process may sleep. -/
def CallOK (c : Tune) (s : Sys) (p : ℕ) : Call → Prop
  | .idle => True
  | .get _ _ _ _ => False
  | .at id i r => Names c s id i r
  | .grow id i r _ => Names c s id i r ∧ (s.shmem i).SHM_INIT = false ∧ (s.region r).RG_DONE = false ∧
      (s.region r).r_refcnt = 1 ∧ (p, r) ∈ s.att ∧ r ∉ s.kern
  | .wait _ => False
  | .rmid _ r => (s.region r).r_type ≠ .none ∧ ∀ i, (s.shmem i).shm_reg ≠ some r
  | .ctl _ id i r => Names c s id i r ∧ (s.region r).r_type ≠ .RT_PHMEM
  | .dt r => (p, r) ∈ s.att

/-- A region that is in use. -/
structure Live (c : Tune) (s : Sys) (r : ℕ) : Prop where
  bound : r < c.v_region
  used : (s.region r).r_type ≠ .none
  notfree : r ∉ s.rfree
  refcnt : (s.region r).r_refcnt = s.att.countP (·.2 = r)
  one : ∀ i j, (s.shmem i).shm_reg = some r → (s.shmem j).shm_reg = some r → i = j
  nofree : (s.region r).RG_NOFREE = true ↔
    (∃ i, (s.shmem i).shm_reg = some r) ∨ ∃ p id, s.call p = .rmid id r
  kept : (s.region r).RG_NOFREE = false → 0 < (s.region r).r_refcnt
  rmid : ∀ p q id id', s.call p = .rmid id r → s.call q = .rmid id' r → p = q
  ready : ∀ i, (s.shmem i).shm_reg = some r →
    (s.shmem i).SHM_INIT = true ∧ (s.region r).RG_DONE = false ∧ (s.region r).r_refcnt = 0 ∨
    (s.shmem i).SHM_INIT = false ∧
      ((s.region r).RG_DONE = true ∨ ∃ p id n, s.call p = .grow id i r n)
  att : ∀ p, (p, r) ∈ s.att → (s.region r).RG_DONE = true ∨ ∃ id i n, s.call p = .grow id i r n
  pgsz : (s.region r).RG_DONE = false → (s.region r).r_pgsz = 0
  lock : (s.region r).RG_LOCK = true ↔ r ∈ s.kern ∨ ∃ p id i n, s.call p = .grow id i r n

/-- A region that is free, or that does not exist. -/
structure Free (c : Tune) (s : Sys) (r : ℕ) : Prop where
  zero : s.region r = Region.zero
  rfree : r ∈ s.rfree ↔ r < c.v_region
  shmem : ∀ i, (s.shmem i).shm_reg ≠ some r
  call : ∀ p, (s.call p).region ≠ some r
  att : ∀ p, (p, r) ∉ s.att
  kern : r ∉ s.kern

/-- Pages of regions that are locked. -/
def lockedPages (c : Tune) (s : Sys) : ℕ := ∑ r ∈ Finset.range c.v_region, (s.region r).locked

structure Inv (c : Tune) (mem : ℤ) (s : Sys) : Prop where
  region : ∀ r, Free c s r ∨ Live c s r
  call : ∀ p, CallOK c s p (s.call p)
  alloc : ∀ i, (s.shmem i).IPC_ALLOC = true ↔ ∃ r, (s.shmem i).shm_reg = some r
  nodup : s.rfree.Nodup
  kern : s.kern.Nodup
  avail : s.availrmem + lockedPages c s = mem

theorem inv_boot (c : Tune) (mem : ℤ) : Inv c mem (boot c mem) := by
  refine ⟨fun r => .inl ⟨rfl, mem_range, nofun, nofun, nofun, nofun⟩, fun _ => trivial, ?_,
    nodup_range, nodup_nil, ?_⟩
  · exact fun i => ⟨nofun, fun ⟨_, h⟩ => nomatch h⟩
  · have hzero : lockedPages c (boot c mem) = 0 := Finset.sum_eq_zero fun _ _ => rfl
    rw [hzero]
    exact add_zero mem

/-- What `Live` looks at. -/
theorem Live.congr (hl : Live c s r) (hreg : t.region r = s.region r) (hfree : r ∈ t.rfree ↔ r ∈ s.rfree)
    (hshm : ∀ i, (t.shmem i).shm_reg = some r ∨ (s.shmem i).shm_reg = some r → t.shmem i = s.shmem i)
    (hrmid : ∀ p id, t.call p = .rmid id r ↔ s.call p = .rmid id r)
    (hgrow : ∀ p id i n, t.call p = .grow id i r n ↔ s.call p = .grow id i r n)
    (hatt : ∀ p, (p, r) ∈ t.att ↔ (p, r) ∈ s.att)
    (hcount : t.att.countP (·.2 = r) = s.att.countP (·.2 = r)) (hkern : r ∈ t.kern ↔ r ∈ s.kern) :
    Live c t r := by
  have hname : ∀ i, (t.shmem i).shm_reg = some r ↔ (s.shmem i).shm_reg = some r := fun i =>
    ⟨fun hi => hshm i (.inl hi) ▸ hi, fun hi => (hshm i (.inr hi)).symm ▸ hi⟩
  refine ⟨hl.bound, ?_, fun hf => hl.notfree (hfree.mp hf), ?_, ?_, ?_, ?_, ?_, ?_, ?_, ?_, ?_⟩
  · rw [hreg]; exact hl.used
  · rw [hreg, hcount]; exact hl.refcnt
  · exact fun i j hi hj => hl.one i j ((hname i).mp hi) ((hname j).mp hj)
  · rw [hreg, hl.nofree]
    exact or_congr (exists_congr fun i => (hname i).symm)
      (exists_congr fun p => exists_congr fun id => (hrmid p id).symm)
  · rw [hreg]; exact hl.kept
  · exact fun p q id id' hp hq => hl.rmid p q id id' ((hrmid p id).mp hp) ((hrmid q id').mp hq)
  · intro i hi
    have hr := hl.ready i ((hname i).mp hi)
    rw [hshm i (.inl hi), hreg]
    refine hr.imp_right fun hr => ⟨hr.1, hr.2.imp_right ?_⟩
    rintro ⟨p, id, n, hp⟩
    exact ⟨p, id, n, (hgrow p id i n).mpr hp⟩
  · intro p hp
    rw [hreg]
    refine (hl.att p ((hatt p).mp hp)).imp_right ?_
    rintro ⟨id, i, n, hp⟩
    exact ⟨id, i, n, (hgrow p id i n).mpr hp⟩
  · rw [hreg]; exact hl.pgsz
  · rw [hreg, hl.lock]
    exact or_congr hkern.symm (exists_congr fun p => exists_congr fun id => exists_congr fun i =>
      exists_congr fun n => (hgrow p id i n).symm)

/-! ## Steps about one region -/

/-- Nothing, or region `r`. -/
def About (r : ℕ) (x : Option ℕ) : Prop := ∀ y ∈ x, y = r

/-- What is changed is about region `r`. -/
structure Only (r : ℕ) (s t : Sys) : Prop where
  region : ∀ x, x ≠ r → t.region x = s.region x
  rfree : ∀ x, x ≠ r → (x ∈ t.rfree ↔ x ∈ s.rfree)
  shmem : ∀ i, t.shmem i = s.shmem i ∨ About r (s.shmem i).shm_reg ∧ About r (t.shmem i).shm_reg
  call : ∀ p, t.call p = s.call p ∨ About r (s.call p).region ∧ About r (t.call p).region
  att : ∀ p x, x ≠ r → ((p, x) ∈ t.att ↔ (p, x) ∈ s.att)
  count : ∀ x, x ≠ r → t.att.countP (·.2 = x) = s.att.countP (·.2 = x)
  kern : ∀ x, x ≠ r → (x ∈ t.kern ↔ x ∈ s.kern)

theorem About.ne {x : ℕ} {o : Option ℕ} (h : About r o) (hx : x ≠ r) : o ≠ some x := fun ho =>
  hx (h x ho)

namespace Only

variable {x : ℕ} (h : Only r s t) (hx : x ≠ r)
include h hx

theorem shmem_of_left (hi : (s.shmem i).shm_reg = some x) : t.shmem i = s.shmem i :=
  (h.shmem i).resolve_right fun hr => hr.1.ne hx hi

theorem shmem_of_right (hi : (t.shmem i).shm_reg = some x) : t.shmem i = s.shmem i :=
  (h.shmem i).resolve_right fun hr => hr.2.ne hx hi

theorem shm_reg : (t.shmem i).shm_reg = some x ↔ (s.shmem i).shm_reg = some x :=
  ⟨fun hi => h.shmem_of_right hx hi ▸ hi, fun hi => (h.shmem_of_left hx hi).symm ▸ hi⟩

theorem call_iff {y : Call} (hy : y.region = some x) : t.call p = y ↔ s.call p = y := by
  rcases h.call p with hp | ⟨h1, h2⟩
  · rw [hp]
  · exact ⟨fun hp => absurd (hp ▸ hy) (h2.ne hx), fun hp => absurd (hp ▸ hy) (h1.ne hx)⟩

theorem names : Names c t id i x ↔ Names c s id i x := by
  have hconv : t.shmem i = s.shmem i → (t.shmconv c id = some i ↔ s.shmconv c id = some i) := by
    intro hi
    unfold Sys.shmconv
    dsimp only
    split
    · exact .rfl
    · by_cases hid : id.toNat % c.shmmni = i
      · rw [hid, hi]
      · have hne : ∀ {P : Prop} [Decidable P],
            ¬ (if P then some (id.toNat % c.shmmni) else none) = some i := by
          intro P _ hP
          split at hP
          · exact hid (Option.some.inj hP)
          · cases hP
        exact ⟨fun h => absurd h hne, fun h => absurd h hne⟩
  unfold Names
  constructor
  · rintro ⟨h1, h2⟩
    exact ⟨(hconv (h.shmem_of_right hx h2)).mp h1, (h.shm_reg hx).mp h2⟩
  · rintro ⟨h1, h2⟩
    exact ⟨(hconv (h.shmem_of_left hx h2)).mpr h1, (h.shm_reg hx).mpr h2⟩

theorem free (hf : Free c s x) : Free c t x where
  zero := by rw [h.region x hx]; exact hf.zero
  rfree := (h.rfree x hx).trans hf.rfree
  shmem i hi := hf.shmem i ((h.shm_reg hx).mp hi)
  call p hp := by
    rcases h.call p with hc | ⟨_, h2⟩
    · exact hf.call p (hc ▸ hp)
    · exact h2.ne hx hp
  att p hp := hf.att p ((h.att p x hx).mp hp)
  kern hk := hf.kern ((h.kern x hx).mp hk)

theorem live (hl : Live c s x) : Live c t x :=
  hl.congr (h.region x hx) (h.rfree x hx) (fun _ hi => hi.elim (h.shmem_of_right hx) (h.shmem_of_left hx))
    (fun _ id => h.call_iff hx (y := .rmid id x) rfl)
    (fun _ id i n => h.call_iff hx (y := .grow id i x n) rfl) (fun p => h.att p x hx) (h.count x hx)
    (h.kern x hx)

theorem callOK {y : Call} (hy : y.region = some x) (hc : CallOK c s p y) : CallOK c t p y := by
  have hreg := h.region x hx
  cases y with
  | idle => cases hy
  | wait => cases hy
  | get => exact hc.elim
  | «at» id i r' =>
    cases hy
    exact (h.names hx).mpr hc
  | grow id i r' n =>
    cases hy
    obtain ⟨h1, h2, h3, h4, h5, h6⟩ := hc
    refine ⟨(h.names hx).mpr h1, ?_, by rw [hreg]; exact h3, by rw [hreg]; exact h4,
      (h.att p x hx).mpr h5, fun hk => h6 ((h.kern x hx).mp hk)⟩
    rw [h.shmem_of_left hx h1.2]
    exact h2
  | rmid id r' =>
    cases hy
    exact ⟨by rw [hreg]; exact hc.1, fun i hi => hc.2 i ((h.shm_reg hx).mp hi)⟩
  | ctl cmd id i r' =>
    cases hy
    exact ⟨(h.names hx).mpr hc.1, by rw [hreg]; exact hc.2⟩
  | dt r' =>
    cases hy
    exact (h.att p x hx).mpr hc

end Only

/-- **A step about one region**: the rest of the invariant stays. -/
theorem Inv.of_only {mem : ℤ} (h : Inv c mem s) (ho : Only r s t) (hr : Free c t r ∨ Live c t r)
    (hcall : ∀ p, About r (t.call p).region → CallOK c t p (t.call p))
    (halloc : ∀ i, (t.shmem i).IPC_ALLOC = true ↔ ∃ r, (t.shmem i).shm_reg = some r)
    (hnodup : t.rfree.Nodup) (hkern : t.kern.Nodup) (hlt : r < c.v_region)
    (havail : t.availrmem + (t.region r).locked = s.availrmem + (s.region r).locked) : Inv c mem t := by
  refine ⟨fun x => ?_, fun p => ?_, halloc, hnodup, hkern, ?_⟩
  · by_cases hx : x = r
    · rw [hx]
      exact hr
    · exact (h.region x).imp (ho.free hx) (ho.live hx)
  · by_cases ha : About r (t.call p).region
    · exact hcall p ha
    · have heq : t.call p = s.call p := (ho.call p).resolve_right fun hc => ha hc.2
      unfold About at ha
      push Not at ha
      obtain ⟨x, hmem, hx⟩ := ha
      refine ho.callOK hx hmem ?_
      rw [heq]
      exact h.call p
  · have hsum : ∀ u : Sys, lockedPages c u = (u.region r).locked +
        ∑ x ∈ (Finset.range c.v_region).erase r, (u.region x).locked := fun u =>
      (Finset.add_sum_erase _ _ (Finset.mem_range.mpr hlt)).symm
    have hrest : ∑ x ∈ (Finset.range c.v_region).erase r, (t.region x).locked =
        ∑ x ∈ (Finset.range c.v_region).erase r, (s.region x).locked :=
      Finset.sum_congr rfl fun x hx => by rw [ho.region x (Finset.ne_of_mem_erase hx)]
    have := h.avail
    rw [hsum] at this ⊢
    rw [hrest]
    push_cast at this ⊢
    omega

theorem mem_cons_att {x : ℕ} (hx : x ≠ r) : (q, x) ∈ (p, r) :: s.att ↔ (q, x) ∈ s.att := by
  rw [mem_cons, or_iff_right fun h => hx (congrArg Prod.snd h)]

theorem mem_erase_att {x : ℕ} (hx : x ≠ r) : (q, x) ∈ s.att.erase (p, r) ↔ (q, x) ∈ s.att :=
  mem_erase_of_ne fun h => hx (congrArg Prod.snd h)

theorem count_cons_att {x : ℕ} (hx : x ≠ r) :
    ((p, r) :: s.att).countP (·.2 = x) = s.att.countP (·.2 = x) :=
  countP_cons_of_neg (by simpa using hx.symm)

theorem count_erase_att {x : ℕ} (hx : x ≠ r) :
    (s.att.erase (p, r)).countP (·.2 = x) = s.att.countP (·.2 = x) := by
  rw [countP_erase, if_neg (by simpa using fun _ => hx.symm), Nat.sub_zero]

/-! ## Calls that sleep or return -/

/-- A call that neither grows region `r` nor removes its identifier. -/
def Quiet (r : ℕ) (x : Call) : Prop := (∀ id, x ≠ .rmid id r) ∧ ∀ id i n, x ≠ .grow id i r n

theorem setCall_self (s : Sys) (p : ℕ) (y : Call) : (s.setCall p y).call p = y := by
  unfold Sys.setCall
  exact update_self p y s.call

theorem setCall_ne (s : Sys) (y : Call) (h : q ≠ p) : (s.setCall p y).call q = s.call q := by
  unfold Sys.setCall
  exact update_of_ne h y s.call

theorem callOK_setCall {y z : Call} : CallOK c (s.setCall p y) q z = CallOK c s q z := by
  cases z <;> rfl

theorem update_call_iff {x y z : Call} {call : ℕ → Call} (hp : call p = x) (hx : x ≠ z) (hy : y ≠ z) :
    update call p y q = z ↔ call q = z := by
  rw [update_apply]
  split_ifs with hq
  · rw [hq, hp]
    exact iff_of_false hy hx
  · rfl

/-- A process goes to sleep, or returns, and nothing else changes. -/
theorem Inv.setCall {mem : ℤ} {y : Call} (h : Inv c mem s) (hx : ∀ r, Quiet r (s.call p))
    (hy : ∀ r, Quiet r y) (hok : CallOK c s p y)
    (hlive : ∀ r ∈ y.region, Live c s r) : Inv c mem (s.setCall p y) := by
  refine ⟨fun r => ?_, fun q => ?_, h.alloc, h.nodup, h.kern, h.avail⟩
  · rcases h.region r with hf | hl
    · refine .inl ⟨hf.zero, hf.rfree, hf.shmem, fun q hq => ?_, hf.att, hf.kern⟩
      by_cases hqp : q = p
      · subst hqp
        rw [setCall_self] at hq
        exact (hlive r hq).used (by rw [hf.zero]; rfl)
      · rw [setCall_ne s y hqp] at hq
        exact hf.call q hq
    · refine .inr (hl.congr rfl .rfl (fun _ _ => rfl) (fun q id => ?_) (fun q id i n => ?_)
        (fun _ => .rfl) rfl .rfl)
      · exact update_call_iff rfl ((hx r).1 id) ((hy r).1 id)
      · exact update_call_iff rfl ((hx r).2 id i n) ((hy r).2 id i n)
  · rw [callOK_setCall]
    by_cases hqp : q = p
    · subst hqp
      rw [setCall_self]
      exact hok
    · rw [setCall_ne s y hqp]
      exact h.call q

/-! ## Steps that keep the names -/

/-- Each identifier names what it named. -/
def SameNames (s t : Sys) : Prop := ∀ i, (t.shmem i).IPC_ALLOC = (s.shmem i).IPC_ALLOC ∧
  (t.shmem i).seq = (s.shmem i).seq ∧ (t.shmem i).shm_reg = (s.shmem i).shm_reg

theorem SameNames.names (h : SameNames s t) : Names c t id i r ↔ Names c s id i r := by
  unfold Names Sys.shmconv
  simp only [(h _).1, (h _).2.1, (h _).2.2]

/-- Only the entry of the region changes. -/
theorem SameNames.of_entry (h : ∀ j, t.shmem j = s.shmem j ∨ (s.shmem j).shm_reg = some r ∧
      (t.shmem j).IPC_ALLOC = (s.shmem j).IPC_ALLOC ∧ (t.shmem j).seq = (s.shmem j).seq ∧
      (t.shmem j).shm_reg = (s.shmem j).shm_reg) : SameNames s t := fun j => by
  rcases h j with hj | ⟨-, hj⟩
  · rw [hj]
    exact ⟨rfl, rfl, rfl⟩
  · exact hj

/-- A call that does not grow the region stays in order. -/
theorem CallOK.of_same (hok : CallOK c s q (s.call q)) (hsame : SameNames s t)
    (htype : (t.region r).r_type = (s.region r).r_type) (hgrow : ∀ id i n, s.call q ≠ .grow id i r n)
    (hatt : (q, r) ∈ s.att → (q, r) ∈ t.att) (ha : About r (s.call q).region) :
    CallOK c t q (s.call q) := by
  revert hok hgrow ha
  cases s.call q with
  | idle => exact fun _ _ _ => trivial
  | wait => exact fun h _ _ => h
  | get => exact fun h _ _ => h
  | «at» id i r' => exact fun h _ _ => hsame.names.mpr h
  | grow id i r' n =>
    intro _ hg ha
    cases ha r' rfl
    exact absurd rfl (hg id i n)
  | rmid id r' =>
    intro h _ ha
    cases ha r' rfl
    exact ⟨by rw [htype]; exact h.1, fun i hi => h.2 i (by rw [← (hsame i).2.2]; exact hi)⟩
  | ctl cmd id i r' =>
    intro h _ ha
    cases ha r' rfl
    exact ⟨hsame.names.mpr h.1, by rw [htype]; exact h.2⟩
  | dt r' =>
    intro h _ ha
    cases ha r' rfl
    exact hatt h

theorem about_none (r : ℕ) : About r none := nofun

theorem about_some (r : ℕ) : About r (some r) := fun _ h => (Option.some.inj h).symm

/-- The call of a process stays, does not grow region `r` and keeps it. -/
def Stays (r : ℕ) (s t : Sys) (q : ℕ) : Prop :=
  t.call q = s.call q ∧ (∀ id i n, s.call q ≠ .grow id i r n) ∧ ((q, r) ∈ s.att → (q, r) ∈ t.att)

/-- A call about region `r` goes on. -/
structure Moves (c : Tune) (r : ℕ) (s t : Sys) (p : ℕ) : Prop where
  ok : CallOK c t p (t.call p)
  about : About r (s.call p).region ∧ About r (t.call p).region
  rmid : ∀ id, s.call p ≠ .rmid id r ∧ t.call p ≠ .rmid id r

/-- The call of one process changes, and no other process grows the region. -/
theorem moves_of {Z : Call} (ht : t.call = update s.call p Z) (hok : CallOK c t p Z)
    (h1 : About r (s.call p).region) (h2 : About r Z.region)
    (hr : ∀ id, s.call p ≠ .rmid id r ∧ Z ≠ .rmid id r)
    (hgrow : ∀ q, q ≠ p → ∀ id i n, s.call q ≠ .grow id i r n)
    (hatt : ∀ q, q ≠ p → (q, r) ∈ s.att → (q, r) ∈ t.att) (q : ℕ) :
    Stays r s t q ∨ q = p ∧ Moves c r s t p := by
  by_cases hq : q = p
  · obtain rfl : t.call p = Z := by rw [ht, update_self]
    exact .inr ⟨hq, hok, ⟨h1, h2⟩, hr⟩
  · exact .inl ⟨by rw [ht, update_of_ne hq], hgrow q hq, hatt q hq⟩

/-- **A step about one region** after which each identifier names what it named. -/
theorem Inv.change {mem : ℤ} {Y : Region} (h : Inv c mem s) (hl : Live c s r)
    (hregion : t.region = update s.region r Y) (hfree : t.rfree = s.rfree)
    (hshmem : ∀ j, t.shmem j = s.shmem j ∨ (s.shmem j).shm_reg = some r ∧
      (t.shmem j).IPC_ALLOC = (s.shmem j).IPC_ALLOC ∧ (t.shmem j).seq = (s.shmem j).seq ∧
      (t.shmem j).shm_reg = (s.shmem j).shm_reg)
    (hcalls : ∀ q, Stays r s t q ∨ q = p ∧ Moves c r s t p)
    (hatt : ∀ q x, x ≠ r → ((q, x) ∈ t.att ↔ (q, x) ∈ s.att))
    (hcount : ∀ x, x ≠ r → t.att.countP (·.2 = x) = s.att.countP (·.2 = x))
    (hnodup : t.kern.Nodup) (hkern : ∀ x, x ≠ r → (x ∈ t.kern ↔ x ∈ s.kern))
    (htype : Y.r_type = (s.region r).r_type) (hno : Y.RG_NOFREE = (s.region r).RG_NOFREE)
    (hrefcnt : Y.r_refcnt = t.att.countP (·.2 = r)) (hkept : Y.RG_NOFREE = false → 0 < Y.r_refcnt)
    (hready : ∀ j, (s.shmem j).shm_reg = some r →
      (t.shmem j).SHM_INIT = true ∧ Y.RG_DONE = false ∧ Y.r_refcnt = 0 ∨
      (t.shmem j).SHM_INIT = false ∧ (Y.RG_DONE = true ∨ ∃ q id n, t.call q = .grow id j r n))
    (hdone : ∀ q, (q, r) ∈ t.att → Y.RG_DONE = true ∨ ∃ id i n, t.call q = .grow id i r n)
    (hpgsz : Y.RG_DONE = false → Y.r_pgsz = 0)
    (hlock : Y.RG_LOCK = true ↔ r ∈ t.kern ∨ ∃ id i n, t.call p = .grow id i r n)
    (havail : t.availrmem + Y.locked = s.availrmem + (s.region r).locked) : Inv c mem t := by
  obtain rfl : t.region r = Y := by rw [hregion, update_self]
  have hsame := SameNames.of_entry hshmem
  have hname : ∀ i, (t.shmem i).shm_reg = some r ↔ (s.shmem i).shm_reg = some r := fun i => by
    rw [(hsame i).2.2]
  have hrmid : ∀ q id, t.call q = .rmid id r ↔ s.call q = .rmid id r := fun q id => by
    rcases hcalls q with ⟨hq, -⟩ | ⟨rfl, hm⟩
    · rw [hq]
    · exact iff_of_false (hm.rmid id).2 (hm.rmid id).1
  have honly : Only r s t := by
    refine ⟨fun x hx => by rw [hregion, update_of_ne hx], fun _ _ => by rw [hfree], fun j => ?_,
      fun q => ?_, hatt, hcount, hkern⟩
    · rcases hshmem j with hj | ⟨h1, -, -, h2⟩
      · exact .inl hj
      · rw [h2, h1]
        exact .inr ⟨about_some r, about_some r⟩
    · rcases hcalls q with ⟨hq, -⟩ | ⟨rfl, hm⟩
      · exact .inl hq
      · exact .inr hm.about
  refine h.of_only honly (.inr ?_) (fun q ha => ?_) (fun i => ?_) (hfree ▸ h.nodup) hnodup hl.bound
    havail
  · refine ⟨hl.bound, by rw [htype]; exact hl.used, by rw [hfree]; exact hl.notfree, hrefcnt, ?_, ?_,
      hkept, ?_, fun j hj => hready j ((hname j).mp hj), hdone, hpgsz, ?_⟩
    · exact fun i j hi hj => hl.one i j ((hname i).mp hi) ((hname j).mp hj)
    · rw [hno, hl.nofree]
      exact or_congr (exists_congr fun i => (hname i).symm)
        (exists_congr fun p => exists_congr fun id => (hrmid p id).symm)
    · exact fun p q id id' hp hq => hl.rmid p q id id' ((hrmid p id).mp hp) ((hrmid q id').mp hq)
    · rw [hlock]
      refine or_congr_right ⟨fun hg => ⟨p, hg⟩, ?_⟩
      rintro ⟨q, id, i, n, hg⟩
      rcases hcalls q with ⟨hq, hn, -⟩ | ⟨rfl, -⟩
      · exact absurd (hq ▸ hg) (hn id i n)
      · exact ⟨id, i, n, hg⟩
  · rcases hcalls q with ⟨hq, hn, hstay⟩ | ⟨rfl, hm⟩
    · rw [hq] at ha ⊢
      exact (h.call q).of_same hsame htype hn hstay ha
    · exact hm.ok
  · rw [(hsame i).1, (hsame i).2.2]
    exact h.alloc i

/-- No process grows a region that is not locked. -/
theorem unlocked {Y : Region} (ht : t.call = update s.call p .idle) (hY : Y.RG_LOCK = false)
    (hk : r ∉ t.kern) : Y.RG_LOCK = true ↔ r ∈ t.kern ∨ ∃ id i n, t.call p = .grow id i r n := by
  simp [ht, hY, hk]

theorem init_self {X : Shmid} {b : Bool} (ht : t.shmem = update s.shmem i X) (hX : X.SHM_INIT = b) :
    (t.shmem i).SHM_INIT = b := by
  rw [ht, update_self, hX]

/-- The entry that names the region changes. -/
theorem shmem_upd {X : Shmid} (ht : t.shmem = update s.shmem i X) (hi : (s.shmem i).shm_reg = some r)
    (hX : X.IPC_ALLOC = (s.shmem i).IPC_ALLOC ∧ X.seq = (s.shmem i).seq ∧
      X.shm_reg = (s.shmem i).shm_reg) (j : ℕ) :
    t.shmem j = s.shmem j ∨ (s.shmem j).shm_reg = some r ∧
      (t.shmem j).IPC_ALLOC = (s.shmem j).IPC_ALLOC ∧ (t.shmem j).seq = (s.shmem j).seq ∧
      (t.shmem j).shm_reg = (s.shmem j).shm_reg := by
  by_cases hj : j = i
  · subst hj
    rw [ht, update_self]
    exact .inr ⟨hi, hX⟩
  · exact .inl (by rw [ht, update_of_ne hj])

end Io.Shm
