import OpusSysV.Lib.Follow
import OpusSysV.Os.FlockRec

/-!
# Who waits for whom

* `LockSys.Inv` — the invariant of the sleeping requests: addresses are on one list only,
  each entry of `sleeplcks` belongs to one call, its `stat.blk` owns the lock slept on, that
  lock is in the way and has its flag set, and the entries do not run in a circle.
* `LockSys.Effect` — what one event does; `step_effect`, `Inv.effect`.
* `sleepers_wait` — while no flag of a lock wraps around, no sleeper is forgotten and there
  is no deadlock.  `edeadlk_exact` — when a request that gets `EDEADLK` would have closed a
  circle.
-/

namespace Os

open Lib Function List

namespace LockSys

variable {s t : LockSys} {me p q o : Owner} {ip : ℕ} {ld : Flock} {found r : Rec} {e : Sleeper}

/-! ## The chain of `deadflck` -/

/-- `stat.blk` of the entry of a process. -/
def blk (s : LockSys) (o : Owner) : Option Owner :=
  (s.sleeplcks.find? fun sf => sf.owner = o).map Sleeper.blk

/-- `deadflck` follows `stat.blk` to the caller. -/
theorem deadflck_eq {n : ℕ} : s.deadflck me n o = follow s.blk me n o := by
  induction n generalizing o with
  | zero => rfl
  | succ n ih =>
    unfold deadflck follow blk
    split_ifs
    · rfl
    · cases s.sleeplcks.find? fun sf => sf.owner = o with
      | none => rfl
      | some sf => exact ih

theorem blk_mem (h : s.blk o = some q) : ∃ e ∈ s.sleeplcks, e.owner = o ∧ e.blk = q := by
  obtain ⟨e, he, hq⟩ := Option.map_eq_some_iff.mp h
  exact ⟨e, mem_of_find?_eq_some he, by simpa using List.find?_some he, hq⟩

/-! ## Conditions on a step -/

/-- The request that an event makes of `blocked` and may sleep for, and whether the caller
is a server. -/
def asks (s : LockSys) : SleepEvent → Option (Owner × ℕ × Flock × Bool)
  | .reclock me ip iSize offset fread fwrite arg setflck slpflck server =>
    if slpflck ∧ (arg.lType = .rdlck ∨ arg.lType = .wrlck) ∧
        ¬ (setflck ∧ ((arg.lType = .rdlck ∧ ¬ fread) ∨ (arg.lType = .wrlck ∧ ¬ fwrite))) then
      (lockRange iSize offset arg).map fun r => (me, ip, ⟨arg.lType, r.1, r.2⟩, server)
    else none
  | .retry me =>
    match s.call me with
    | some ⟨ip, ld, _, none⟩ => some (me, ip, ld, false)
    | _ => none
  | _ => none

/-- The event does not put a process to sleep on a lock whose flag it thereby wraps around
to zero. -/
def NoWrap (s : LockSys) (ev : SleepEvent) : Prop :=
  ∀ me ip ld found, s.asks ev = some (me, ip, ld, false) →
    Rec.blocked me (s.files ip) ld = .inl found →
    s.deadflck me (s.sleeplcks.length + 1) found.lock.owner = some false → s.frlock ≠ [] →
    (found.lock.wakeflg + 1) % 2 ^ 32 ≠ 0

theorem noWrap_of_none {ev : SleepEvent} (h : s.asks ev = none) : s.NoWrap ev := by
  intro me ip ld found ha
  rw [h] at ha
  cases ha

theorem noWrap_of_blocked {ev : SleepEvent} (h : s.asks ev = some (me, ip, ld, false))
    (hb : Rec.blocked me (s.files ip) ld = .inl found)
    (hw : (found.lock.wakeflg + 1) % 2 ^ 32 ≠ 0) : s.NoWrap ev := by
  intro me' ip' ld' found' ha hb' _ _
  rw [h] at ha
  cases ha
  rw [hb] at hb'
  cases hb'
  exact hw

/-! ## What one event does -/

/-- The call of the process, if it is in one, has no entry in `sleeplcks`. -/
def Awake (s : LockSys) (me : Owner) : Prop := ∀ c, s.call me = some c → c.sf = none

/-- The request goes to sleep. -/
def sleepOn (s : LockSys) (me : Owner) (ip : ℕ) (ld : Flock) (setflck : Bool) (found : Rec) (a : ℕ)
    (fr : List ℕ) : LockSys :=
  { s with
    files := update s.files ip (bump (s.files ip) found)
    frlock := fr
    sleeplcks := ⟨a, ld, me, found.lock.owner⟩ :: s.sleeplcks
    slp := update s.slp me (some found.addr)
    call := update s.call me (some ⟨ip, ld, setflck, some a⟩) }

/-- What an event can do to the system. -/
inductive Effect (s : LockSys) : LockSys → Prop
  /-- A call returns and has changed nothing. -/
  | ret (me : Owner) (hme : s.Awake me) : Effect s { s with call := update s.call me none }
  /-- A call adjusts the list of a file. -/
  | adjust (me : Owner) (hme : s.Awake me) (ip : ℕ) (list : List Rec) (sc : Adj)
      (hk : Rec.Kept (s.files ip) list s.frlock sc.frlock sc.woken) :
      Effect s { s.store ip list sc with call := update s.call me none }
  /-- A request sleeps. -/
  | sleeps (me : Owner) (hme : s.Awake me) (ip : ℕ) (ld : Flock) (setflck : Bool) (found : Rec)
      (a : ℕ) (fr : List ℕ) (hld : ld.lStart ≤ ld.lEnd)
      (hb : Rec.blocked me (s.files ip) ld = .inl found)
      (hd : s.deadflck me (s.sleeplcks.length + 1) found.lock.owner = some false)
      (hfr : s.frlock = a :: fr) (hw : (found.lock.wakeflg + 1) % 2 ^ 32 ≠ 0) :
      Effect s (s.sleepOn me ip ld setflck found a fr)
  /-- A sleeper takes its entry off the list and starts over, or its call returns. -/
  | leaves (me : Owner) (c : Pending) (sf : ℕ) (c' : Option Pending) (hc : s.call me = some c)
      (hsf : c.sf = some sf) (hc' : ∀ d, c' = some d → d.sf = none ∧ d.ld = c.ld) :
      Effect s { s.unlinkSleeper sf with
        slp := update s.slp me none
        call := update s.call me c' }

/-- How a turn of the loop ends. -/
inductive TurnCases (s : LockSys) (me : Owner) (ip : ℕ) (ld : Flock) (setflck slpflck server : Bool) :
    LockRet × LockSys → Prop
  | same (ret : LockRet) (hret : ret ≠ .sleeps ∧ ret ≠ .EDEADLK) : TurnCases s me ip ld setflck
      slpflck server (ret, s)
  | adjust (ret : LockRet) (hret : ret ≠ .sleeps ∧ ret ≠ .EDEADLK) (list : List Rec) (sc : Adj)
      (hk : Rec.Kept (s.files ip) list s.frlock sc.frlock sc.woken) :
      TurnCases s me ip ld setflck slpflck server (ret, s.store ip list sc)
  | deadlock (found : Rec) (hsl : slpflck ∧ (ld.lType = .rdlck ∨ ld.lType = .wrlck))
      (hb : Rec.blocked me (s.files ip) ld = .inl found)
      (hd : s.deadflck me (s.sleeplcks.length + 1) found.lock.owner = some true) :
      TurnCases s me ip ld setflck slpflck server (.EDEADLK, s)
  | sleeps (found : Rec) (a : ℕ) (fr : List ℕ)
      (hsl : slpflck ∧ (ld.lType = .rdlck ∨ ld.lType = .wrlck)) (hserver : server = false)
      (hb : Rec.blocked me (s.files ip) ld = .inl found)
      (hd : s.deadflck me (s.sleeplcks.length + 1) found.lock.owner = some false)
      (hfr : s.frlock = a :: fr) :
      TurnCases s me ip ld setflck slpflck server (.sleeps, s.sleepOn me ip ld setflck found a fr)

variable {setflck slpflck server : Bool}

theorem adjust_cases {insrt : ℕ} :
    TurnCases s me ip ld setflck slpflck server (s.adjust me ip insrt ld) := by
  unfold adjust
  apply TurnCases.adjust
  · split_ifs <;> simp
  · exact Rec.flckadj_kept

theorem wait_cases (hsl : slpflck ∧ (ld.lType = .rdlck ∨ ld.lType = .wrlck))
    (hb : Rec.blocked me (s.files ip) ld = .inl found) :
    TurnCases s me ip ld setflck slpflck server (s.wait me ip ld setflck server found) := by
  unfold wait
  rcases hd : s.deadflck me (s.sleeplcks.length + 1) found.lock.owner with - | - | -
  · exact .same _ (by simp)
  · dsimp only
    cases hfr : s.frlock with
    | nil => exact .same _ (by simp)
    | cons a fr =>
      cases hserver : server with
      | true => exact .same _ (by simp)
      | false => exact .sleeps found a fr hsl rfl hb hd hfr
  · exact .deadlock found hsl hb hd

theorem turn_cases :
    TurnCases s me ip ld setflck slpflck server (s.turn me ip ld setflck slpflck server) := by
  unfold turn
  cases hty : ld.lType with
  | invalid => exact .same _ (by simp)
  | unlck =>
    dsimp only
    split_ifs
    · exact adjust_cases
    · exact adjust_cases
    · exact .same _ (by simp)
  | rdlck | wrlck =>
    dsimp only
    cases hb : Rec.blocked me (s.files ip) ld with
    | inr insrt =>
      dsimp only
      split_ifs
      · exact adjust_cases
      · exact .same _ (by simp)
    | inl found =>
      dsimp only
      by_cases hsl : slpflck = true
      · rw [if_pos hsl]
        exact wait_cases ⟨hsl, by simp [hty]⟩ hb
      · rw [if_neg hsl]
        split_ifs <;> exact .same _ (by simp)

theorem lockRange_le {iSize offset : Long} {arg : FlockArg} {r : ℤ × ℤ}
    (h : lockRange iSize offset arg = some r) : r.1 ≤ r.2 := by
  unfold lockRange at h
  dsimp only at h
  split_ifs at h <;> cases h <;> omega

theorem awake_of_none (h : s.call me = none) : s.Awake me := by
  intro c hc
  rw [h] at hc
  cases hc

/-- The call of a process that was in none is forgotten by itself. -/
theorem finish_eq {r : LockRet × LockSys} (h : r.1 ≠ .sleeps → r.2.call me = none) :
    finish r me = r := by
  unfold finish
  split_ifs with hr
  · rfl
  · rw [← h hr, update_eq_self]

theorem TurnCases.finish_eq {r : LockRet × LockSys} (hme : s.call me = none)
    (h : TurnCases s me ip ld setflck slpflck server r) : finish r me = r := by
  apply LockSys.finish_eq
  intro hr
  cases h with
  | same => exact hme
  | adjust => exact hme
  | deadlock => exact hme
  | sleeps => exact absurd rfl hr

/-- The effect of a turn that does not sleep for a flag that wraps around. -/
theorem TurnCases.effect {r : LockRet × LockSys} (hme : s.Awake me) (hld : ld.lStart ≤ ld.lEnd)
    (hC : slpflck ∧ (ld.lType = .rdlck ∨ ld.lType = .wrlck) → server = false → ∀ found,
      Rec.blocked me (s.files ip) ld = .inl found →
      s.deadflck me (s.sleeplcks.length + 1) found.lock.owner = some false → s.frlock ≠ [] →
      (found.lock.wakeflg + 1) % 2 ^ 32 ≠ 0)
    (h : TurnCases s me ip ld setflck slpflck server r) : Effect s (finish r me).2 := by
  cases h with
  | same ret hret =>
    rw [finish, if_neg hret.1]
    exact .ret me hme
  | adjust ret hret list sc hk =>
    rw [finish, if_neg hret.1]
    exact .adjust me hme ip list sc hk
  | deadlock found hsl hb hd => exact .ret me hme
  | sleeps found a fr hsl hserver hb hd hfr =>
    exact .sleeps me hme ip ld setflck found a fr hld hb hd hfr
      (hC hsl hserver found hb hd (by simp [hfr]))

/-- **What one event does.** -/
theorem step_effect {ev : SleepEvent} (hord : ∀ p c, s.call p = some c → c.ld.lStart ≤ c.ld.lEnd)
    (hC : s.NoWrap ev) (h : s.step ev = some t) : Effect s t := by
  obtain ⟨⟨ret, u⟩, hrun, rfl⟩ := Option.map_eq_some_iff.mp h
  cases ev with
  | reclock me ip iSize offset fread fwrite arg setflck slpflck server =>
    simp only [run] at hrun
    by_cases hme : s.call me = none
    · rw [if_pos hme] at hrun
      have hr := Option.some.inj hrun
      have hsame : Effect s s := by
        have he := Effect.ret me (awake_of_none hme)
        rwa [← hme, update_eq_self] at he
      unfold reclock at hr
      by_cases hbad : setflck ∧ ((arg.lType = .rdlck ∧ ¬ fread) ∨ (arg.lType = .wrlck ∧ ¬ fwrite))
      · rw [if_pos hbad] at hr
        cases hr
        exact hsame
      · rw [if_neg hbad] at hr
        cases hrange : lockRange iSize offset arg with
        | none =>
          rw [hrange] at hr
          cases hr
          exact hsame
        | some range =>
          obtain ⟨lStart, lEnd⟩ := range
          rw [hrange] at hr
          dsimp only at hr
          have ht := @turn_cases s me ip ⟨arg.lType, lStart, lEnd⟩ setflck slpflck server
          have he := ht.effect (awake_of_none hme) (lockRange_le hrange) ?_
          · rwa [ht.finish_eq hme, hr] at he
          · intro hsl hserver found
            apply hC me ip ⟨arg.lType, lStart, lEnd⟩ found
            simp only [asks]
            rw [if_pos ⟨hsl.1, hsl.2, hbad⟩, hrange, hserver]
            rfl
    · rw [if_neg hme] at hrun
      cases hrun
  | wake me =>
    simp only [run] at hrun
    cases hme : s.call me with
    | none => simp [hme] at hrun
    | some c =>
      obtain ⟨ip, ld, setflck, - | sf⟩ := c
      · simp [hme] at hrun
      · rw [hme] at hrun
        dsimp only at hrun
        by_cases hslp : s.slp me = none
        · rw [if_pos hslp] at hrun
          cases hrun
          have he := Effect.leaves me _ sf (some ⟨ip, ld, setflck, none⟩) hme rfl
            (by rintro d ⟨⟩; exact ⟨rfl, rfl⟩)
          have hslp' : update s.slp me none = s.slp := by
            rw [← hslp, update_eq_self]
          rw [hslp'] at he
          exact he
        · rw [if_neg hslp] at hrun
          cases hrun
  | retry me =>
    simp only [run] at hrun
    cases hme : s.call me with
    | none => simp [hme] at hrun
    | some c =>
      obtain ⟨ip, ld, setflck, - | sf⟩ := c
      · rw [hme] at hrun
        dsimp only at hrun
        have hr := Option.some.inj hrun
        have ht := @turn_cases s me ip ld setflck true false
        have he := ht.effect ?_ (hord me _ hme) ?_
        · rwa [hr] at he
        · intro c hc
          rw [hme] at hc
          cases hc
          rfl
        · intro _ _ found
          apply hC me ip ld found
          simp only [asks, hme]
      · simp [hme] at hrun
  | interrupt me =>
    simp only [run] at hrun
    cases hme : s.call me with
    | none => simp [hme] at hrun
    | some c =>
      obtain ⟨ip, ld, setflck, - | sf⟩ := c
      · simp [hme] at hrun
      · rw [hme] at hrun
        cases hrun
        exact .leaves me _ sf none hme rfl (by rintro d ⟨⟩)
  | cleanlocks me ip ignPid =>
    simp only [run] at hrun
    by_cases hme : s.call me = none
    · rw [if_pos hme] at hrun
      cases hrun
      have he := Effect.adjust me (awake_of_none hme) ip _ _
        (@Rec.cleaned_kept ⟨⟨.unlck, 0, 0⟩, 0, s.frlock, []⟩ (s.files ip)
          fun r => cleans me ignPid r.lock.owner).2
      have hcall : update s.call me none = s.call := by
        rw [← hme, update_eq_self]
      rw [hcall] at he
      exact he
    · rw [if_neg hme] at hrun
      cases hrun

/-! ## The invariant -/

/-- What holds of the sleeping requests. -/
structure Inv (s : LockSys) : Prop where
  /-- Each address is on the free list, on `sleeplcks` or on the list of one file, once. -/
  pool : ∀ a i j, i ≠ j → s.frlock.count a + (s.sleeplcks.map Sleeper.addr).count a +
    ((s.files i).map Rec.addr).count a + ((s.files j).map Rec.addr).count a ≤ 1
  entry : ∀ e ∈ s.sleeplcks, ∃ c, s.call e.owner = some c ∧ c.sf = some e.addr
  has : ∀ p c sf, s.call p = some c → c.sf = some sf →
    ∃ e ∈ s.sleeplcks, e.addr = sf ∧ e.owner = p
  ordered : ∀ p c, s.call p = some c → c.ld.lStart ≤ c.ld.lEnd
  circle : Acyclic (Link s.blk)
  /-- A sleeper waits for a lock of the owner in `stat.blk` that will wake it. -/
  asleep : ∀ p a, s.slp p = some a → ∃ c, s.call p = some c ∧ ∃ e ∈ s.sleeplcks, e.owner = p ∧
    ∃ r ∈ s.files c.ip, r.addr = a ∧ InTheWay p c.ld r.lock ∧ r.lock.wakeflg ≠ 0 ∧
      e.blk = r.lock.owner

namespace Inv

section

variable (hI : s.Inv)

include hI

theorem nodup_sleepers : (s.sleeplcks.map Sleeper.addr).Nodup := by
  apply nodup_iff_count_le_one.mpr
  intro a
  have := hI.pool a 0 1 (by decide)
  omega

theorem nodup_files : ((s.files ip).map Rec.addr).Nodup := by
  apply nodup_iff_count_le_one.mpr
  intro a
  have := hI.pool a ip (ip + 1) (by omega)
  omega

/-- A process has one entry. -/
theorem entry_unique {e' : Sleeper} (he : e ∈ s.sleeplcks) (he' : e' ∈ s.sleeplcks)
    (ho : e.owner = e'.owner) : e = e' := by
  obtain ⟨c, hc, hsf⟩ := hI.entry e he
  obtain ⟨c', hc', hsf'⟩ := hI.entry e' he'
  rw [ho, hc'] at hc
  cases hc
  have haddr : e.addr = e'.addr := Option.some.inj (hsf.symm.trans hsf')
  exact inj_on_of_nodup_map hI.nodup_sleepers he he' haddr

theorem blk_of_mem (he : e ∈ s.sleeplcks) : s.blk e.owner = some e.blk := by
  unfold blk
  cases hf : s.sleeplcks.find? fun sf => sf.owner = e.owner with
  | none => simpa using List.find?_eq_none.mp hf e he
  | some e' =>
    have ho : e'.owner = e.owner := by simpa using List.find?_some hf
    rw [hI.entry_unique (mem_of_find?_eq_some hf) he ho]
    rfl

/-- An awake process does not sleep. -/
theorem slp_of_awake (hme : s.Awake me) : s.slp me = none := by
  by_contra h
  obtain ⟨a, ha⟩ := Option.ne_none_iff_exists'.mp h
  obtain ⟨c, hc, e, he, rfl, -⟩ := hI.asleep me a ha
  obtain ⟨c', hc', hsf⟩ := hI.entry e he
  rw [hc] at hc'
  cases hc'
  rw [hme c hc] at hsf
  cases hsf

/-- No entry belongs to an awake process. -/
theorem owner_ne (hme : s.Awake me) (he : e ∈ s.sleeplcks) : e.owner ≠ me := by
  rintro rfl
  obtain ⟨c, hc, hsf⟩ := hI.entry e he
  rw [hme c hc] at hsf
  cases hsf

/-- The loop of `deadflck` ends. -/
theorem deadflck_ends : s.deadflck me (s.sleeplcks.length + 1) o ≠ none := by
  have h : follow s.blk me ((s.sleeplcks.map Sleeper.owner).length + 1) o ≠ none := by
    apply follow_ends hI.circle
    intro a b hab
    obtain ⟨e, he, rfl, -⟩ := blk_mem hab
    exact mem_map_of_mem he
  rwa [length_map, ← deadflck_eq] at h

theorem ret (hme : s.Awake me) :
    Inv { s with call := update s.call me none } := by
  have hother : ∀ p c, p ≠ me → s.call p = some c → update s.call me none p = some c := by
    intro p c hp hc
    rwa [update_of_ne hp]
  have hback : ∀ p c, update s.call me none p = some c → s.call p = some c := by
    intro p c hc
    by_cases hp : p = me
    · rw [hp, update_self] at hc
      cases hc
    · rwa [update_of_ne hp] at hc
  refine ⟨hI.pool, ?_, fun p c sf hc => hI.has p c sf (hback p c hc),
    fun p c hc => hI.ordered p c (hback p c hc), hI.circle, ?_⟩
  · intro e he
    obtain ⟨c, hc, hsf⟩ := hI.entry e he
    exact ⟨c, hother _ c (hI.owner_ne hme he) hc, hsf⟩
  · intro p a hp
    obtain ⟨c, hc, h⟩ := hI.asleep p a hp
    refine ⟨c, hother p c ?_ hc, h⟩
    rintro rfl
    rw [hI.slp_of_awake hme] at hp
    cases hp

/-- A list is adjusted: whoever is still asleep sleeps on a lock that is kept. -/
theorem store {list : List Rec} {sc : Adj}
    (hk : Rec.Kept (s.files ip) list s.frlock sc.frlock sc.woken) : (s.store ip list sc).Inv := by
  refine ⟨?_, hI.entry, hI.has, hI.ordered, hI.circle, ?_⟩
  · intro a i j hij
    have hcount := hk.count a
    show sc.frlock.count a + (s.sleeplcks.map Sleeper.addr).count a +
      ((update s.files ip list i).map Rec.addr).count a +
      ((update s.files ip list j).map Rec.addr).count a ≤ 1
    by_cases hi : i = ip
    · have hj : j ≠ ip := fun h => hij (hi.trans h.symm)
      rw [hi, update_self, update_of_ne hj]
      have := hI.pool a ip j (Ne.symm hj)
      omega
    · rw [update_of_ne hi]
      have h1 := hI.pool a i ip hi
      rw [update_apply]
      split_ifs with hj
      · omega
      · have h2 := hI.pool a j ip hj
        have h3 := hI.pool a i j hij
        omega
  · intro p a hp
    have hwoken : ∀ b ∈ sc.woken, s.slp p ≠ some b := by
      intro b hb hs
      have : (s.store ip list sc).slp p = none := if_pos ⟨b, hb, hs⟩
      rw [this] at hp
      cases hp
    have hs : s.slp p = some a := by
      rwa [show (s.store ip list sc).slp p = s.slp p from
        if_neg fun ⟨b, hb, hs⟩ => hwoken b hb hs] at hp
    obtain ⟨c, hc, e, he, ho, r, hr, rfl, hway, hflg, hblk⟩ := hI.asleep p a hs
    refine ⟨c, hc, e, he, ho, r, ?_, rfl, hway, hflg, hblk⟩
    show r ∈ update s.files ip list c.ip
    by_cases hip : c.ip = ip
    · rw [hip, update_self]
      rw [hip] at hr
      rcases hk.stays r hr with h | h | h
      · exact h
      · exact absurd h hflg
      · exact absurd hs (hwoken _ h)
    · rwa [update_of_ne hip]

omit hI in
theorem bump_addr {list : List Rec} : (bump list found).map Rec.addr = list.map Rec.addr := by
  unfold bump
  rw [map_map]
  apply map_congr_left
  intro r _
  dsimp only [Function.comp]
  split_ifs <;> rfl

/-- The lock that a process sleeps on after a bump, with its flag still set. -/
theorem mem_bump (hf : found ∈ s.files ip) (hr : r ∈ s.files ip)
    (hw : (found.lock.wakeflg + 1) % 2 ^ 32 ≠ 0) (hflg : r.lock.wakeflg ≠ 0 ∨ r = found) :
    ∃ w, w ≠ 0 ∧ (⟨r.addr, { r.lock with wakeflg := w }⟩ : Rec) ∈ bump (s.files ip) found := by
  by_cases ha : r.addr = found.addr
  · obtain rfl := inj_on_of_nodup_map hI.nodup_files hr hf ha
    exact ⟨_, hw, mem_map.mpr ⟨r, hr, if_pos rfl⟩⟩
  · refine ⟨r.lock.wakeflg, ?_, mem_map.mpr ⟨r, hr, if_neg ha⟩⟩
    rcases hflg with h | rfl
    · exact h
    · exact absurd rfl ha

/-- A request sleeps: the new entry closes no circle. -/
theorem sleepOn {setflck : Bool} {a : ℕ} {fr : List ℕ} (hme : s.Awake me)
    (hld : ld.lStart ≤ ld.lEnd) (hb : Rec.blocked me (s.files ip) ld = .inl found)
    (hd : s.deadflck me (s.sleeplcks.length + 1) found.lock.owner = some false)
    (hfr : s.frlock = a :: fr) (hw : (found.lock.wakeflg + 1) % 2 ^ 32 ≠ 0) :
    (s.sleepOn me ip ld setflck found a fr).Inv := by
  obtain ⟨hf, hway⟩ := Rec.blocked_inl hld hb
  have hcall : ∀ p, p ≠ me →
      (s.sleepOn me ip ld setflck found a fr).call p = s.call p :=
    fun p hp => update_of_ne hp _ _
  have hcme : (s.sleepOn me ip ld setflck found a fr).call me = some ⟨ip, ld, setflck, some a⟩ :=
    update_self _ _ _
  have hfiles : ∀ i, ((s.sleepOn me ip ld setflck found a fr).files i).map Rec.addr =
      (s.files i).map Rec.addr := by
    intro i
    show ((update s.files ip (bump (s.files ip) found) i).map Rec.addr) = _
    rw [update_apply]
    split_ifs with hi
    · rw [hi, bump_addr]
    · rfl
  constructor
  · intro b i j hij
    have h := hI.pool b i j hij
    rw [hfr] at h
    rw [hfiles, hfiles]
    show fr.count b + (a :: s.sleeplcks.map Sleeper.addr).count b + _ + _ ≤ 1
    rw [count_cons] at h ⊢
    omega
  · intro e he
    rcases mem_cons.mp he with rfl | he
    · exact ⟨_, hcme, rfl⟩
    · rw [hcall _ (hI.owner_ne hme he)]
      exact hI.entry e he
  · intro p c sf hc hsf
    by_cases hp : p = me
    · rw [hp, hcme] at hc
      cases hc
      cases hsf
      exact ⟨_, mem_cons_self, rfl, hp.symm⟩
    · rw [hcall p hp] at hc
      obtain ⟨e, he, h⟩ := hI.has p c sf hc hsf
      exact ⟨e, mem_cons_of_mem _ he, h⟩
  · intro p c hc
    by_cases hp : p = me
    · rw [hp, hcme] at hc
      cases hc
      exact hld
    · rw [hcall p hp] at hc
      exact hI.ordered p c hc
  · rw [deadflck_eq] at hd
    apply acyclic_of_new hI.circle _ (follow_false hd)
    intro x y hxy
    have hx : (s.sleepOn me ip ld setflck found a fr).blk x = some y := hxy
    unfold blk LockSys.sleepOn at hx
    rw [List.find?_cons] at hx
    by_cases hxm : me = x
    · rw [decide_eq_true hxm] at hx
      exact .inr ⟨hxm.symm, (Option.some.inj hx).symm⟩
    · rw [decide_eq_false hxm] at hx
      exact .inl hx
  · intro p b hp
    by_cases hpm : p = me
    · rw [hpm]
      have hb' : found.addr = b := by
        rw [hpm, show (s.sleepOn me ip ld setflck found a fr).slp me = some found.addr from
          update_self _ _ _] at hp
        exact Option.some.inj hp
      obtain ⟨w, hw0, hr'⟩ := hI.mem_bump hf hf hw (.inr rfl)
      refine ⟨_, hcme, _, mem_cons_self, rfl,
        ⟨found.addr, { found.lock with wakeflg := w }⟩, ?_, hb', hway, hw0, rfl⟩
      show _ ∈ update s.files ip (bump (s.files ip) found) ip
      rwa [update_self]
    · have hs : s.slp p = some b := by
        rwa [show (s.sleepOn me ip ld setflck found a fr).slp p = s.slp p from
          update_of_ne hpm _ _] at hp
      obtain ⟨c, hc, e, he, ho, r, hr, haddr, hwayp, hflg, hblk⟩ := hI.asleep p b hs
      rw [hcall p hpm]
      refine ⟨c, hc, e, mem_cons_of_mem _ he, ho, ?_⟩
      show ∃ r ∈ update s.files ip (bump (s.files ip) found) c.ip, _
      by_cases hip : c.ip = ip
      · rw [hip] at hr ⊢
        obtain ⟨w, hw0, hr'⟩ := hI.mem_bump hf hr hw (.inl hflg)
        rw [update_self]
        exact ⟨_, hr', haddr, hwayp, hw0, hblk⟩
      · rw [update_of_ne hip]
        exact ⟨r, hr, haddr, hwayp, hflg, hblk⟩

/-- A sleeper takes its entry off the list. -/
theorem leaves {c : Pending} {sf : ℕ} {c' : Option Pending}
    (hc : s.call me = some c) (hsf : c.sf = some sf)
    (hc' : ∀ d, c' = some d → d.sf = none ∧ d.ld = c.ld) :
    Inv { s.unlinkSleeper sf with
      slp := update s.slp me none
      call := update s.call me c' } := by
  obtain ⟨e₀, he₀, haddr₀, hown₀⟩ := hI.has me c sf hc hsf
  obtain ⟨e₁, l₁, l₂, -, he₁, hl, hl'⟩ :=
    exists_of_eraseP (p := fun e => decide (e.addr = sf)) he₀ (decide_eq_true haddr₀)
  have hmem : ∀ e, e ∈ s.sleeplcks ↔ e = e₁ ∨ e ∈ l₁ ++ l₂ := by
    intro e
    rw [hl]
    simp only [mem_append, mem_cons]
    tauto
  obtain rfl : e₁ = e₀ := inj_on_of_nodup_map hI.nodup_sleepers ((hmem e₁).mpr (.inl rfl)) he₀
    ((of_decide_eq_true he₁).trans haddr₀.symm)
  have hleft : (s.unlinkSleeper sf).sleeplcks = l₁ ++ l₂ := hl'
  -- the entries left are those of the others
  have hother : ∀ e, e ∈ l₁ ++ l₂ ↔ e ∈ s.sleeplcks ∧ e.owner ≠ me := by
    intro e
    constructor
    · intro he
      refine ⟨(hmem e).mpr (.inr he), fun ho => ?_⟩
      obtain rfl := hI.entry_unique ((hmem e).mpr (.inr he)) he₀ (ho.trans hown₀.symm)
      have hnd := hI.nodup_sleepers
      rw [hl, map_append, map_cons] at hnd
      have := (nodup_middle.mp hnd).notMem
      rw [← map_append] at this
      exact this (mem_map_of_mem he)
    · rintro ⟨he, ho⟩
      rcases (hmem e).mp he with rfl | he
      · exact absurd hown₀ ho
      · exact he
  have hcall : ∀ p, p ≠ me → update s.call me c' p = s.call p :=
    fun p hp => update_of_ne hp _ _
  constructor
  · intro a i j hij
    have h := hI.pool a i j hij
    show (sf :: s.frlock).count a + ((s.unlinkSleeper sf).sleeplcks.map Sleeper.addr).count a +
      ((s.files i).map Rec.addr).count a + ((s.files j).map Rec.addr).count a ≤ 1
    rw [hleft]
    rw [hl] at h
    simp only [map_append, map_cons, count_append, count_cons, haddr₀] at h ⊢
    omega
  · intro e he
    obtain ⟨hes, ho⟩ := (hother e).mp (hleft ▸ he)
    show ∃ d, update s.call me c' e.owner = some d ∧ _
    rw [hcall _ ho]
    exact hI.entry e hes
  · intro p d sf' hd hsf'
    have hd' : update s.call me c' p = some d := hd
    by_cases hp : p = me
    · rw [hp, update_self] at hd'
      rw [(hc' d hd').1] at hsf'
      cases hsf'
    · rw [hcall p hp] at hd'
      obtain ⟨e, he, haddr, ho⟩ := hI.has p d sf' hd' hsf'
      refine ⟨e, ?_, haddr, ho⟩
      show e ∈ (s.unlinkSleeper sf).sleeplcks
      rw [hleft]
      exact (hother e).mpr ⟨he, fun h => hp (ho.symm.trans h)⟩
  · intro p d hd
    have hd' : update s.call me c' p = some d := hd
    by_cases hp : p = me
    · rw [hp, update_self] at hd'
      rw [(hc' d hd').2]
      exact hI.ordered me c hc
    · rw [hcall p hp] at hd'
      exact hI.ordered p d hd'
  · apply hI.circle.mono
    intro x y hxy
    obtain ⟨e, he, rfl, rfl⟩ := blk_mem hxy
    exact hI.blk_of_mem ((hother e).mp (hleft ▸ he)).1
  · intro p a hp
    have hp' : update s.slp me none p = some a := hp
    have hpm : p ≠ me := by
      rintro rfl
      rw [update_self] at hp'
      cases hp'
    rw [update_of_ne hpm] at hp'
    obtain ⟨d, hd, e, he, ho, h⟩ := hI.asleep p a hp'
    refine ⟨d, (hcall p hpm).trans hd, e, ?_, ho, h⟩
    show e ∈ (s.unlinkSleeper sf).sleeplcks
    rw [hleft]
    exact (hother e).mpr ⟨he, ho ▸ hpm⟩

/-- **Every event keeps the invariant.** -/
theorem effect (h : Effect s t) : t.Inv := by
  cases h with
  | ret me hme => exact hI.ret hme
  | adjust me hme ip list sc hk => exact (hI.store hk).ret hme
  | sleeps me hme ip ld setflck found a fr hld hb hd hfr hw =>
    exact hI.sleepOn hme hld hb hd hfr hw
  | leaves me c sf c' hc hsf hc' => exact hI.leaves hc hsf hc'

end

theorem init {recs : ℕ} : (LockSys.init recs).Inv := by
  constructor
  · intro a i j _
    show (List.range recs).reverse.count a + 0 + 0 + 0 ≤ 1
    exact nodup_iff_count_le_one.mp (nodup_reverse.mpr nodup_range) a
  · intro e he
    cases he
  · intro p c sf hc
    cases hc
  · intro p c hc
    cases hc
  · intro p hp
    obtain ⟨q, h, -⟩ := Relation.TransGen.head'_iff.mp hp
    cases h
  · intro p a hp
    cases hp

end Inv

theorem Inv.run {recs : ℕ} {es : List SleepEvent}
    (h : exec LockSys.step (LockSys.init recs) es = some s)
    (hC : StepsMeet NoWrap LockSys.step (LockSys.init recs) es) : s.Inv :=
  exec_invariant (fun _ _ _ hI hC h => hI.effect (step_effect hI.ordered hC h)) Inv.init hC h

/-! ## The results -/

/-- `p` is asleep, not yet woken, on a lock of `q` that is on the list of its file and in
the way of its request. -/
def Waits (s : LockSys) (p q : Owner) : Prop :=
  ∃ c r, s.call p = some c ∧ s.slp p = some r.addr ∧ r ∈ s.files c.ip ∧
    InTheWay p c.ld r.lock ∧ r.lock.owner = q

theorem Inv.waits_link (hI : s.Inv) (h : s.Waits p q) : Link s.blk p q := by
  obtain ⟨c, r, hc, hs, hr, -, rfl⟩ := h
  obtain ⟨c', hc', e, he, rfl, r', hr', haddr, -, -, hblk⟩ := hI.asleep p _ hs
  rw [hc] at hc'
  cases hc'
  obtain rfl := inj_on_of_nodup_map hI.nodup_files hr' hr haddr
  rw [← hblk]
  exact hI.blk_of_mem he

/-- Where the chain goes on from a process that is still asleep, the process waits. -/
theorem Inv.link_waits (hI : s.Inv) (h : Link s.blk p q) (hp : s.slp p ≠ none) : s.Waits p q := by
  obtain ⟨a, ha⟩ := Option.ne_none_iff_exists'.mp hp
  obtain ⟨c, hc, e, he, rfl, r, hr, rfl, hway, -, hblk⟩ := hI.asleep p a ha
  refine ⟨c, r, hc, ha, hr, hway, ?_⟩
  have hl : s.blk e.owner = some q := h
  rw [hI.blk_of_mem he, hblk] at hl
  exact Option.some.inj hl

/-- **Sleeping lock requests are neither lost nor deadlocked**, while no flag of a lock
wraps around: in every state reached, who is asleep sleeps on a lock that is on the list of
the file and in the way; the chains of `deadflck` do not run in a circle, so that its loop
ends; and nobody waits for itself over any number of others. -/
theorem sleepers_wait {recs : ℕ} {es : List SleepEvent}
    (h : exec LockSys.step (LockSys.init recs) es = some s)
    (hC : StepsMeet NoWrap LockSys.step (LockSys.init recs) es) :
    (∀ p a, s.slp p = some a → ∃ c r, s.call p = some c ∧ r ∈ s.files c.ip ∧ r.addr = a ∧
      InTheWay p c.ld r.lock) ∧
    Acyclic (Link s.blk) ∧ (∀ me o, s.deadflck me (s.sleeplcks.length + 1) o ≠ none) ∧
    Acyclic s.Waits := by
  have hI := Inv.run h hC
  refine ⟨?_, hI.circle, fun _ _ => hI.deadflck_ends, hI.circle.mono fun _ _ => hI.waits_link⟩
  intro p a hp
  obtain ⟨c, hc, e, -, -, r, hr, ha, hway, -⟩ := hI.asleep p a hp
  exact ⟨c, r, hc, hr, ha, hway⟩

theorem zero_long : -2 ^ 31 ≤ (0 : ℤ) ∧ (0 : ℤ) < 2 ^ 31 := by norm_num

/-- A call that locks the first ten bytes of a file open for both. -/
def lockTen (pid : ℤ) (ip : ℕ) (ty : LockType) (slpflck : Bool) : SleepEvent :=
  .reclock ⟨pid, 0⟩ ip ⟨0, zero_long⟩ ⟨0, zero_long⟩ true true
    ⟨ty, 0, ⟨0, zero_long⟩, ⟨10, by norm_num⟩⟩ true slpflck false

theorem sleepers_wait_one :
    ∃ s, exec LockSys.step (LockSys.init 4) [lockTen 1 0 .wrlck false, lockTen 2 0 .wrlck true] =
      some s ∧ ∃ c r, s.call ⟨2, 0⟩ = some c ∧ r ∈ s.files c.ip ∧ r.addr = 3 ∧
        InTheWay ⟨2, 0⟩ c.ld r.lock := by
  have hC : StepsMeet NoWrap LockSys.step (LockSys.init 4)
      [lockTen 1 0 .wrlck false, lockTen 2 0 .wrlck true] :=
    .cons rfl (noWrap_of_none rfl) (.cons rfl (noWrap_of_blocked rfl rfl (by decide)) trivial)
  exact ⟨_, rfl, (sleepers_wait rfl hC).1 ⟨2, 0⟩ 3 rfl⟩

/-- Where `EDEADLK` comes from. -/
theorem TurnCases.edeadlk {r : LockRet × LockSys}
    (h : TurnCases s me ip ld setflck slpflck server r) (hr : r.1 = .EDEADLK) :
    slpflck ∧ (ld.lType = .rdlck ∨ ld.lType = .wrlck) ∧ ∃ found,
      Rec.blocked me (s.files ip) ld = .inl found ∧
      s.deadflck me (s.sleeplcks.length + 1) found.lock.owner = some true := by
  cases h with
  | same ret hret => exact absurd hr hret.2
  | adjust ret hret => exact absurd hr hret.2
  | deadlock found hsl hb hd => exact ⟨hsl.1, hsl.2, found, hb, hd⟩
  | sleeps => cases hr

theorem run_edeadlk {ev : SleepEvent} (h : s.run ev = some (.EDEADLK, t)) :
    ∃ me ip ld server found, s.asks ev = some (me, ip, ld, server) ∧ s.Awake me ∧
      Rec.blocked me (s.files ip) ld = .inl found ∧
      s.deadflck me (s.sleeplcks.length + 1) found.lock.owner = some true := by
  cases ev with
  | reclock me ip iSize offset fread fwrite arg setflck slpflck server =>
    simp only [run] at h
    by_cases hme : s.call me = none
    · rw [if_pos hme] at h
      have hr := Option.some.inj h
      unfold reclock at hr
      by_cases hbad : setflck ∧ ((arg.lType = .rdlck ∧ ¬ fread) ∨ (arg.lType = .wrlck ∧ ¬ fwrite))
      · rw [if_pos hbad] at hr
        cases hr
      · rw [if_neg hbad] at hr
        cases hrange : lockRange iSize offset arg with
        | none =>
          rw [hrange] at hr
          cases hr
        | some range =>
          obtain ⟨lStart, lEnd⟩ := range
          rw [hrange] at hr
          dsimp only at hr
          obtain ⟨hsl, hty, found, hb, hd⟩ :=
            (@turn_cases s me ip ⟨arg.lType, lStart, lEnd⟩ setflck slpflck server).edeadlk
              (congrArg Prod.fst hr)
          refine ⟨me, ip, ⟨arg.lType, lStart, lEnd⟩, server, found, ?_, awake_of_none hme, hb, hd⟩
          simp only [asks]
          rw [if_pos ⟨hsl, hty, hbad⟩, hrange]
          rfl
    · rw [if_neg hme] at h
      cases h
  | retry me =>
    simp only [run] at h
    cases hme : s.call me with
    | none => simp [hme] at h
    | some c =>
      obtain ⟨ip, ld, setflck, - | sf⟩ := c
      · rw [hme] at h
        have hr := Option.some.inj h
        have hfst : (s.turn me ip ld setflck true false).1 = .EDEADLK := by
          unfold finish at hr
          split_ifs at hr with hs
          · exact congrArg Prod.fst hr
          · exact congrArg Prod.fst hr
        obtain ⟨-, -, found, hb, hd⟩ := (@turn_cases s me ip ld setflck true false).edeadlk hfst
        refine ⟨me, ip, ld, false, found, by simp only [asks, hme], ?_, hb, hd⟩
        intro c hc
        rw [hme] at hc
        cases hc
        rfl
      · simp [hme] at h
  | wake me =>
    simp only [run] at h
    split at h
    · split_ifs at h
      cases h
    · cases h
  | interrupt me =>
    simp only [run] at h
    split at h <;> cases h
  | cleanlocks me ip ignPid =>
    simp only [run] at h
    split_ifs at h
    cases h

/-- **When `EDEADLK` is not spurious**, while no flag of a lock wraps around: a request that
gets it would have closed a circle of waiting processes, if and only if none of the
processes that `deadflck` passes has been woken and not run yet. -/
theorem edeadlk_exact {recs : ℕ} {es : List SleepEvent} {ev : SleepEvent}
    (h : exec LockSys.step (LockSys.init recs) es = some s)
    (hC : StepsMeet NoWrap LockSys.step (LockSys.init recs) es)
    (hrun : s.run ev = some (.EDEADLK, t)) :
    ∃ me ip ld server found, s.asks ev = some (me, ip, ld, server) ∧
      Rec.blocked me (s.files ip) ld = .inl found ∧
      (Relation.ReflTransGen s.Waits found.lock.owner me ↔
        ∀ o, Relation.ReflTransGen (Link s.blk) found.lock.owner o → o ≠ me → s.slp o ≠ none) := by
  have hI := Inv.run h hC
  obtain ⟨me, ip, ld, server, found, ha, hme, hb, hd⟩ := run_edeadlk hrun
  refine ⟨me, ip, ld, server, found, ha, hb, ?_⟩
  apply reach_iff
  · intro p q
    constructor
    · intro hw
      obtain ⟨c, r, -, hs, -⟩ := id hw
      exact ⟨hI.waits_link hw, by simp [hs]⟩
    · rintro ⟨hl, hp⟩
      exact hI.link_waits hl hp
  · -- the caller has no entry
    by_contra hn
    obtain ⟨q, hq⟩ := Option.ne_none_iff_exists'.mp hn
    obtain ⟨e, he, ho, -⟩ := blk_mem hq
    exact hI.owner_ne hme he ho
  · rw [deadflck_eq] at hd
    exact follow_true hd

theorem edeadlk_exact_circle :
    ∃ s t, exec LockSys.step (LockSys.init 4)
        [lockTen 1 0 .wrlck false, lockTen 2 1 .wrlck false, lockTen 2 0 .wrlck true] = some s ∧
      s.run (lockTen 1 1 .wrlck true) = some (.EDEADLK, t) ∧
      ∃ me ip ld server found,
        s.asks (lockTen 1 1 .wrlck true) = some (me, ip, ld, server) ∧
        Rec.blocked me (s.files ip) ld = .inl found ∧
        (Relation.ReflTransGen s.Waits found.lock.owner me ↔
          ∀ o, Relation.ReflTransGen (Link s.blk) found.lock.owner o → o ≠ me → s.slp o ≠ none) := by
  have hC : StepsMeet NoWrap LockSys.step (LockSys.init 4)
      [lockTen 1 0 .wrlck false, lockTen 2 1 .wrlck false, lockTen 2 0 .wrlck true] :=
    .cons rfl (noWrap_of_none rfl) (.cons rfl (noWrap_of_none rfl)
      (.cons rfl (noWrap_of_blocked rfl rfl (by decide)) trivial))
  exact ⟨_, _, rfl, rfl, edeadlk_exact rfl hC rfl⟩

/-- Process 1 has unlocked what process 2, woken but not run yet, slept on: nothing is in
the way of process 2 any more when process 1 is refused. -/
theorem edeadlk_woken :
    ∃ s t r, exec LockSys.step (LockSys.init 4) [lockTen 1 0 .wrlck false, lockTen 2 1 .wrlck false,
        lockTen 2 0 .wrlck true, lockTen 1 0 .unlck false] = some s ∧
      s.run (lockTen 1 1 .wrlck true) = some (.EDEADLK, t) ∧
      Rec.blocked ⟨1, 0⟩ (s.files 1) ⟨.wrlck, 0, 9⟩ = .inl r ∧ r.lock.owner = ⟨2, 0⟩ ∧
      ∀ c, s.call ⟨2, 0⟩ = some c → s.files c.ip = [] := by
  refine ⟨_, _, _, rfl, rfl, rfl, rfl, ?_⟩
  intro c hc
  cases hc
  rfl

/-! ## A flag that wraps around -/

/-- Process 1 has a lock, process 2 sleeps on it, and its flag is `w`. -/
def parked (w : ℕ) : LockSys where
  files := update (fun _ => []) 0 [⟨2, ⟨.wrlck, 0, 9⟩, ⟨1, 0⟩, w⟩]
  frlock := [0]
  sleeplcks := [⟨1, ⟨.wrlck, 0, 9⟩, ⟨2, 0⟩, ⟨1, 0⟩⟩]
  slp := update (fun _ => none) ⟨2, 0⟩ (some 2)
  call := update (fun _ => none) ⟨2, 0⟩ (some ⟨0, ⟨.wrlck, 0, 9⟩, true, some 1⟩)

/-- A third process asks for the lock and is interrupted. -/
theorem parked_step (w : ℕ) :
    exec LockSys.step (parked w) [lockTen 3 0 .wrlck true, .interrupt ⟨3, 0⟩] =
      some (parked ((w + 1) % 2 ^ 32)) := by
  have hback : ∀ {β : Type} (f : Owner → Option β) (b : Option β), f ⟨3, 0⟩ = none →
      update (update f ⟨3, 0⟩ b) ⟨3, 0⟩ none = f := by
    intro β f b hf
    rw [update_idem, ← hf, update_eq_self]
  have h : exec LockSys.step (parked w) [lockTen 3 0 .wrlck true, .interrupt ⟨3, 0⟩] =
      some { parked w with
        files := update (parked w).files 0
          [⟨2, ⟨.wrlck, 0, 9⟩, ⟨1, 0⟩, (w + 1) % 2 ^ 32⟩]
        slp := update (update (parked w).slp ⟨3, 0⟩ (some 2)) ⟨3, 0⟩ none
        call := update (update (parked w).call ⟨3, 0⟩
          (some ⟨0, ⟨.wrlck, 0, 9⟩, true, some 0⟩)) ⟨3, 0⟩ none } := rfl
  rw [h, hback _ _ rfl, hback _ _ rfl]
  unfold parked
  rw [update_idem]

theorem parked_run (w k : ℕ) (hw : w < 2 ^ 32) :
    exec LockSys.step (parked w)
      (List.replicate k [lockTen 3 0 .wrlck true, .interrupt ⟨3, 0⟩]).flatten =
        some (parked ((w + k) % 2 ^ 32)) := by
  induction k with
  | zero =>
    rw [Nat.add_zero, Nat.mod_eq_of_lt hw]
    rfl
  | succ k ih =>
    rw [replicate_succ', flatten_append, flatten_singleton, exec_append]
    refine ⟨_, ih, ?_⟩
    rw [parked_step, Nat.mod_add_mod, Nat.add_assoc]

/-- **A sleeper that nobody wakes**: when the flag has wrapped around, process 1 unlocks. -/
theorem wakeflg_wraps :
    ∃ es s, exec LockSys.step (LockSys.init 3) es = some s ∧ s.slp ⟨2, 0⟩ = some 2 ∧
      s.call ⟨2, 0⟩ = some ⟨0, ⟨.wrlck, 0, 9⟩, true, some 1⟩ ∧ s.files 0 = [] := by
  have h1 : exec LockSys.step (LockSys.init 3) [lockTen 1 0 .wrlck false, lockTen 2 0 .wrlck true] =
      some (parked 1) := by
    have h : exec LockSys.step (LockSys.init 3)
        [lockTen 1 0 .wrlck false, lockTen 2 0 .wrlck true] = some { parked 1 with
          files := update
            (update (fun _ => []) 0 [⟨2, ⟨.wrlck, 0, 9⟩, ⟨1, 0⟩, 0⟩]) 0
            [⟨2, ⟨.wrlck, 0, 9⟩, ⟨1, 0⟩, 1⟩] } := rfl
    rw [h, update_idem]
    rfl
  obtain ⟨n, hn⟩ : ∃ n, 1 + n = 2 ^ 32 := ⟨2 ^ 32 - 1, by norm_num⟩
  have h2 := parked_run 1 n (by norm_num)
  rw [hn, Nat.mod_self] at h2
  have h3 : ∃ s, exec LockSys.step (parked 0) [lockTen 1 0 .unlck false] = some s ∧
      s.slp ⟨2, 0⟩ = some 2 ∧ s.call ⟨2, 0⟩ = some ⟨0, ⟨.wrlck, 0, 9⟩, true, some 1⟩ ∧
      s.files 0 = [] := ⟨_, rfl, rfl, rfl, rfl⟩
  obtain ⟨s, hs, h⟩ := h3
  exact ⟨_, s, exec_append.mpr ⟨_, h1, exec_append.mpr ⟨_, h2, hs⟩⟩, h⟩

end LockSys

end Os
