import OpusSysV.Io.MsgSegs

/-!
# Senders that wait for room

* `WaitInv` — a process asleep for room in a queue is at `getres`, `MSG_WWAIT` is set,
  and its message does not fit; `WaitInv.run` keeps it, event by event.
* `MakesRoom` — the one event that breaks it: an `IPC_SET` that raises `msg_qbytes`
  far enough for a message that waits.
* `no_wasted_room` — in every run without such an event no sender waits for room that
  exists, and one such event makes it do so.
-/

namespace Io

open Lib MsgState Function Option

/-- No process sleeps for room that its message would find. -/
def NoWaste (s : MsgState) : Prop :=
  ∀ x a qp type slept, s.slp x = some (.room qp) → s.proc x = .getres a qp type slept →
    a.msgsz + s.msgCbytes qp > s.msgQbytes qp

/-- An `IPC_SET` of `msg_qbytes` that lets in the message of a process that sleeps for room. -/
def MakesRoom (s : MsgState) (e : MsgEvent) : Prop :=
  ∃ p env qp, e = .go p env ∧ s.proc p = .ctlCopy qp true ∧ env.fault = false ∧
    ¬ (env.qbytes.1 > s.msgQbytes qp ∧ ¬ env.suser) ∧
    ∃ x a type slept, s.slp x = some (.room qp) ∧ s.proc x = .getres a qp type slept ∧
      a.msgsz + s.msgCbytes qp ≤ env.qbytes.1

/-- What the wakeup of senders rests on. -/
structure WaitInv (s : MsgState) : Prop where
  place : ∀ x qp, s.slp x = some (.room qp) → ∃ a type slept, s.proc x = .getres a qp type slept
  wwait : ∀ x qp, s.slp x = some (.room qp) → s.msgWwait qp = true ∧ s.ipcAlloc qp = true
  full : NoWaste s

/-- The fields that a sleeping sender depends on. -/
def MsgState.room (s : MsgState) : (ℕ → Bool) × (ℕ → Bool) × (ℕ → ℕ) × (ℕ → ℕ) :=
  (s.msgWwait, s.ipcAlloc, s.msgQbytes, s.msgCbytes)

section wait

variable {cfg : MsgInfo} {s t u : MsgState} {fl : List ℕ} {ql : ℕ → List ℕ}
  {loc : ℕ → Option Place} {p qp : ℕ} {x : MsgProc} {o : Option MsgRet} {env : MsgEnv}

section

variable (hW : WaitInv s)

include hW

/-- Whoever sleeps for room after a step did so before, and has no more room. -/
theorem WaitInv.keep
    (h : ∀ x q, t.slp x = some (.room q) → s.slp x = some (.room q) ∧ t.proc x = s.proc x ∧
      (t.msgWwait q = true ∧ t.ipcAlloc q = true) ∧ t.msgQbytes q ≤ s.msgQbytes q ∧
        s.msgCbytes q ≤ t.msgCbytes q) : WaitInv t := by
  refine ⟨fun x q hx => ?_, fun x q hx => (h x q hx).2.2.1, fun x a q type slept hx hproc => ?_⟩
  · obtain ⟨hs, hp, -⟩ := h x q hx
    rw [hp]
    exact hW.place x q hs
  · obtain ⟨hs, hp, -, hqb, hcb⟩ := h x q hx
    rw [hp] at hproc
    have := hW.full x a q type slept hs hproc
    omega

/-- A step of `p`, which is awake, that changes nothing for the sleepers. -/
theorem WaitInv.calm (hp : t.slp p = none)
    (hslp : ∀ x ch, t.slp x = some ch → s.slp x = some ch) (hroom : t.room = s.room)
    (hproc : t.proc = update s.proc p x) : WaitInv t := by
  simp only [MsgState.room, Prod.mk.injEq] at hroom
  obtain ⟨hww, hal, hqb, hcb⟩ := hroom
  refine hW.keep fun y q hy => ⟨hslp y _ hy, ?_, ?_, by rw [hqb], by rw [hcb]⟩
  · rw [hproc, update_of_ne]
    rintro rfl
    rw [hp] at hy
    cases hy
  · rw [hww, hal]
    exact hW.wwait y q (hslp y _ hy)

/-- A step of `p` that changes nothing for the queues. -/
theorem WaitInv.still {r : Option MsgRet} (hp : s.slp p = none)
    (ht : (some (r, u) : Ran) = some (o, t)) (hslp : u.slp = s.slp) (hroom : u.room = s.room)
    (hproc : u.proc = update s.proc p x) : WaitInv t := by
  cases ht
  exact hW.calm (hslp ▸ hp) (fun _ _ h => hslp ▸ h) hroom hproc

omit hW in
/-- A step of `p` that leaves nobody asleep for room in the queue `qp`. -/
theorem WaitInv.woken (qp : ℕ) (hW : WaitInv s) (hp : t.slp p = none)
    (hslp : ∀ x ch, t.slp x = some ch → s.slp x = some ch)
    (hwoken : ∀ x, t.slp x ≠ some (.room qp))
    (hroom : ∀ q, q ≠ qp → t.msgWwait q = s.msgWwait q ∧ t.ipcAlloc q = s.ipcAlloc q ∧
      t.msgQbytes q = s.msgQbytes q ∧ t.msgCbytes q = s.msgCbytes q)
    (hproc : t.proc = update s.proc p x) : WaitInv t := by
  refine hW.keep fun y q hy => ?_
  have hq : q ≠ qp := by
    rintro rfl
    exact hwoken y hy
  obtain ⟨hww, hal, hqb, hcb⟩ := hroom q hq
  have hyp : y ≠ p := by
    rintro rfl
    rw [hp] at hy
    cases hy
  refine ⟨hslp y _ hy, ?_, ?_, hqb.le, hcb.ge⟩
  · rw [hproc, update_of_ne hyp]
  · rw [hww, hal]
    exact hW.wwait y q (hslp y _ hy)

/-- The process sleeps, not for room. -/
theorem WaitInv.sleep {ch : MsgChan} (hch : ∀ q, ch ≠ .room q)
    (hslp : t.slp = update u.slp p (some ch))
    (hu : ∀ x ch, u.slp x = some ch → s.slp x = some ch) (hroom : t.room = s.room)
    (hproc : t.proc = update s.proc p x) : WaitInv t := by
  simp only [MsgState.room, Prod.mk.injEq] at hroom
  obtain ⟨hww, hal, hqb, hcb⟩ := hroom
  refine hW.keep fun y q hy => ?_
  have hyp : y ≠ p := by
    rintro rfl
    rw [hslp, update_self] at hy
    exact hch q (Option.some.inj hy)
  rw [hslp, update_of_ne hyp] at hy
  refine ⟨hu y _ hy, ?_, ?_, by rw [hqb], by rw [hcb]⟩
  · rw [hproc, update_of_ne hyp]
  · rw [hww, hal]
    exact hW.wwait y q (hu y _ hy)

omit hW in
theorem slp_none (hp : s.slp p = none) (hslp : ∀ x ch, t.slp x = some ch → s.slp x = some ch) :
    t.slp p = none := by
  cases h : t.slp p with
  | none => rfl
  | some ch =>
    have := hslp p ch h
    rw [hp] at this
    cases this

/-! ## The places of `msgsnd` -/

section

variable (hp : s.slp p = none)

include hp

theorem WaitInv.msgsndStart {a : SndArgs}
    (ht : s.msgsndStart cfg p env a = some (o, t)) : WaitInv t := by
  unfold MsgState.msgsndStart at ht
  cases hc : s.msgconv cfg a.msqid <;> rw [hc] at ht <;> dsimp only at ht
  · cases ht
  · exact hW.still hp ht rfl rfl rfl
  · split_ifs at ht <;> exact hW.still hp ht rfl rfl rfl

theorem WaitInv.msgsndType {a : SndArgs}
    (ht : s.msgsndType p env a qp = some (o, t)) : WaitInv t := by
  unfold MsgState.msgsndType at ht
  split_ifs at ht <;> exact hW.still hp ht rfl rfl rfl

omit hp in
/-- A message that does not fit makes its sender sleep. -/
theorem WaitInv.sleepRoom {a : SndArgs} {type : ℤ}
    (halloc : s.ipcAlloc qp = true) (hfull : a.msgsz + s.msgCbytes qp > s.msgQbytes qp) :
    WaitInv (((((s.setWwait qp true).setLock qp false).sleep p (.room qp)).setProc p
      (.getres a qp type (some (.room qp))))) := by
  have hslp : ∀ y q, y ≠ p → update s.slp p (some (.room qp)) y = some (.room q) →
      s.slp y = some (.room q) := by
    intro y q hy h
    rwa [update_of_ne hy] at h
  have hself : ∀ q, update s.slp p (some (.room qp)) p = some (.room q) → q = qp := by
    intro q h
    rw [update_self] at h
    exact (MsgChan.room.inj (Option.some.inj h)).symm
  refine ⟨fun y q hy => ?_, fun y q hy => ?_, fun y b q type' slept hy hproc => ?_⟩
  · show ∃ a' type' slept, update s.proc p _ y = .getres a' q type' slept
    by_cases hyp : y = p
    · subst hyp
      rw [hself q hy, update_self]
      exact ⟨_, _, _, rfl⟩
    · rw [update_of_ne hyp]
      exact hW.place y q (hslp y q hyp hy)
  · show update s.msgWwait qp true q = true ∧ s.ipcAlloc q = true
    rw [update_apply]
    split_ifs with hq
    · rw [hq]
      exact ⟨rfl, halloc⟩
    · by_cases hyp : y = p
      · subst hyp
        exact absurd (hself q hy) hq
      · exact hW.wwait y q (hslp y q hyp hy)
  · by_cases hyp : y = p
    · subst hyp
      have hproc' : update s.proc y (.getres a qp type (some (.room qp))) y =
          .getres b q type' slept := hproc
      rw [update_self] at hproc'
      cases hproc'
      exact hfull
    · have hproc' : update s.proc p (.getres a qp type (some (.room qp))) y =
          .getres b q type' slept := hproc
      rw [update_of_ne hyp] at hproc'
      exact hW.full y b q type' slept (hslp y q hyp hy) hproc'

theorem WaitInv.msgsndGetres {a : SndArgs} {type : ℤ}
    (ht : s.msgsndGetres cfg p a qp type = some (o, t)) : WaitInv t := by
  unfold MsgState.msgsndGetres at ht
  cases hc : s.msgconv cfg a.msqid with
  | busy => rw [hc] at ht; cases ht
  | einval =>
    rw [hc] at ht
    exact hW.still hp ht rfl rfl rfl
  | qp qp1 =>
    rw [hc] at ht
    obtain ⟨-, halloc, -⟩ := msgconv_qp hc
    dsimp only at ht
    by_cases h1 : qp1 ≠ qp
    · rw [if_pos h1] at ht
      exact hW.still hp ht rfl rfl rfl
    rw [if_neg h1] at ht
    rw [not_not.mp h1] at halloc
    by_cases hfull : a.msgsz + s.msgCbytes qp > s.msgQbytes qp
    · rw [if_pos hfull] at ht
      split_ifs at ht <;> cases ht
      · exact hW.calm hp (fun _ _ h => h) rfl rfl
      · exact hW.sleepRoom halloc hfull
    rw [if_neg hfull] at ht
    cases hfp : s.msgfp with
    | none =>
      rw [hfp] at ht
      dsimp only at ht
      split_ifs at ht <;> cases ht
      · exact hW.calm hp (fun _ _ h => h) rfl rfl
      · exact hW.sleep (u := s) (by simp) rfl (fun _ _ h => h) rfl rfl
    | some mp =>
      rw [hfp] at ht
      dsimp only at ht
      split at ht
      · exact hW.still hp ht rfl rfl rfl
      cases hm : Os.malloc s.msgmap (cfg.btoq a.msgsz.toNat) with
      | none => rw [hm] at ht; cases ht
      | some r =>
        rw [hm] at ht
        dsimp only at ht
        have hslp : ∀ m y ch, ({ s with msgfp := s.msgNext mp, msgmap := m }.freeHeader mp).slp y =
            some ch → s.slp y = some ch := fun m y ch hy => slp_of_wakeup hy
        split_ifs at ht <;> cases ht
        · exact hW.calm hp (fun _ _ h => h) rfl rfl
        · exact hW.calm (slp_none hp (hslp r.2)) (hslp r.2) rfl rfl
        · exact hW.sleep (u := ({ s with
            msgfp := s.msgNext mp
            msgmap := { r.2 with mapwant := (r.2.mapwant + 1) % Os.wordSize } } :
              MsgState).freeHeader mp) (by simp) rfl (hslp _) rfl rfl

theorem WaitInv.msgsndIntr {a : SndArgs} {room : Bool}
    (ht : s.msgsndIntr cfg p a qp room = some (o, t)) : WaitInv t := by
  unfold MsgState.msgsndIntr at ht
  cases hc : s.msgconv cfg a.msqid <;> rw [hc] at ht <;> dsimp only at ht
  · cases ht
  · exact hW.still hp ht rfl rfl rfl
  · split_ifs at ht <;> cases ht
    · exact hW.calm hp (fun _ _ h => h) rfl rfl
    · have hslp : ∀ y ch, ((s.setWwait qp false).wakeup (.room qp) true).slp y = some ch →
          s.slp y = some ch := fun y ch hy => slp_of_wakeup (s := s.setWwait qp false) hy
      refine hW.woken qp (slp_none hp hslp) hslp
        (fun y => wakeup_wakes (s := s.setWwait qp false) fun _ => rfl) (fun q hq => ?_) rfl
      exact ⟨update_of_ne hq _ _, rfl, rfl, rfl⟩
    · exact hW.calm hp (fun _ _ h => h) rfl rfl

omit hp in
theorem WaitInv.msgsndMove {a : SndArgs} {type : ℤ} {mp spot : ℕ}
    (hI : MsgInv cfg s fl ql loc) (hp : s.slp p = none)
    (hproc : s.proc p = .sndMove a qp type mp spot)
    (ht : s.msgsndMove cfg p env a qp type mp spot = some (o, t)) : WaitInv t := by
  unfold MsgState.msgsndMove at ht
  split at ht
  · obtain ⟨u, hu, ht⟩ := bind_eq_some_iff.mp ht
    obtain ⟨r, -, rfl⟩ := map_eq_some_iff.mp hu
    cases ht
    have hslp : ∀ y ch, (({ s.wakeup .msgmap (r.2 = .freed true) with
        msgmap := r.1
        lost := s.lost + if r.2 = .overflow then 1 else 0 } : MsgState).freeHeader mp).slp y =
          some ch → s.slp y = some ch := fun y ch hy => slp_of_wakeup (slp_of_wakeup hy)
    exact hW.calm (slp_none hp hslp) hslp rfl rfl
  · cases ht
    have hok := hI.procs p
    rw [hproc] at hok
    obtain ⟨hsz, -, hfit⟩ := hok
    have hslp : ∀ y ch, ((s.enqueue qp a.msgsz type (if a.msgsz ≠ 0 then (spot : ℤ) - 1 else -1)
        mp).wakeReaders qp).slp y = some ch → s.slp y = some ch :=
      fun y ch hy => slp_of_wakeup (s := (s.enqueue qp a.msgsz type
        (if a.msgsz ≠ 0 then (spot : ℤ) - 1 else -1) mp).setRwait qp false) hy
    refine hW.keep fun y q hy => ⟨hslp y _ hy, ?_, hW.wwait y q (hslp y _ hy), le_rfl, ?_⟩
    · refine update_of_ne ?_ _ _
      rintro rfl
      have := hslp y _ hy
      rw [hp] at this
      cases this
    · -- the queue has grown by the message
      show s.msgCbytes q ≤ update s.msgCbytes qp (ushort (s.msgCbytes qp + a.msgsz)) q
      by_cases hq : q = qp
      · have := ushort_eq (x := (s.msgCbytes qp : ℤ) + a.msgsz) (by omega)
        rw [hq, update_self]
        omega
      · rw [update_of_ne hq]

/-! ## The places of `msgrcv` and `msgctl` -/

theorem WaitInv.msgrcvStart {a : RcvArgs}
    (ht : s.msgrcvStart cfg p env a = some (o, t)) : WaitInv t := by
  unfold MsgState.msgrcvStart at ht
  cases hc : s.msgconv cfg a.msqid <;> rw [hc] at ht <;> dsimp only at ht
  · cases ht
  · exact hW.still hp ht rfl rfl rfl
  · split_ifs at ht <;> exact hW.still hp ht rfl rfl rfl

theorem WaitInv.msgrcvFind {a : RcvArgs}
    (ht : s.msgrcvFind cfg p a qp = some (o, t)) : WaitInv t := by
  unfold MsgState.msgrcvFind at ht
  cases hc : s.msgconv cfg a.msqid <;> rw [hc] at ht <;> dsimp only at ht
  · cases ht
  · exact hW.still hp ht rfl rfl rfl
  · split at ht
    · exact hW.still hp ht rfl rfl rfl
    cases hsel : s.select cfg a.msgtyp qp with
    | none => rw [hsel] at ht; cases ht
    | some r =>
      obtain ⟨smp, spmp⟩ := r
      rw [hsel] at ht
      cases smp <;> dsimp only at ht <;> split_ifs at ht <;> cases ht
      · exact hW.calm hp (fun _ _ h => h) rfl rfl
      · exact hW.sleep (u := s) (by simp) rfl (fun _ _ h => h) rfl rfl
      · exact hW.calm hp (fun _ _ h => h) rfl rfl
      · exact hW.calm hp (fun _ _ h => h) rfl rfl

end

theorem WaitInv.msgrcvMove {a : RcvArgs} {smp : ℕ} {spmp : Option ℕ}
    (hI : MsgInv cfg s fl ql loc) (hp : s.slp p = none)
    (hproc : s.proc p = .rcvMove a qp smp spmp)
    (ht : s.msgrcvMove cfg p env a qp smp spmp = some (o, t)) : WaitInv t := by
  have hok := hI.procs p
  rw [hproc] at hok
  unfold MsgState.msgrcvMove at ht
  split at ht
  · exact hW.still hp ht rfl rfl rfl
  obtain ⟨u, hu, ht⟩ := bind_eq_some_iff.mp ht
  rcases hok.2 with ⟨h, -⟩ | ⟨l₁, m, l₂, hq, hm, hlast, -⟩
  · cases h
  cases hm
  rw [hlast] at hu
  have hhdr : (s.proc p).header = none := by rw [hproc]; rfl
  have hC : Core cfg (s.setCbytes qp (s.msgCbytes qp - s.msgTs smp)) fl ql loc
      (fun y => (s.proc y).header) :=
    ⟨hI.core.1, hI.core.2, hI.core.3, hI.core.4, hI.core.5, hI.core.6, hI.core.7⟩
  obtain ⟨-, hF, -⟩ := msgfree_spec (p := p) hC hhdr hq hu
  have hrest := hF.rest
  simp only [MsgState.rest, Prod.mk.injEq] at hrest
  obtain ⟨-, ⟨halloc, -, -⟩, ⟨hcb, hqb⟩, ⟨-, hpr⟩, -⟩ := hrest
  cases ht
  refine hW.woken qp (x := .idle) (slp_none hp hF.slp) hF.slp
    (hF.woken fun y hy => (hW.wwait y qp hy).1) (fun q hne => ⟨hF.wwait q hne, ?_, ?_, ?_⟩) ?_
  · exact congrFun halloc q
  · exact congrFun hqb q
  · exact (congrFun hcb q).trans (update_of_ne hne _ _)
  · show update u.proc p .idle = _
    rw [hpr]
    rfl

omit hW in
/-- What the end of `IPC_RMID` leaves of the sleepers. -/
theorem rmid_room {msqid : ℤ} (hu : freeAll cfg qp cfg.msgtql s = some u)
    (ht : s.rmid cfg p msqid qp = some (o, t)) :
    (∀ x ch, t.slp x = some ch → u.slp x = some ch) ∧
      ((∀ x, u.slp x = some (.room qp) → u.msgWwait qp = true) →
        ∀ x, t.slp x ≠ some (.room qp)) ∧
      (∀ q, q ≠ qp → t.msgWwait q = u.msgWwait q ∧ t.ipcAlloc q = u.ipcAlloc q ∧
        t.msgQbytes q = u.msgQbytes q ∧ t.msgCbytes q = u.msgCbytes q) ∧
      t.proc = update u.proc p .idle := by
  unfold MsgState.rmid at ht
  rw [hu, bind_some] at ht
  have hreaders : ∀ x ch, ((u.setCbytes qp 0).wakeReaders qp).slp x = some ch →
      u.slp x = some ch :=
    fun x ch hx => slp_of_wakeup (s := (u.setCbytes qp 0).setRwait qp false) hx
  have hwriters : ∀ v : MsgState, ∀ x ch, (v.wakeWriters qp).slp x = some ch →
      v.slp x = some ch := fun v x ch hx => slp_of_wakeup (s := v.setWwait qp false) hx
  have hwoken : ∀ v : MsgState, (∀ x, v.slp x = some (.room qp) → v.msgWwait qp = true) →
      ∀ x, (v.wakeWriters qp).slp x ≠ some (.room qp) :=
    fun v hv x => wakeup_wakes (s := v.setWwait qp false) fun hx => hv x hx
  obtain ⟨-, hst⟩ := Prod.mk.inj (Option.some.inj ht)
  rw [← hst]
  refine ⟨fun x ch hx => hreaders x ch (hwriters _ x ch hx),
    fun hw => hwoken _ fun x hx => hw x (hreaders x _ hx), fun q hq => ⟨?_, ?_, rfl, ?_⟩, rfl⟩
  · exact update_of_ne hq _ _
  · exact update_of_ne hq _ _
  · exact update_of_ne hq _ _

theorem WaitInv.rmid {msqid : ℤ} (hI : MsgInv cfg s fl ql loc)
    (hp : s.slp p = none) (hhdr : (s.proc p).header = none)
    (ht : s.rmid cfg p msqid qp = some (o, t)) : WaitInv t := by
  have hfree : ∃ u, freeAll cfg qp cfg.msgtql s = some u := by
    obtain ⟨u, hu, -⟩ := bind_eq_some_iff.mp ht
    exact ⟨u, hu⟩
  obtain ⟨u, hu⟩ := hfree
  obtain ⟨-, -, -, hrest, hww, hslp, hwoken, -⟩ := freeAll_spec (p := p) hI.core hhdr rfl hu
  simp only [MsgState.rest, Prod.mk.injEq] at hrest
  obtain ⟨-, ⟨halloc, -, -⟩, ⟨hcb, hqb⟩, ⟨-, hpr⟩, -⟩ := hrest
  obtain ⟨hslp', hwoken', hroom, hproc⟩ := rmid_room hu ht
  have hall : ∀ x ch, t.slp x = some ch → s.slp x = some ch :=
    fun x ch hx => hslp x ch (hslp' x ch hx)
  refine hW.woken qp (x := .idle) (slp_none hp hall) hall
    (hwoken' (hwoken fun x hx => (hW.wwait x qp hx).1)) (fun q hq => ?_) (by rw [hproc, hpr])
  obtain ⟨h1, h2, h3, h4⟩ := hroom q hq
  rw [h1, h2, h3, h4, hww q hq, halloc, hqb, hcb]
  exact ⟨rfl, rfl, rfl, rfl⟩

theorem WaitInv.msgctlStart {msqid : ℤ} {cmd : MsgCmd}
    (hI : MsgInv cfg s fl ql loc) (hp : s.slp p = none) (hproc : s.proc p = .ctlStart msqid cmd)
    (ht : s.msgctlStart cfg p env msqid cmd = some (o, t)) : WaitInv t := by
  have hhdr : (s.proc p).header = none := by rw [hproc]; rfl
  unfold MsgState.msgctlStart at ht
  cases hc : s.msgconv cfg msqid <;> rw [hc] at ht <;> dsimp only at ht
  · cases ht
  · exact hW.still hp ht rfl rfl rfl
  · cases cmd <;> dsimp only at ht
    case rmid =>
      split at ht
      · exact hW.still hp ht rfl rfl rfl
      · exact hW.rmid hI hp hhdr ht
    case other =>
      exact hW.still hp ht rfl rfl rfl
    all_goals split_ifs at ht <;> exact hW.still hp ht rfl rfl rfl

/-- **`IPC_SET`** keeps the invariant if it makes no room for a message that waits. -/
theorem WaitInv.msgctlCopy {set : Bool} (hp : s.slp p = none)
    (hproc : s.proc p = .ctlCopy qp set) (hroom : ¬ MakesRoom s (.go p env))
    (ht : s.msgctlCopy p env qp set = some (o, t)) : WaitInv t := by
  unfold MsgState.msgctlCopy at ht
  by_cases h1 : env.fault = true
  · rw [if_pos h1] at ht
    exact hW.still hp ht rfl rfl rfl
  rw [if_neg h1] at ht
  by_cases h2 : ¬ set = true
  · rw [if_pos h2] at ht
    exact hW.still hp ht rfl rfl rfl
  rw [if_neg h2] at ht
  by_cases h3 : env.qbytes.1 > s.msgQbytes qp ∧ ¬ env.suser
  · rw [if_pos h3] at ht
    exact hW.still hp ht rfl rfl rfl
  rw [if_neg h3] at ht
  cases ht
  have hne : ∀ y q, s.slp y = some (.room q) → y ≠ p := by
    rintro y q hy rfl
    rw [hp] at hy
    cases hy
  have hsame : ∀ y q, s.slp y = some (.room q) → update s.proc p .idle y = s.proc y :=
    fun y q hy => update_of_ne (hne y q hy) _ _
  refine ⟨fun y q hy => ?_, fun y q hy => hW.wwait y q hy, fun y a q type slept hy hpy => ?_⟩
  · show ∃ a type slept, update s.proc p .idle y = .getres a q type slept
    rw [hsame y q hy]
    exact hW.place y q hy
  · have hpy' : update s.proc p .idle y = .getres a q type slept := hpy
    rw [hsame y q hy] at hpy'
    show a.msgsz + s.msgCbytes q > update s.msgQbytes qp env.qbytes.1 q
    rw [update_apply]
    split_ifs with hq
    · subst hq
      by_contra hfit
      refine hroom ⟨p, env, q, rfl, ?_, by simpa using h1, h3, y, a, type, slept, hy, hpy',
        not_lt.mp hfit⟩
      rw [hproc, not_not.mp h2]
    · exact hW.full y a q type slept hy hpy'

/-! ## Every event -/

theorem WaitInv.signal (ht : s.signal p = some (o, t)) : WaitInv t := by
  have hself : update s.slp p none p = none := update_self _ _ _
  have hslp : ∀ y ch, update s.slp p none y = some ch → s.slp y = some ch := by
    intro y ch hy
    by_cases hyp : y = p
    · rw [hyp, hself] at hy
      cases hy
    · rwa [update_of_ne hyp] at hy
  unfold MsgState.signal at ht
  cases hproc : s.proc p with
  | getres a qp type slept =>
    rw [hproc] at ht
    rcases slept with - | ch
    · cases ht
    · cases ch <;> cases ht <;> exact hW.calm hself hslp rfl rfl
  | findmsg a qp slept =>
    rw [hproc] at ht
    cases slept with
    | false => cases ht
    | true =>
      cases ht
      exact hW.calm hself hslp rfl rfl
  | _ => rw [hproc] at ht; cases ht

theorem WaitInv.msgget (hq : s.ipcAlloc qp = false) :
    WaitInv (s.msgget cfg qp) := by
  refine hW.keep fun y q hy => ?_
  have hne : q ≠ qp := by
    rintro rfl
    have := (hW.wwait y q hy).2
    rw [hq] at this
    cases this
  have hold := hW.wwait y q hy
  refine ⟨hy, rfl, ⟨?_, ?_⟩, ?_, le_rfl⟩
  · exact (update_of_ne hne _ _).trans hold.1
  · exact (update_of_ne hne _ _).trans hold.2
  · exact (update_of_ne hne _ _).le

theorem WaitInv.go (hI : MsgInv cfg s fl ql loc) (hp : s.slp p = none)
    (hroom : ¬ MakesRoom s (.go p env)) (ht : s.go cfg p env = some (o, t)) : WaitInv t := by
  unfold MsgState.go at ht
  cases hproc : s.proc p <;> rw [hproc] at ht
  · cases ht
  · exact hW.msgsndStart hp ht
  · exact hW.msgsndType hp ht
  · exact hW.msgsndGetres hp ht
  · exact hW.msgsndIntr hp ht
  · exact hW.msgsndMove hI hp hproc ht
  · exact hW.msgrcvStart hp ht
  · exact hW.msgrcvFind hp ht
  · exact hW.msgrcvMove hI hp hproc ht
  · exact hW.msgctlStart hI hp hproc ht
  · exact hW.msgctlCopy hp hproc hroom ht

/-- **Every event keeps the invariant** but one that makes room. -/
theorem WaitInv.run {e : MsgEvent} (hI : MsgInv cfg s fl ql loc)
    (hroom : ¬ MakesRoom s e) (ht : s.run cfg e = some (o, t)) : WaitInv t := by
  cases e with
  | call p c =>
    unfold MsgState.run at ht
    dsimp only at ht
    cases hproc : s.proc p with
    | idle =>
      rw [hproc] at ht
      cases ht
      refine hW.keep fun y q hy => ⟨hy, ?_, hW.wwait y q hy, le_rfl, le_rfl⟩
      refine update_of_ne ?_ _ _
      rintro rfl
      obtain ⟨a, type, slept, hpy⟩ := hW.place y q hy
      rw [hproc] at hpy
      cases hpy
    | _ => rw [hproc] at ht; cases ht
  | go p env =>
    unfold MsgState.run at ht
    dsimp only at ht
    split_ifs at ht with hp
    exact hW.go hI hp hroom ht
  | signal p => exact hW.signal ht
  | lockSignal p =>
    unfold MsgState.run MsgState.lockSignal at ht
    dsimp only at ht
    split_ifs at ht with hp
    split at ht
    · exact hW.still hp ht rfl rfl rfl
    · cases ht
  | msgget qp =>
    unfold MsgState.run at ht
    dsimp only at ht
    split_ifs at ht with h
    cases ht
    exact hW.msgget (by simpa using h.2)

end

/-- An event that makes room leaves a sender asleep for it. -/
theorem MakesRoom.waste {e : MsgEvent} (h : MakesRoom s e) (ht : s.run cfg e = some (o, t)) :
    ¬ NoWaste t := by
  obtain ⟨p, env, qp, rfl, hproc, hfault, hqb, x, a, type, slept, hx, hpx, hfit⟩ := h
  unfold MsgState.run MsgState.go at ht
  dsimp only at ht
  split_ifs at ht with hp
  rw [hproc] at ht
  dsimp only at ht
  unfold MsgState.msgctlCopy at ht
  rw [if_neg (by simp [hfault]), if_neg (not_not.mpr rfl), if_neg hqb] at ht
  cases ht
  intro hno
  have hxp : x ≠ p := by
    rintro rfl
    rw [hp] at hx
    cases hx
  have h1 := hno x a qp type slept hx ((update_of_ne hxp _ _).trans hpx)
  have h2 : a.msgsz + s.msgCbytes qp > update s.msgQbytes qp env.qbytes.1 qp := h1
  rw [update_self] at h2
  omega

/-- **No sender waits for room that exists** in any run in which no `IPC_SET` makes room for a
message that waits; and in every state of such a run the next event keeps it so exactly if
it is no such `IPC_SET`. -/
theorem no_wasted_room {es : List MsgEvent} (h : exec (step cfg) (init cfg) es = some s)
    (hC : StepsMeet (fun s e => ¬ MakesRoom s e) (step cfg) (init cfg) es) :
    NoWaste s ∧ ∀ e t, s.step cfg e = some t → (NoWaste t ↔ ¬ MakesRoom s e) := by
  have hrun : ∀ s e t, (WaitInv s ∧ ∃ fl ql loc, MsgInv cfg s fl ql loc) → ¬ MakesRoom s e →
      s.step cfg e = some t → WaitInv t ∧ ∃ fl ql loc, MsgInv cfg t fl ql loc := by
    rintro s e t ⟨hW, fl, ql, loc, hI⟩ hroom ht
    obtain ⟨o, hr⟩ := step_run ht
    obtain ⟨fl', ql', loc', hI', -⟩ := hI.run hr
    exact ⟨hW.run hI hroom hr, fl', ql', loc', hI'⟩
  have hinit : WaitInv (init cfg) :=
    ⟨by rintro x qp ⟨⟩, by rintro x qp ⟨⟩, by rintro x a qp type slept ⟨⟩⟩
  have hs := exec_invariant hrun ⟨hinit, _, _, _, MsgInv.init⟩ hC h
  refine ⟨hs.1.full, fun e t ht => ⟨fun hno hroom => ?_, fun hroom => ?_⟩⟩
  · obtain ⟨o, hr⟩ := step_run ht
    exact hroom.waste hr hno
  · exact (hrun s e t hs hroom ht).1.full

/-- The process does not set the fields of a queue. -/
def MsgProc.setless : MsgProc → Bool
  | .ctlCopy _ true => false
  | _ => true

/-- Only a process that sets the fields of a queue makes room. -/
theorem not_makesRoom {e : MsgEvent} (h : (match e with
    | .go p _ => (s.proc p).setless
    | _ => true) = true) : ¬ MakesRoom s e := by
  rintro ⟨p, env, qp, rfl, hproc, -⟩
  dsimp only at h
  rw [hproc] at h
  cases h

/-- A queue of 4096 bytes is full, and one more message waits. -/
theorem no_wasted_room_full : ∃ s, exec (step .config) (init .config)
    [.msgget 0, .call 7 (.msgsnd ⟨0, 2048, false⟩), .go 7 .plain, .go 7 .plain, .go 7 .plain,
      .go 7 .plain, .call 7 (.msgsnd ⟨0, 2048, false⟩), .go 7 .plain, .go 7 .plain, .go 7 .plain,
      .go 7 .plain, .call 8 (.msgsnd ⟨0, 10, false⟩), .go 8 .plain, .go 8 .plain,
      .go 8 .plain] = some s ∧ s.slp 8 = some (.room 0) ∧ NoWaste s := by
  have h : (exec (step .config) (init .config)
    [.msgget 0, .call 7 (.msgsnd ⟨0, 2048, false⟩), .go 7 .plain, .go 7 .plain, .go 7 .plain,
      .go 7 .plain, .call 7 (.msgsnd ⟨0, 2048, false⟩), .go 7 .plain, .go 7 .plain, .go 7 .plain,
      .go 7 .plain, .call 8 (.msgsnd ⟨0, 10, false⟩), .go 8 .plain, .go 8 .plain,
      .go 8 .plain]).map (fun s => s.slp 8) = some (some (.room 0)) := by decide
  obtain ⟨s, hs, hslp⟩ := map_eq_some_iff.mp h
  refine ⟨s, hs, hslp, (no_wasted_room hs ?_).1⟩
  exact stepsMeet_of_allSteps (fun s e => not_makesRoom) (by decide)

/-- `IPC_SET` raises `msg_qbytes` from 4096 to 8192, and a message of ten bytes goes on
waiting. -/
theorem set_wakes_nobody : ∃ s a type slept, exec (step .config) (init .config)
    [.msgget 0, .call 7 (.msgsnd ⟨0, 2048, false⟩), .go 7 .plain, .go 7 .plain, .go 7 .plain,
      .go 7 .plain, .call 7 (.msgsnd ⟨0, 2048, false⟩), .go 7 .plain, .go 7 .plain, .go 7 .plain,
      .go 7 .plain, .call 8 (.msgsnd ⟨0, 10, false⟩), .go 8 .plain, .go 8 .plain,
      .go 8 .plain, .call 7 (.msgctl 0 .set), .go 7 .plain,
      .go 7 ⟨true, true, false, ⟨1, by norm_num⟩, 8192⟩] = some s ∧ s.slp 8 = some (.room 0) ∧
    s.proc 8 = .getres a 0 type slept ∧ a.msgsz = 10 ∧ s.msgCbytes 0 = 4096 ∧
    s.msgQbytes 0 = 8192 ∧ ¬ NoWaste s := by
  have h : (exec (step .config) (init .config)
    [.msgget 0, .call 7 (.msgsnd ⟨0, 2048, false⟩), .go 7 .plain, .go 7 .plain, .go 7 .plain,
      .go 7 .plain, .call 7 (.msgsnd ⟨0, 2048, false⟩), .go 7 .plain, .go 7 .plain, .go 7 .plain,
      .go 7 .plain, .call 8 (.msgsnd ⟨0, 10, false⟩), .go 8 .plain, .go 8 .plain,
      .go 8 .plain, .call 7 (.msgctl 0 .set), .go 7 .plain,
      .go 7 ⟨true, true, false, ⟨1, by norm_num⟩, 8192⟩]).map (fun s => (s.slp 8,
        (match s.proc 8 with
          | .getres a 0 _ _ => some a.msgsz
          | _ => none), s.msgCbytes 0, s.msgQbytes 0)) =
      some (some (.room 0), some 10, 4096, 8192) := by decide
  obtain ⟨s, hs, heq⟩ := map_eq_some_iff.mp h
  simp only [Prod.mk.injEq] at heq
  obtain ⟨hslp, hproc, hcb, hqb⟩ := heq
  split at hproc
  · rename_i a type slept hp
    have hsz : a.msgsz = 10 := Option.some.inj hproc
    refine ⟨s, a, type, slept, hs, hslp, hp, hsz, hcb, hqb, fun hno => ?_⟩
    have := hno 8 a 0 type slept hslp hp
    omega
  · cases hproc

end wait

end Io
