import OpusSysV.Io.MsgSegs

/-!
# `msgrcv` returns the right message, once

* `Serials` — the messages of a queue lie in the order in which they were sent, and
  those returned are gone; `Serials.change` keeps it.
* `Right`, `Answers`, `Delivers` — the message to be returned, what the search of a
  receiver has to lead to, and what the return of a message does.
* `find_exact` — the search leads there unless `msgtyp` is the lowest `long`, which has
  no absolute value; `msgrcv_exact` puts the parts together.
-/

namespace Io

open Lib MsgState Function List Option

/-! ## The order of sending -/

/-- The serial numbers of the messages of the queues and of those delivered. -/
structure Serials (s : MsgState) (ql : ℕ → List ℕ) : Prop where
  sorted : ∀ qp, ((ql qp).map s.serial).Pairwise (· < ·)
  inj : ∀ q q' h h', h ∈ ql q → h' ∈ ql q' → s.serial h = s.serial h' → h = h'
  queued : ∀ q, ∀ h ∈ ql q, s.serial h < s.sent ∧ s.serial h ∉ s.delivered
  past : ∀ n ∈ s.delivered, n < s.sent
  once : s.delivered.Nodup

section serials

variable {cfg : MsgInfo} {s t : MsgState} {fl : List ℕ} {ql ql' : ℕ → List ℕ}
  {loc : ℕ → Option Place} {hdr : ℕ → Option ℕ} {qp mp : ℕ} {l₁ l₂ : List ℕ}

/-- Messages may be taken from a queue. -/
theorem Serials.shorten (hS : Serials s ql) (hser : t.serial = s.serial) (hsent : t.sent = s.sent)
    (hdel : t.delivered = s.delivered) (hsub : ∀ q, (ql' q).Sublist (ql q)) : Serials t ql' := by
  refine ⟨fun q => ?_, fun q q' h h' hh hh' heq => ?_, fun q h hh => ?_, fun n hn => ?_, ?_⟩
  · rw [hser]
    exact (hS.sorted q).sublist ((hsub q).map _)
  · rw [hser] at heq
    exact hS.inj q q' h h' ((hsub q).subset hh) ((hsub q').subset hh') heq
  · rw [hser, hsent, hdel]
    exact hS.queued q h ((hsub q).subset hh)
  · rw [hdel] at hn
    rw [hsent]
    exact hS.past n hn
  · rw [hdel]
    exact hS.once

/-- The newest message gets a number of its own. -/
theorem Serials.sent (hS : Serials s ql) (hnew : ∀ q, mp ∉ ql q)
    (hser : t.serial = update s.serial mp s.sent) (hsent : t.sent = s.sent + 1)
    (hdel : t.delivered = s.delivered) :
    Serials t (update ql qp (ql qp ++ [mp])) := by
  have hself : t.serial mp = s.sent := by rw [hser, update_self]
  have hold : ∀ q, ∀ h ∈ ql q, t.serial h = s.serial h := by
    intro q h hh
    rw [hser, update_of_ne]
    rintro rfl
    exact hnew q hh
  have hmap : ∀ q, (ql q).map t.serial = (ql q).map s.serial :=
    fun q => map_congr_left (hold q)
  have hin : ∀ q h, h ∈ update ql qp (ql qp ++ [mp]) q → h = mp ∨ h ∈ ql q := by
    intro q h hh
    rw [update_apply] at hh
    split_ifs at hh with hq
    · rw [mem_append, mem_singleton] at hh
      rw [hq]
      exact hh.symm
    · exact .inr hh
  have hlt : ∀ q, ∀ h ∈ ql q, t.serial h < s.sent := by
    intro q h hh
    rw [hold q h hh]
    exact (hS.queued q h hh).1
  refine ⟨fun q => ?_, fun q q' h h' hh hh' heq => ?_, fun q h hh => ?_, fun n hn => ?_, ?_⟩
  · rw [update_apply]
    split_ifs with hq
    · rw [map_append, pairwise_append, hmap]
      refine ⟨hS.sorted qp, by simp, fun a ha b hb => ?_⟩
      obtain ⟨h, hh, rfl⟩ := mem_map.mp ha
      rw [map_singleton, mem_singleton] at hb
      rw [hb, hself]
      exact (hS.queued qp h hh).1
    · rw [hmap]
      exact hS.sorted q
  · rcases hin q h hh with h1 | h1 <;> rcases hin q' h' hh' with h2 | h2
    · rw [h1, h2]
    · rw [h1, hself] at heq
      have := hlt q' h' h2
      omega
    · rw [h2, hself] at heq
      have := hlt q h h1
      omega
    · rw [hold q h h1, hold q' h' h2] at heq
      exact hS.inj q q' h h' h1 h2 heq
  · rw [hsent, hdel]
    rcases hin q h hh with rfl | hh
    · rw [hself]
      exact ⟨by omega, fun hd => absurd (hS.past _ hd) (lt_irrefl _)⟩
    · have := hS.queued q h hh
      rw [hold q h hh]
      exact ⟨by omega, this.2⟩
  · rw [hdel] at hn
    have := hS.past n hn
    omega
  · rw [hdel]
    exact hS.once

/-- The message delivered leaves its queue. -/
theorem Serials.delivered (hS : Serials s ql) (hP : Placed cfg fl ql loc hdr)
    (hq : ql qp = l₁ ++ mp :: l₂) (hser : t.serial = s.serial) (hsent : t.sent = s.sent)
    (hdel : t.delivered = s.serial mp :: s.delivered) :
    Serials t (update ql qp (l₁ ++ l₂)) := by
  have hmem : mp ∈ ql qp := by simp [hq]
  have hsub : ∀ q, (update ql qp (l₁ ++ l₂) q).Sublist (ql q) := by
    intro q
    rw [update_apply]
    split_ifs with hqq
    · rw [hqq, hq]
      exact (List.Sublist.refl l₁).append (sublist_cons_self mp l₂)
    · rfl
  have hgone : ∀ q, mp ∉ update ql qp (l₁ ++ l₂) q := by
    intro q hm
    have hloc := (hP.queue mp q).mp ((hsub q).subset hm)
    have hqq : q = qp := by
      rw [(hP.queue mp qp).mp hmem] at hloc
      exact (Place.queue.inj (Option.some.inj hloc)).symm
    rw [hqq, update_self] at hm
    have hnd := hP.nodupQueue qp
    rw [hq] at hnd
    exact (nodup_cons.mp (nodup_middle.mp hnd)).1 hm
  refine ⟨fun q => ?_, fun q q' h h' hh hh' heq => ?_, fun q h hh => ?_, fun n hn => ?_, ?_⟩
  · rw [hser]
    exact (hS.sorted q).sublist ((hsub q).map _)
  · rw [hser] at heq
    exact hS.inj q q' h h' ((hsub q).subset hh) ((hsub q').subset hh') heq
  · have hold := hS.queued q h ((hsub q).subset hh)
    rw [hser, hsent, hdel, mem_cons]
    refine ⟨hold.1, ?_⟩
    rintro (heq | hd)
    · exact hgone q (hS.inj q qp h mp ((hsub q).subset hh) hmem heq ▸ hh)
    · exact hold.2 hd
  · rw [hdel] at hn
    rw [hsent]
    rcases mem_cons.mp hn with rfl | hn
    · exact (hS.queued qp mp hmem).1
    · exact hS.past n hn
  · rw [hdel]
    exact nodup_cons.mpr ⟨(hS.queued qp mp hmem).2, hS.once⟩

/-- **A step keeps the order.** -/
theorem Serials.change (hS : Serials s ql) (hP : Placed cfg fl ql loc hdr)
    (hc : QueueChange s t ql ql') : Serials t ql' := by
  cases hc with
  | same h => exact hS.shorten h.1 h.2.1 h.2.2 fun q => List.Sublist.refl _
  | sent qp mp hnew h => exact hS.sent hnew h.1 h.2.1 h.2.2
  | delivered qp l₁ mp l₂ hq h => exact hS.delivered hP hq h.1 h.2.1 h.2.2
  | removed qp h =>
    refine hS.shorten h.1 h.2.1 h.2.2 fun q => ?_
    rw [update_apply]
    split_ifs with hq
    · exact nil_sublist _
    · rfl

theorem exists_serials {es : List MsgEvent} (h : exec (step cfg) (init cfg) es = some s) :
    ∃ fl ql loc, MsgInv cfg s fl ql loc ∧ TextsOk cfg (s.texts cfg loc) ∧ Serials s ql := by
  refine exec_invariant' (P := fun s => ∃ fl ql loc, MsgInv cfg s fl ql loc ∧
    TextsOk cfg (s.texts cfg loc) ∧ Serials s ql) ?_
    ⟨_, _, _, MsgInv.init, textsOk_init fun h => ?_, ?_⟩ h
  · rintro s e t ⟨fl, ql, loc, hI, hT, hS⟩ ht
    obtain ⟨o, hr⟩ := step_run ht
    obtain ⟨fl', ql', loc', hI', hq, hc⟩ := hI.run hr
    exact ⟨fl', ql', loc', hI', hT.change (hc (spots_of hI hT)), hS.change hI.core.placed hq⟩
  · by_cases hh : h < cfg.msgtql
    · exact .inr (if_pos hh)
    · exact .inl (if_neg hh)
  · exact ⟨by simp, by simp, by simp, by simp [init], nodup_nil⟩

end serials

/-! ## The message to be returned -/

/-- Of the messages `l` of a queue, `m` is the one that `msgtyp` asks for: among those it admits,
the oldest, or the oldest of the lowest type. -/
structure Right (typ : ℤ) (s : MsgState) (l : List ℕ) (m : ℕ) : Prop where
  mem : m ∈ l
  admits : Admits typ |typ| (s.msgType m)
  first : ∀ x ∈ l, Admits typ |typ| (s.msgType x) →
    typ < 0 ∧ s.msgType m < s.msgType x ∨
      (typ < 0 → s.msgType m = s.msgType x) ∧ s.serial m ≤ s.serial x

/-- The queue that an identifier names. -/
def MsgInfo.queueOf (cfg : MsgInfo) (msqid : ℤ) : ℕ := msqid.toNat % cfg.msgmni

/-- What the search of a receiver has to lead to: the copy of the right message, or `E2BIG`
for it; or, where no message is admitted, `ENOMSG` or sleep. -/
def Answers (s : MsgState) (p : ℕ) (a : RcvArgs) (qp : ℕ) (l : List ℕ) (o : Option MsgRet)
    (t : MsgState) : Prop :=
  (∃ m, Right a.msgtyp s l m ∧
    if a.msgsz < s.msgTs m ∧ ¬ a.noerror then o = some .E2BIG
    else o = none ∧ ∃ spmp, t.proc p = .rcvMove a qp m spmp) ∨
  ((∀ x ∈ l, ¬ Admits a.msgtyp |a.msgtyp.1| (s.msgType x)) ∧
    if a.nowait then o = some .ENOMSG
    else o = none ∧ t.proc p = .findmsg a qp true ∧ t.slp p = some (.qnum qp))

/-- The right message is returned, it leaves its queue, and no other message does. -/
def Delivers (cfg : MsgInfo) (s t : MsgState) (a : RcvArgs) (o : Option MsgRet) : Prop :=
  ∃ m, Right a.msgtyp s (s.queue cfg (cfg.queueOf a.msqid)) m ∧
    o = some (.ok (min a.msgsz (s.msgTs m))) ∧
    t.queue cfg = update (s.queue cfg) (cfg.queueOf a.msqid)
      ((s.queue cfg (cfg.queueOf a.msqid)).erase m) ∧
    (t.msgType = s.msgType ∧ t.msgTs = s.msgTs ∧ t.msgSpot = s.msgSpot ∧ t.serial = s.serial) ∧
    t.delivered = s.serial m :: s.delivered

section right

variable {cfg : MsgInfo} {s t : MsgState} {fl : List ℕ} {ql : ℕ → List ℕ}
  {loc : ℕ → Option Place} {p qp m : ℕ} {typ : ℤ} {l a c : List ℕ}

/-- The bound of the search is the absolute value, unless that is no `long`. -/
theorem admits_iff (htyp : -2 ^ 31 < typ ∧ typ < 2 ^ 31) {v : ℤ} :
    Admits typ (long (-typ)) v ↔ Admits typ |typ| v := by
  unfold Admits
  rcases lt_or_ge typ 0 with hneg | hpos
  · rw [long_eq (by omega) (by omega), abs_of_neg hneg]
  · constructor
    · rintro (h | h | h)
      · exact .inl h
      · exact .inr (.inl h)
      · omega
    · rintro (h | h | h)
      · exact .inl h
      · exact .inr (.inl h)
      · omega

/-- The lowest `long` is its own negative, and the search admits nothing. -/
theorem not_admits_low {v : ℤ} (hv : 1 ≤ v) : ¬ Admits (-2 ^ 31) (long (- -2 ^ 31)) v := by
  have h : long (- -2 ^ 31) = -2 ^ 31 := by decide
  rw [h]
  rintro (h | h | h) <;> omega

/-- What the search picks is right. -/
theorem Picks.right (h : Picks typ |typ| s.msgType a m c)
    (hs : ((a ++ m :: c).map s.serial).Pairwise (· < ·)) : Right typ s (a ++ m :: c) m := by
  refine ⟨by simp, h.admits, fun x hx hadm => ?_⟩
  rcases mem_append.mp hx with hx | hx
  · exact .inl (h.before x hx hadm)
  · rcases mem_cons.mp hx with rfl | hx
    · exact .inr ⟨fun _ => rfl, le_rfl⟩
    · rw [map_append, map_cons, pairwise_append, pairwise_cons] at hs
      have hlt := hs.2.1.1 (s.serial x) (mem_map_of_mem hx)
      rcases lt_or_ge (s.msgType m) (s.msgType x) with ht | ht
      · rcases lt_or_ge typ 0 with hneg | hpos
        · exact .inl ⟨hneg, ht⟩
        · exact .inr ⟨fun h' => absurd h' (not_lt.mpr hpos), hlt.le⟩
      · exact .inr ⟨fun hneg => le_antisymm (h.after x hx hadm hneg) ht, hlt.le⟩

theorem Picks.abs {bound : ℤ} {type : ℕ → ℤ}
    (hadm : ∀ v, Admits typ bound v ↔ Admits typ |typ| v) (h : Picks typ bound type a m c) :
    Picks typ |typ| type a m c :=
  ⟨(hadm _).mp h.admits, fun x hx ha => h.before x hx ((hadm _).mpr ha),
    fun x hx ha => h.after x hx ((hadm _).mpr ha)⟩

/-- What a receiver has found is admitted, so that its `msgtyp` was not the lowest. -/
theorem typ_of_found {smp : ℕ} {spmp : Option ℕ} (htype : ∀ x ∈ l, 1 ≤ s.msgType x)
    (h : Chosen typ (long (-typ)) s.msgType l (some smp) spmp) : typ ≠ -2 ^ 31 := by
  rintro rfl
  rcases h with ⟨h, -⟩ | ⟨a, m, c, rfl, hm, -, hpick⟩
  · cases h
  · exact not_admits_low (htype m (by simp)) hpick.admits

/-- **The search is right** unless `msgtyp` is the lowest `long` and the queue holds messages. -/
theorem find_exact {a : RcvArgs} {o : Option MsgRet} (hI : MsgInv cfg s fl ql loc)
    (hS : Serials s ql) (hconv : s.msgconv cfg a.msqid = .qp qp)
    (ht : s.msgrcvFind cfg p a qp = some (o, t)) :
    Answers s p a qp (ql qp) o t ↔ a.msgtyp.1 ≠ -2 ^ 31 ∨ ql qp = [] := by
  have htype : ∀ x ∈ ql qp, 1 ≤ s.msgType x ∧ s.msgType x < 2 ^ 31 := hI.core.type qp
  obtain ⟨smp, spmp, hsel, hchosen⟩ := hI.select a.msgtyp qp
  unfold msgrcvFind at ht
  rw [hconv] at ht
  dsimp only at ht
  rw [if_neg (not_not.mpr rfl), hsel] at ht
  cases smp with
  | some smp =>
    have htyp := typ_of_found (fun x hx => (htype x hx).1) hchosen
    refine iff_of_true (.inl ⟨smp, ?_, ?_⟩) (.inl htyp)
    · rcases hchosen with ⟨h, -⟩ | ⟨l₁, m, l₂, hq, hm, -, hpick⟩
      · cases h
      · cases hm
        have hlow := a.msgtyp.2
        have hsort := hS.sorted qp
        rw [hq] at hsort ⊢
        exact (hpick.abs fun v => admits_iff ⟨by omega, hlow.2⟩).right hsort
    · dsimp only at ht
      split_ifs at ht ⊢
      · cases ht
        rfl
      · cases ht
        exact ⟨rfl, spmp, update_self _ _ _⟩
  | none =>
    have hnone : ∀ x ∈ ql qp, ¬ Admits a.msgtyp (long (-a.msgtyp)) (s.msgType x) := by
      rcases hchosen with ⟨-, h⟩ | ⟨l₁, m, l₂, -, hm, -⟩
      · exact h
      · cases hm
    -- the call fails with `ENOMSG`, or the process sleeps
    have hout : if a.nowait then o = some .ENOMSG
        else o = none ∧ t.proc p = .findmsg a qp true ∧ t.slp p = some (.qnum qp) := by
      dsimp only at ht
      split_ifs at ht ⊢
      · cases ht
        rfl
      · cases ht
        exact ⟨rfl, update_self _ _ _, update_self _ _ _⟩
    constructor
    · rintro (⟨m, -, hm⟩ | ⟨hadm, -⟩)
      · exfalso
        split_ifs at hout
        · rw [hout] at hm
          split_ifs at hm
          · cases hm
          · cases hm.1
        · rw [hout.1, hout.2.1] at hm
          split_ifs at hm
          obtain ⟨spmp, hproc⟩ := hm.2
          cases hproc
      · by_cases hlow : a.msgtyp.1 = -2 ^ 31
        · right
          apply eq_nil_iff_forall_not_mem.mpr
          intro x hx
          apply hadm x hx
          have := (htype x hx).2
          rw [hlow]
          exact .inr (.inr ⟨by norm_num, by norm_num at this ⊢; omega⟩)
        · exact .inl hlow
    · rintro (htyp | hnil)
      · have hlow := a.msgtyp.2
        refine .inr ⟨fun x hx ha => hnone x hx ?_, hout⟩
        exact (admits_iff ⟨by omega, hlow.2⟩).mpr ha
      · exact .inr ⟨by simp [hnil], hout⟩

/-- **The message found is returned**, and no other one leaves its queue. -/
theorem delivers_of_move {a : RcvArgs} {o : Option MsgRet} {smp : ℕ} {spmp : Option ℕ}
    {env : MsgEnv} (hI : MsgInv cfg s fl ql loc) (hS : Serials s ql)
    (hproc : s.proc p = .rcvMove a qp smp spmp) (hfault : env.fault ≠ true)
    (ht : s.msgrcvMove cfg p env a qp smp spmp = some (o, t)) : Delivers cfg s t a o := by
  have hok := hI.procs p
  rw [hproc] at hok
  obtain ⟨hqp, hchosen⟩ := hok
  have htyp := typ_of_found (fun x hx => (hI.core.type qp x hx).1) hchosen
  rcases hchosen with ⟨h, -⟩ | ⟨l₁, m, l₂, hq, hm, hlast, hpick⟩
  · cases h
  cases hm
  unfold msgrcvMove at ht
  rw [if_neg hfault] at ht
  obtain ⟨u, hu, ht⟩ := bind_eq_some_iff.mp ht
  obtain ⟨ho, hst⟩ := Prod.mk.inj (Option.some.inj ht)
  obtain ⟨fl', loc', hI', ⟨hser, -, hdel⟩, ⟨htype, hts, hspot⟩, -⟩ :=
    hI.deliver hproc hq hlast hu hst.symm
  have hlow := a.msgtyp.2
  have hsort := hS.sorted qp
  have hnd := hI.core.placed.nodupQueue qp
  have herase : (l₁ ++ smp :: l₂).erase smp = l₁ ++ l₂ := by
    rw [hq] at hnd
    have hnot : smp ∉ l₁ := fun hm =>
      (nodup_cons.mp (nodup_middle.mp hnd)).1 (mem_append_left _ hm)
    rw [erase_append_right _ hnot, erase_cons_head]
  refine ⟨smp, ?_, ?_, ?_, ⟨htype, hts, hspot, hser⟩, hdel⟩
  · rw [queue_eq hI.core, show cfg.queueOf a.msqid = qp from hqp.symm]
    rw [hq] at hsort ⊢
    exact (hpick.abs fun v => admits_iff ⟨by omega, hlow.2⟩).right hsort
  · rw [← ho]
    congr 2
    rcases lt_or_ge a.msgsz (s.msgTs smp) with hlt | hge
    · rw [if_pos hlt, min_eq_left hlt.le]
    · rw [if_neg (not_lt.mpr hge), min_eq_right hge]
  · rw [queue_eq hI'.core, queue_eq hI.core, show cfg.queueOf a.msqid = qp from hqp.symm, hq, herase]

end right

/-! ## The law of receivers -/

/-- The call that a process is in, if it is in `msgrcv`. -/
def MsgProc.rcv : MsgProc → Option RcvArgs
  | .rcvStart a => some a
  | .findmsg a _ _ => some a
  | .rcvMove a _ _ _ => some a
  | _ => none

/-- The process that runs on, or that a signal reaches. -/
def MsgState.MsgEvent.actor : MsgEvent → Option ℕ
  | .go p _ => some p
  | .signal p => some p
  | .lockSignal p => some p
  | _ => none

/-- What holds of the messages, and of the next event of a receiver. -/
structure RcvLaw (cfg : MsgInfo) (s : MsgState) : Prop where
  /-- The messages of a queue lie in the order in which they were sent. -/
  sorted : ∀ qp, ((s.queue cfg qp).map s.serial).Pairwise (· < ·)
  /-- No message is returned twice, or is still on a queue after it was returned. -/
  once : s.delivered.Nodup ∧ ∀ qp, ∀ h ∈ s.queue cfg qp, s.serial h ∉ s.delivered
  /-- A receiver returns the right message, or the queues stay as they are. -/
  delivers : ∀ e p a o t, e.actor = some p → (s.proc p).rcv = some a → s.run cfg e = some (o, t) →
    Delivers cfg s t a o ∨ (∀ v, o ≠ some (.ok v)) ∧ t.lists = s.lists
  /-- The search is right unless `msgtyp` is the lowest `long` and the queue holds messages. -/
  answers : ∀ p a qp slept env o t, s.proc p = .findmsg a qp slept →
    s.msgconv cfg a.msqid = .qp qp → s.run cfg (.go p env) = some (o, t) →
    (Answers s p a qp (s.queue cfg qp) o t ↔ a.msgtyp.1 ≠ -2 ^ 31 ∨ s.queue cfg qp = [])
  /-- A receiver gets on unless it sleeps or finds its queue locked. -/
  runs : ∀ p env, (s.proc p).rcv ≠ none → s.slp p = none →
    (∀ id, (s.proc p).conv = some id → s.msgconv cfg id ≠ .busy) →
    ∃ o t, s.run cfg (.go p env) = some (o, t)

section law

variable {cfg : MsgInfo} {s t : MsgState} {fl : List ℕ} {ql : ℕ → List ℕ}
  {loc : ℕ → Option Place} {p : ℕ} {o : Option MsgRet} {env : MsgEnv}

theorem go_delivers {a : RcvArgs} (hI : MsgInv cfg s fl ql loc) (hS : Serials s ql)
    (ha : (s.proc p).rcv = some a) (ht : s.go cfg p env = some (o, t)) :
    Delivers cfg s t a o ∨ (∀ v, o ≠ some (.ok v)) ∧ t.lists = s.lists := by
  unfold MsgState.go at ht
  cases hproc : s.proc p with
  | rcvStart b =>
    rw [hproc] at ht
    right
    dsimp only at ht
    unfold msgrcvStart at ht
    cases hc : s.msgconv cfg b.msqid <;> rw [hc] at ht <;> dsimp only at ht
    · cases ht
    · cases ht
      exact ⟨by simp, rfl⟩
    · split_ifs at ht <;> cases ht <;> exact ⟨by simp, rfl⟩
  | findmsg b qp slept =>
    rw [hproc] at ht
    right
    dsimp only at ht
    unfold msgrcvFind at ht
    cases hc : s.msgconv cfg b.msqid <;> rw [hc] at ht <;> dsimp only at ht
    · cases ht
    · cases ht
      exact ⟨by simp, rfl⟩
    · obtain ⟨smp, spmp, hsel, -⟩ := hI.select b.msgtyp qp
      rw [hsel] at ht
      cases smp <;> dsimp only at ht <;> split_ifs at ht <;> cases ht <;> exact ⟨by simp, rfl⟩
  | rcvMove b qp smp spmp =>
    rw [hproc] at ht ha
    cases ha
    dsimp only at ht
    by_cases hfault : env.fault = true
    · right
      unfold msgrcvMove at ht
      rw [if_pos hfault] at ht
      cases ht
      exact ⟨by simp, rfl⟩
    · exact .inl (delivers_of_move hI hS hproc hfault ht)
  | _ => rw [hproc] at ha; cases ha

theorem run_delivers {e : MsgEvent} {a : RcvArgs} (hI : MsgInv cfg s fl ql loc) (hS : Serials s ql)
    (he : e.actor = some p) (ha : (s.proc p).rcv = some a) (ht : s.run cfg e = some (o, t)) :
    Delivers cfg s t a o ∨ (∀ v, o ≠ some (.ok v)) ∧ t.lists = s.lists := by
  cases e with
  | call q c => cases he
  | msgget q => cases he
  | go q env =>
    cases he
    unfold MsgState.run at ht
    dsimp only at ht
    split_ifs at ht
    exact go_delivers hI hS ha ht
  | signal q =>
    cases he
    right
    have ht : s.signal p = some (o, t) := ht
    unfold MsgState.signal at ht
    cases hproc : s.proc p with
    | findmsg b qp slept =>
      rw [hproc] at ht
      cases slept
      · cases ht
      · cases ht
        exact ⟨by simp, rfl⟩
    | rcvStart b => rw [hproc] at ht; cases ht
    | rcvMove b qp smp spmp => rw [hproc] at ht; cases ht
    | _ => rw [hproc] at ha; cases ha
  | lockSignal q =>
    cases he
    right
    unfold MsgState.run MsgState.lockSignal at ht
    dsimp only at ht
    split_ifs at ht
    split at ht
    · cases ht
      exact ⟨by simp, rfl⟩
    · cases ht

/-- **`msgrcv` returns the right message, once**, after any events. -/
theorem msgrcv_exact {es : List MsgEvent} (h : exec (step cfg) (init cfg) es = some s) :
    RcvLaw cfg s := by
  obtain ⟨fl, ql, loc, hI, hT, hS⟩ := exists_serials h
  have hqueue : s.queue cfg = ql := queue_eq hI.core
  constructor
  case sorted => rw [hqueue]; exact hS.sorted
  case once => rw [hqueue]; exact ⟨hS.once, fun qp h hh => (hS.queued qp h hh).2⟩
  case delivers =>
    intro e p a o t he ha ht
    exact run_delivers hI hS he ha ht
  case answers =>
    intro p a qp slept env o t hproc hconv ht
    rw [hqueue]
    unfold MsgState.run MsgState.go at ht
    dsimp only at ht
    split_ifs at ht
    rw [hproc] at ht
    exact find_exact hI hS hconv ht
  case runs =>
    intro p env hrcv hslp hfree
    have hidle : s.proc p ≠ .idle := fun hi => hrcv (by rw [hi]; rfl)
    have hgo : ∃ o t, s.go cfg p env = some (o, t) := go_isSome hI hT hidle hfree
    obtain ⟨o, t, ht⟩ := hgo
    exact ⟨o, t, (if_pos hslp).trans ht⟩

/-- A process has sent a message, and another one is about to copy it out. -/
theorem msgrcv_exact_oldest : ∃ s, exec (step .config) (init .config)
    [.msgget 0, .call 7 (.msgsnd ⟨0, 10, true⟩), .go 7 .plain, .go 7 .plain, .go 7 .plain,
      .go 7 .plain, .call 8 (.msgrcv ⟨0, 100, ⟨0, by norm_num⟩, false, true⟩), .go 8 .plain,
      .go 8 .plain] = some s ∧ RcvLaw .config s :=
  have h : (exec (step .config) (init .config)
    [.msgget 0, .call 7 (.msgsnd ⟨0, 10, true⟩), .go 7 .plain, .go 7 .plain, .go 7 .plain,
      .go 7 .plain, .call 8 (.msgrcv ⟨0, 100, ⟨0, by norm_num⟩, false, true⟩), .go 8 .plain,
      .go 8 .plain]).isSome = true := by decide
  ⟨_, (some_get h).symm, msgrcv_exact (some_get h).symm⟩

/-- With `msgtyp` the lowest `long` a message of type 1 is not found. -/
theorem msgrcv_lowest : ∃ s, exec (step .config) (init .config)
    [.msgget 0, .call 7 (.msgsnd ⟨0, 10, true⟩), .go 7 .plain, .go 7 .plain, .go 7 .plain,
      .go 7 .plain, .call 8 (.msgrcv ⟨0, 100, ⟨-2 ^ 31, by norm_num⟩, false, true⟩),
      .go 8 .plain] = some s ∧ Right (-2 ^ 31) s (s.queue .config 0) 0 ∧
    (s.run .config (.go 8 .plain)).map Prod.fst = some (some .ENOMSG) := by
  have h : (exec (step .config) (init .config)
      [.msgget 0, .call 7 (.msgsnd ⟨0, 10, true⟩), .go 7 .plain, .go 7 .plain, .go 7 .plain,
        .go 7 .plain, .call 8 (.msgrcv ⟨0, 100, ⟨-2 ^ 31, by norm_num⟩, false, true⟩),
        .go 8 .plain]).map (fun s => (s.queue .config 0, s.msgType 0,
          (s.run .config (.go 8 .plain)).map Prod.fst)) =
      some ([0], 1, some (some .ENOMSG)) := by decide
  obtain ⟨s, hs, heq⟩ := map_eq_some_iff.mp h
  obtain ⟨hq, htype, hrun⟩ := by simpa only [Prod.mk.injEq] using heq
  refine ⟨s, hs, ?_, hrun⟩
  rw [hq]
  refine ⟨mem_singleton_self 0, ?_, fun x hx _ => ?_⟩
  · rw [htype]
    exact .inr (.inr (by norm_num))
  · rw [mem_singleton.mp hx]
    exact .inr ⟨fun _ => rfl, le_rfl⟩

end law

end Io
