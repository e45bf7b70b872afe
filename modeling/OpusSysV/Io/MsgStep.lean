import OpusSysV.Io.MsgQueue

/-!
# Message queues step by step

* `MsgInv` — the invariant of the queues, the locks and the processes.
* `QueueChange` — how one event changes the queues: not at all, a message is sent,
  delivered, or a queue is removed.
* `MsgInv.step` — every event keeps the invariant, by such a change.
-/

namespace Io

open Lib Function List Option

/-- The queue that a process has locked. -/
def MsgProc.locks : MsgProc → Option ℕ
  | .sndType _ qp => some qp
  | .sndMove _ qp _ _ _ => some qp
  | .rcvMove _ qp _ _ => some qp
  | .ctlCopy qp _ => some qp
  | _ => none

/-- What a process relies on where it is. -/
def ProcOk (cfg : MsgInfo) (s : MsgState) (ql : ℕ → List ℕ) : MsgProc → Prop
  | .sndType a _ => 0 ≤ a.msgsz ∧ a.msgsz ≤ cfg.msgmax
  | .getres a _ type _ => (0 ≤ a.msgsz ∧ a.msgsz ≤ cfg.msgmax) ∧ 1 ≤ type ∧ type < 2 ^ 31
  | .sndMove a qp type _ _ => (0 ≤ a.msgsz ∧ a.msgsz ≤ cfg.msgmax) ∧ (1 ≤ type ∧ type < 2 ^ 31) ∧
      a.msgsz + s.msgCbytes qp < 65536
  | .rcvMove a qp smp spmp => qp = a.msqid.toNat % cfg.msgmni ∧
      Chosen a.msgtyp (long (-a.msgtyp)) s.msgType (ql qp) (some smp) spmp
  | _ => True

/-- The invariant of the queues `ql`. -/
structure MsgInv (cfg : MsgInfo) (s : MsgState) (fl : List ℕ) (ql : ℕ → List ℕ)
    (loc : ℕ → Option Place) : Prop where
  core : Core cfg s fl ql loc fun p => (s.proc p).header
  bytes : ∀ qp, (s.msgCbytes qp : ℤ) = ((ql qp).map s.msgTs).sum
  locked : ∀ p qp, (s.proc p).locks = some qp → s.msglock qp = true ∧ s.ipcAlloc qp = true
  one : ∀ p p' qp, (s.proc p).locks = some qp → (s.proc p').locks = some qp → p = p'
  gone : ∀ qp, s.ipcAlloc qp = false → ql qp = []
  procs : ∀ p, ProcOk cfg s ql (s.proc p)
  bound : ∀ qp, s.msgQbytes qp < 65536 ∧ s.msgCbytes qp < 65536

/-- No process but `p` has locked the queue. -/
def Mine (s : MsgState) (p qp : ℕ) : Prop := ∀ y, y ≠ p → (s.proc y).locks ≠ some qp

/-- A step of `p` changes nothing of the queues that other processes have locked. -/
structure Apart (s t : MsgState) (ql ql' : ℕ → List ℕ) (p : ℕ) : Prop where
  list : ∀ y q, y ≠ p → (s.proc y).locks = some q → ql' q = ql q
  cbytes : ∀ y q, y ≠ p → (s.proc y).locks = some q → t.msgCbytes q = s.msgCbytes q
  lock : ∀ y q, y ≠ p → (s.proc y).locks = some q → t.msglock q = true
  alloc : ∀ y q, y ≠ p → (s.proc y).locks = some q → t.ipcAlloc q = true
  type : ∀ y q, y ≠ p → (s.proc y).locks = some q → ∀ h ∈ ql q, t.msgType h = s.msgType h

namespace MsgInv

variable {cfg : MsgInfo} {s t : MsgState} {fl fl' : List ℕ} {ql ql' : ℕ → List ℕ}
  {loc loc' : ℕ → Option Place} {p qp : ℕ} {x : MsgProc}

theorem mine_of_locks (hI : MsgInv cfg s fl ql loc) (hp : (s.proc p).locks = some qp) :
    Mine s p qp :=
  fun y hy h => hy (hI.one y p qp h hp)

theorem mine_of_unlocked (hI : MsgInv cfg s fl ql loc) (hl : s.msglock qp = false) :
    Mine s p qp := by
  intro y _ h
  rw [(hI.locked y qp h).1] at hl
  cases hl

/-- What a process relies on is kept by the steps of the others. -/
theorem procOk_other (hA : Apart s t ql ql' p) (y : ℕ) (hy : y ≠ p)
    (h : ProcOk cfg s ql (s.proc y)) : ProcOk cfg t ql' (s.proc y) := by
  have hlist := hA.list y
  have hcb := hA.cbytes y
  have htype := hA.type y
  cases hproc : s.proc y with
  | sndMove a qp type mp spot =>
    rw [hproc] at h hcb
    have := hcb qp hy rfl
    obtain ⟨h1, h2, h3⟩ := h
    exact ⟨h1, h2, by rw [this]; exact h3⟩
  | rcvMove a qp smp spmp =>
    rw [hproc] at h hlist htype
    show _ ∧ Chosen _ _ _ (ql' qp) _ _
    rw [hlist qp hy rfl]
    exact ⟨h.1, h.2.congr (htype qp hy rfl)⟩
  | sndType a qp => rw [hproc] at h; exact h
  | getres a qp type slept => rw [hproc] at h; exact h
  | _ => trivial

/-- **A step of `p`** that keeps apart from the others keeps the invariant. -/
theorem update (hI : MsgInv cfg s fl ql loc) (hA : Apart s t ql ql' p)
    (hproc : t.proc = Function.update s.proc p x)
    (hcore : Core cfg t fl' ql' loc' (Function.update (fun y => (s.proc y).header) p x.header))
    (hbytes : ∀ q, (t.msgCbytes q : ℤ) = ((ql' q).map t.msgTs).sum)
    (hx : ∀ q, x.locks = some q → Mine s p q ∧ t.msglock q = true ∧ t.ipcAlloc q = true)
    (hgone : ∀ q, t.ipcAlloc q = false → ql' q = [])
    (hok : ProcOk cfg t ql' x) (hqb : ∀ q, t.msgQbytes q < 65536 ∧ t.msgCbytes q < 65536) :
    MsgInv cfg t fl' ql' loc' := by
  have hself : t.proc p = x := by rw [hproc, update_self]
  have hother : ∀ y, y ≠ p → t.proc y = s.proc y := by
    intro y hy
    rw [hproc, update_of_ne hy]
  refine ⟨?_, hbytes, fun y q hy => ?_, fun y y' q hy hy' => ?_, hgone, fun y => ?_, hqb⟩
  · have : (fun y => (t.proc y).header) =
        Function.update (fun y => (s.proc y).header) p x.header := by
      funext y
      by_cases hy : y = p
      · rw [hy, hself, update_self]
      · rw [hother y hy, update_of_ne hy]
    rw [this]
    exact hcore
  · by_cases hyp : y = p
    · rw [hyp, hself] at hy
      exact (hx q hy).2
    · rw [hother y hyp] at hy
      exact ⟨hA.lock y q hyp hy, hA.alloc y q hyp hy⟩
  · by_cases hyp : y = p
    · by_cases hyp' : y' = p
      · rw [hyp, hyp']
      · rw [hyp, hself] at hy
        rw [hother y' hyp'] at hy'
        exact absurd hy' ((hx q hy).1 y' hyp')
    · rw [hother y hyp] at hy
      by_cases hyp' : y' = p
      · rw [hyp', hself] at hy'
        exact absurd hy ((hx q hy').1 y hyp)
      · rw [hother y' hyp'] at hy'
        exact hI.one y y' q hy hy'
  · by_cases hy : y = p
    · rw [hy, hself]
      exact hok
    · rw [hother y hy]
      exact procOk_other hA y hy (hI.procs y)

end MsgInv

/-- The fields that make up the queues. -/
def MsgState.lists (s : MsgState) : ((ℕ → Option ℕ) × Option ℕ × (ℕ → Option ℕ) × (ℕ → Option ℕ)) ×
    ((ℕ → ℕ) × (ℕ → ℤ) × (ℕ → ℤ) × (ℕ → ℕ)) × (ℕ → Bool) × (ℕ → ℕ) × List ℕ × ℕ :=
  ((s.msgNext, s.msgfp, s.msgFirst, s.msgLast), (s.msgQnum, s.msgTs, s.msgType, s.msgCbytes),
    s.ipcAlloc, s.serial, s.delivered, s.sent)

/-- The fields that make up the pool. -/
def MsgState.pool (s : MsgState) : (ℕ → ℤ) × ℕ × List Os.MapEnt × ℕ :=
  (s.msgSpot, s.msgmap.mapsize, s.msgmap.slots, s.lost)

theorem Core.same {cfg : MsgInfo} {s t : MsgState} {fl : List ℕ} {ql : ℕ → List ℕ}
    {loc : ℕ → Option Place} {hdr : ℕ → Option ℕ} (hC : Core cfg s fl ql loc hdr)
    (hlists : t.lists = s.lists) : Core cfg t fl ql loc hdr := by
  simp only [MsgState.lists, Prod.mk.injEq] at hlists
  obtain ⟨⟨h1, h2, h3, h4⟩, ⟨h5, h6, h7, -⟩, -⟩ := hlists
  refine ⟨?_, ?_, ?_, ?_, hC.placed, ?_, ?_⟩
  · rw [h1, h2]; exact hC.free
  · rw [h1, h3]; exact hC.queue
  · rw [h4]; exact hC.last
  · rw [h5]; exact hC.qnum
  · rw [h6]; exact hC.text
  · rw [h7]; exact hC.type

section

variable {cfg : MsgInfo} {s t : MsgState} {fl fl' : List ℕ} {ql ql' : ℕ → List ℕ}
  {loc loc' : ℕ → Option Place} {p qp : ℕ} {x : MsgProc}

/-- What a process relies on does not depend on the free queues. -/
theorem ProcOk.congr (h : ProcOk cfg s ql x) (hcb : t.msgCbytes = s.msgCbytes)
    (htype : t.msgType = s.msgType) : ProcOk cfg t ql x := by
  cases x with
  | sndMove a qp type mp spot =>
    obtain ⟨h1, h2, h3⟩ := h
    exact ⟨h1, h2, by rw [hcb]; exact h3⟩
  | rcvMove a qp smp spmp =>
    show _ ∧ Chosen _ _ t.msgType _ _ _
    rw [htype]
    exact h
  | _ => exact h

/-- Another process has locked another queue. -/
theorem Mine.ne {y q : ℕ} (h : Mine s p qp) (hy : y ≠ p) (hq : (s.proc y).locks = some q) :
    q ≠ qp := by
  rintro rfl
  exact h y hy hq

theorem locked_update {f : ℕ → Bool} {q : ℕ} (h : f q = true ∨ q = qp) :
    update f qp true q = true := by
  rw [update_apply]
  split_ifs with hq
  · rfl
  · exact h.resolve_right hq

theorem header_update (h : (s.proc p).header = x.header) :
    update (fun y => (s.proc y).header) p x.header = fun y => (s.proc y).header := by
  rw [← h]
  exact update_eq_self p fun y => (s.proc y).header

end

namespace MsgInv

variable {cfg : MsgInfo} {s t : MsgState} {fl fl' : List ℕ} {ql ql' : ℕ → List ℕ}
  {loc loc' : ℕ → Option Place} {p qp : ℕ} {x : MsgProc}

/-- A step that leaves the queues as they are. -/
theorem calm (hI : MsgInv cfg s fl ql loc) (hlists : t.lists = s.lists)
    (hlock : ∀ y q, y ≠ p → (s.proc y).locks = some q → t.msglock q = true)
    (hproc : t.proc = Function.update s.proc p x) (hhdr : (s.proc p).header = none)
    (hx : x.header = none)
    (hxl : ∀ q, x.locks = some q → Mine s p q ∧ t.msglock q = true ∧ s.ipcAlloc q = true)
    (hok : ProcOk cfg s ql x) (hqb : ∀ q, t.msgQbytes q < 65536 ∧ t.msgCbytes q < 65536) : MsgInv cfg t fl ql loc := by
  have hcore := hI.core.same hlists
  simp only [MsgState.lists, Prod.mk.injEq] at hlists
  obtain ⟨-, ⟨-, h2, h3, h4⟩, h5, -⟩ := hlists
  have hA : Apart s t ql ql p := by
    refine ⟨fun _ _ _ _ => rfl, fun _ _ _ _ => by rw [h4], hlock, fun y q hy hq => ?_,
      fun _ _ _ _ _ _ => by rw [h3]⟩
    rw [h5]
    exact (hI.locked y q hq).2
  refine hI.update hA hproc ?_ ?_ ?_ ?_ ?_ hqb
  · rw [header_update (hhdr.trans hx.symm)]
    exact hcore
  · rw [h4, h2]
    exact hI.bytes
  · rw [h5]
    exact hxl
  · rw [h5]
    exact hI.gone
  · exact hok.congr h4 h3

/-- The process goes on, with the queue unlocked. -/
theorem goTo {u : MsgState} (hI : MsgInv cfg s fl ql loc) (hlists : u.lists = s.lists)
    (hlock : u.msglock = s.msglock) (hproc : u.proc = s.proc) (hhdr : (s.proc p).header = none)
    (hmine : Mine s p qp) (hqb : ∀ q, u.msgQbytes q < 65536 ∧ u.msgCbytes q < 65536) (hx : x.header = none)
    (hxl : x.locks = none) (hok : ProcOk cfg s ql x) :
    MsgInv cfg ((u.setLock qp false).setProc p x) fl ql loc := by
  refine hI.calm (p := p) (x := x) hlists ?_ ?_ hhdr hx (fun q hq => ?_) hok hqb
  · intro y q hy hq
    show Function.update u.msglock qp false q = true
    rw [update_of_ne (hmine.ne hy hq), hlock]
    exact (hI.locked y q hq).1
  · show Function.update u.proc p x = _
    rw [hproc]
  · rw [hxl] at hq
    cases hq

/-- The call returns from a queue that no other process has locked. -/
theorem out {u : MsgState} {r : MsgRet} {o : Option MsgRet} (hI : MsgInv cfg s fl ql loc)
    (ht : u.out p qp r = some (o, t)) (hlists : u.lists = s.lists)
    (hlock : u.msglock = s.msglock) (hproc : u.proc = s.proc) (hhdr : (s.proc p).header = none)
    (hmine : Mine s p qp) (hqb : ∀ q, u.msgQbytes q < 65536 ∧ u.msgCbytes q < 65536) :
    MsgInv cfg t fl ql loc ∧ t.lists = s.lists ∧ t.pool = u.pool ∧
      t.proc = Function.update s.proc p .idle ∧ (s.proc p).header = none := by
  cases ht
  refine ⟨hI.goTo hlists hlock hproc hhdr hmine hqb rfl rfl trivial, hlists, rfl, ?_, hhdr⟩
  show Function.update u.proc p .idle = _
  rw [hproc]

/-- The process goes on with the queue locked. -/
theorem goLocked {u : MsgState} (hI : MsgInv cfg s fl ql loc) (hlists : u.lists = s.lists)
    (hlock : u.msglock = s.msglock) (hproc : u.proc = s.proc) (hhdr : (s.proc p).header = none)
    (hmine : Mine s p qp) (halloc : s.ipcAlloc qp = true) (hqb : ∀ q, u.msgQbytes q < 65536 ∧ u.msgCbytes q < 65536)
    (hx : x.header = none) (hxl : x.locks = some qp) (hok : ProcOk cfg s ql x) :
    MsgInv cfg ((u.setLock qp true).setProc p x) fl ql loc := by
  have hset : ∀ q, s.msglock q = true ∨ q = qp → Function.update u.msglock qp true q = true := by
    rw [hlock]
    exact fun _ => locked_update
  refine hI.calm (p := p) (x := x) hlists ?_ ?_ hhdr hx (fun q hq => ?_) hok hqb
  · intro y q hy hq
    exact hset q (.inl (hI.locked y q hq).1)
  · show Function.update u.proc p x = _
    rw [hproc]
  · rw [hxl] at hq
    cases hq
    exact ⟨hmine, hset qp (.inr rfl), halloc⟩

/-- The process goes on, or its call returns, without a lock. -/
theorem quiet {u : MsgState} (hI : MsgInv cfg s fl ql loc) (hlists : u.lists = s.lists)
    (hlock : u.msglock = s.msglock) (hproc : u.proc = s.proc) (hhdr : (s.proc p).header = none)
    (hqb : ∀ q, u.msgQbytes q < 65536 ∧ u.msgCbytes q < 65536) (hx : x.header = none) (hxl : x.locks = none)
    (hok : ProcOk cfg s ql x) : MsgInv cfg (u.setProc p x) fl ql loc := by
  refine hI.calm (p := p) (x := x) hlists ?_ ?_ hhdr hx (fun q hq => ?_) hok hqb
  · intro y q _ hq
    show u.msglock q = true
    rw [hlock]
    exact (hI.locked y q hq).1
  · show Function.update u.proc p x = _
    rw [hproc]
  · rw [hxl] at hq
    cases hq

end MsgInv

/-! ## One event -/

/-- How an event changes the queues, the serial numbers and what has been delivered. -/
inductive QueueChange (s t : MsgState) (ql : ℕ → List ℕ) : (ℕ → List ℕ) → Prop
  | same (h : t.serial = s.serial ∧ t.sent = s.sent ∧ t.delivered = s.delivered) :
      QueueChange s t ql ql
  | sent (qp mp : ℕ) (hnew : ∀ q, mp ∉ ql q)
      (h : t.serial = update s.serial mp s.sent ∧ t.sent = s.sent + 1 ∧
        t.delivered = s.delivered) :
      QueueChange s t ql (update ql qp (ql qp ++ [mp]))
  | delivered (qp : ℕ) (l₁ : List ℕ) (mp : ℕ) (l₂ : List ℕ) (hq : ql qp = l₁ ++ mp :: l₂)
      (h : t.serial = s.serial ∧ t.sent = s.sent ∧ t.delivered = s.serial mp :: s.delivered) :
      QueueChange s t ql (update ql qp (l₁ ++ l₂))
  | removed (qp : ℕ) (h : t.serial = s.serial ∧ t.sent = s.sent ∧ t.delivered = s.delivered) :
      QueueChange s t ql (update ql qp [])

/-- The segments that are being filled start within a `short`. -/
def Spots (s : MsgState) : Prop :=
  ∀ p a qp type mp spot, s.proc p = .sndMove a qp type mp spot → a.msgsz ≠ 0 →
    1 ≤ spot ∧ spot < 32768

/-- The invariant holds again, of queues and segments that have changed in one of these ways. -/
def Steps (cfg : MsgInfo) (s : MsgState) (ql : ℕ → List ℕ) (loc : ℕ → Option Place)
    (t : MsgState) : Prop :=
  ∃ fl' ql' loc', MsgInv cfg t fl' ql' loc' ∧ QueueChange s t ql ql' ∧
    (Spots s → Texts.Change cfg (s.texts cfg loc) (t.texts cfg loc'))

section steps

variable {cfg : MsgInfo} {s t u : MsgState} {fl : List ℕ} {ql : ℕ → List ℕ}
  {loc : ℕ → Option Place} {p qp : ℕ} {x : MsgProc} {o : Option MsgRet} {env : MsgEnv}

/-- The headers keep their segments when `p`, which has none, goes on without one. -/
theorem seg_same (hts : t.msgTs = s.msgTs) (hspot : t.msgSpot = s.msgSpot)
    (hproc : t.proc = update s.proc p x) (hhdr : (s.proc p).header = none)
    (hx : x.header = none) : t.seg cfg loc = s.seg cfg loc := by
  funext h
  unfold MsgState.seg
  cases hloc : loc h with
  | none => rfl
  | some pl =>
    cases pl with
    | free => rfl
    | queue q =>
      show cfg.seg (t.msgTs h) (t.msgSpot h + 1) = _
      rw [hts, hspot]
    | sending y =>
      show (t.proc y).text cfg = (s.proc y).text cfg
      rw [hproc]
      by_cases hy : y = p
      · rw [hy, update_self, MsgProc.text_of_header hx, MsgProc.text_of_header hhdr]
      · rw [update_of_ne hy]

theorem lists_ts (hlists : t.lists = s.lists) : t.msgTs = s.msgTs := by
  simp only [MsgState.lists, Prod.mk.injEq] at hlists
  exact hlists.2.1.2.1

theorem change_same (hlists : t.lists = s.lists) :
    t.serial = s.serial ∧ t.sent = s.sent ∧ t.delivered = s.delivered := by
  simp only [MsgState.lists, Prod.mk.injEq] at hlists
  exact ⟨hlists.2.2.2.1, hlists.2.2.2.2.2, hlists.2.2.2.2.1⟩

theorem steps_same (h : MsgInv cfg t fl ql loc) (hlists : t.lists = s.lists)
    (hpool : t.pool = s.pool) (hproc : t.proc = update s.proc p x)
    (hhdr : (s.proc p).header = none) (hx : x.header = none) : Steps cfg s ql loc t := by
  simp only [MsgState.pool, Prod.mk.injEq] at hpool
  obtain ⟨hspot, hsize, hslots, hlost⟩ := hpool
  exact ⟨fl, ql, loc, h, .same (change_same hlists), fun _ => .same ⟨hsize, hslots⟩ hlost
    (seg_same (lists_ts hlists) hspot hproc hhdr hx)⟩

/-- `malloc` has found nothing. -/
theorem steps_failed {size : ℕ} {m : Os.RMap} (h : MsgInv cfg t fl ql loc)
    (hlists : t.lists = s.lists) (hm : Os.malloc s.msgmap size = some (0, m))
    (hpool : t.pool = (s.msgSpot, m.mapsize, m.slots, s.lost))
    (hproc : t.proc = update s.proc p x) (hhdr : (s.proc p).header = none)
    (hx : x.header = none) : Steps cfg s ql loc t := by
  simp only [MsgState.pool, Prod.mk.injEq] at hpool
  obtain ⟨hspot, hsize, hslots, hlost⟩ := hpool
  exact ⟨fl, ql, loc, h, .same (change_same hlists), fun _ => .failed size m hm ⟨hsize, hslots⟩
    hlost (seg_same (lists_ts hlists) hspot hproc hhdr hx)⟩

theorem steps_out (h : MsgInv cfg t fl ql loc ∧ t.lists = s.lists ∧ t.pool = u.pool ∧
    t.proc = update s.proc p .idle ∧ (s.proc p).header = none) (hpool : u.pool = s.pool) :
    Steps cfg s ql loc t :=
  steps_same h.1 h.2.1 (h.2.2.1.trans hpool) h.2.2.2.1 h.2.2.2.2 rfl

open MsgState

section

variable (hI : MsgInv cfg s fl ql loc)

include hI

theorem MsgInv.fails {r : MsgRet} (hhdr : (s.proc p).header = none)
    (hmine : Mine s p qp) (ht : s.out p qp r = some (o, t)) : Steps cfg s ql loc t :=
  steps_out (hI.out ht rfl rfl rfl hhdr hmine hI.bound) rfl

/-- A check of a call. -/
theorem MsgInv.unless {b : Prop} [Decidable b] {r : MsgRet} {x : Ran} (hhdr : (s.proc p).header = none)
    (hmine : Mine s p qp) (ht : (if b then s.out p qp r else x) = some (o, t))
    (h : ¬ b → x = some (o, t) → Steps cfg s ql loc t) : Steps cfg s ql loc t := by
  split_ifs at ht with hb
  · exact hI.fails hhdr hmine ht
  · exact h hb ht

theorem MsgInv.returns {r : MsgRet}
    (hhdr : (s.proc p).header = none) (ht : s.ret p r = some (o, t)) : Steps cfg s ql loc t := by
  cases ht
  exact steps_same (hI.quiet rfl rfl rfl hhdr hI.bound rfl rfl trivial) rfl rfl rfl hhdr rfl

omit hI in
/-- The queue that `msgconv` returns is in use and not locked. -/
theorem msgconv_qp {id : ℤ} (h : s.msgconv cfg id = .qp qp) :
    s.msglock qp = false ∧ s.ipcAlloc qp = true ∧ qp = id.toNat % cfg.msgmni := by
  unfold msgconv at h
  dsimp only at h
  split_ifs at h with h1 h2 h3
  cases h
  refine ⟨by simpa using h2, ?_, rfl⟩
  by_contra hc
  exact h3 (.inl hc)

theorem MsgInv.msgsndStart {a : SndArgs}
    (hproc : s.proc p = .sndStart a) (ht : s.msgsndStart cfg p env a = some (o, t)) :
    Steps cfg s ql loc t := by
  have hhdr : (s.proc p).header = none := by rw [hproc]; rfl
  unfold MsgState.msgsndStart at ht
  cases hc : s.msgconv cfg a.msqid with
  | busy => rw [hc] at ht; cases ht
  | einval =>
    rw [hc] at ht
    exact hI.returns hhdr ht
  | qp qp =>
    rw [hc] at ht
    obtain ⟨hlock, halloc, hqp⟩ := msgconv_qp hc
    have hmine := hI.mine_of_unlocked (p := p) hlock
    dsimp only at ht
    refine hI.unless hhdr hmine ht fun _ ht => ?_
    refine hI.unless hhdr hmine ht fun _ ht => ?_
    cases ht
    refine steps_same (hI.goLocked (u := s) (x := .sndType a qp) rfl rfl rfl hhdr hmine halloc
      hI.bound rfl rfl ?_) rfl rfl rfl hhdr rfl
    show 0 ≤ a.msgsz ∧ a.msgsz ≤ cfg.msgmax
    omega

theorem MsgInv.msgsndType {a : SndArgs}
    (hproc : s.proc p = .sndType a qp) (ht : s.msgsndType p env a qp = some (o, t)) :
    Steps cfg s ql loc t := by
  have hhdr : (s.proc p).header = none := by rw [hproc]; rfl
  have hmine : Mine s p qp := hI.mine_of_locks (by rw [hproc]; rfl)
  have hok := hI.procs p
  rw [hproc] at hok
  unfold MsgState.msgsndType at ht
  split_ifs at ht with h1 h2
  · exact hI.fails hhdr hmine ht
  · exact hI.fails hhdr hmine ht
  · cases ht
    refine steps_same (hI.goTo (u := s) (x := .getres a qp env.type none) rfl rfl rfl hhdr hmine
      hI.bound rfl rfl ?_) rfl rfl rfl hhdr rfl
    have := env.type.2.2
    exact ⟨hok, by omega, this⟩

theorem MsgInv.msgsndIntr {a : SndArgs} {room : Bool}
    (hproc : s.proc p = .sndIntr a qp room) (ht : s.msgsndIntr cfg p a qp room = some (o, t)) :
    Steps cfg s ql loc t := by
  have hhdr : (s.proc p).header = none := by rw [hproc]; rfl
  unfold MsgState.msgsndIntr at ht
  cases hc : s.msgconv cfg a.msqid with
  | busy => rw [hc] at ht; cases ht
  | einval =>
    rw [hc] at ht
    exact hI.returns hhdr ht
  | qp qp1 =>
    rw [hc] at ht
    have hmine := hI.mine_of_unlocked (p := p) (msgconv_qp hc).1
    dsimp only at ht
    refine hI.unless hhdr hmine ht fun h1 ht => ?_
    rw [not_not.mp h1] at hmine
    split_ifs at ht
    · exact steps_out (hI.out ht rfl rfl rfl hhdr hmine hI.bound) rfl
    · exact hI.fails hhdr hmine ht

theorem MsgInv.msgrcvStart {a : RcvArgs}
    (hproc : s.proc p = .rcvStart a) (ht : s.msgrcvStart cfg p env a = some (o, t)) :
    Steps cfg s ql loc t := by
  have hhdr : (s.proc p).header = none := by rw [hproc]; rfl
  unfold MsgState.msgrcvStart at ht
  cases hc : s.msgconv cfg a.msqid with
  | busy => rw [hc] at ht; cases ht
  | einval =>
    rw [hc] at ht
    exact hI.returns hhdr ht
  | qp qp1 =>
    rw [hc] at ht
    have hmine := hI.mine_of_unlocked (p := p) (msgconv_qp hc).1
    dsimp only at ht
    refine hI.unless hhdr hmine ht fun _ ht => ?_
    split_ifs at ht
    · exact hI.fails hhdr hmine ht
    · cases ht
      exact steps_same (hI.goTo (u := s) (x := .findmsg a qp1 false) rfl rfl rfl hhdr hmine
        hI.bound rfl rfl trivial) rfl rfl rfl hhdr rfl

/-- The search of a queue comes to its end. -/
theorem MsgInv.select (typ : ℤ) (qp : ℕ) :
    ∃ smp spmp, s.select cfg typ qp = some (smp, spmp) ∧
      Chosen typ (long (-typ)) s.msgType (ql qp) smp spmp :=
  select_spec (hI.core.queue qp) hI.core.placed.length_queue

theorem MsgInv.msgrcvFind {a : RcvArgs} {slept : Bool}
    (hproc : s.proc p = .findmsg a qp slept) (ht : s.msgrcvFind cfg p a qp = some (o, t)) :
    Steps cfg s ql loc t := by
  have hhdr : (s.proc p).header = none := by rw [hproc]; rfl
  unfold MsgState.msgrcvFind at ht
  cases hc : s.msgconv cfg a.msqid with
  | busy => rw [hc] at ht; cases ht
  | einval =>
    rw [hc] at ht
    exact hI.returns hhdr ht
  | qp qp1 =>
    rw [hc] at ht
    obtain ⟨hlock, halloc, hqp⟩ := msgconv_qp hc
    have hmine := hI.mine_of_unlocked (p := p) hlock
    dsimp only at ht
    refine hI.unless hhdr hmine ht fun h1 ht => ?_
    rw [not_not.mp h1] at hmine halloc hqp
    obtain ⟨smp, spmp, hsel, hchosen⟩ := hI.select a.msgtyp qp
    rw [hsel] at ht
    cases smp with
    | none =>
      dsimp only at ht
      split_ifs at ht
      · exact hI.fails hhdr hmine ht
      · cases ht
        exact steps_same (hI.goTo (u := (s.setRwait qp true).sleep p (.qnum qp))
          (x := .findmsg a qp true) rfl rfl rfl hhdr hmine hI.bound rfl rfl trivial) rfl rfl rfl hhdr rfl
    | some smp =>
      dsimp only at ht
      split_ifs at ht
      · exact hI.fails hhdr hmine ht
      · cases ht
        exact steps_same (hI.goLocked (u := s) (x := .rcvMove a qp smp spmp) rfl rfl rfl hhdr
          hmine halloc hI.bound rfl rfl ⟨hqp, hchosen⟩) rfl rfl rfl hhdr rfl

omit hI in
/-- The header taken from the free list is put back. -/
theorem putBack_lists {mp : ℕ} {m : Os.RMap} (hfp : s.msgfp = some mp) :
    ({ s with msgfp := s.msgNext mp, msgmap := m }.freeHeader mp).lists = s.lists := by
  have hnext : update s.msgNext mp (s.msgNext mp) = s.msgNext :=
    update_eq_self mp s.msgNext
  show ((update s.msgNext mp (s.msgNext mp), some mp, _, _), _, _, _, _, _) = _
  rw [hnext, ← hfp]
  rfl

omit hI in
/-- The segments when `p` takes a header. -/
theorem take_texts (hC : Core cfg s fl ql loc fun y => (s.proc y).header)
    (hhdr : (s.proc p).header = none) {a : SndArgs} {type : ℤ} {mp spot : ℕ}
    (hfp : s.msgfp = some mp) (hts : t.msgTs = s.msgTs) (hspot : t.msgSpot = s.msgSpot)
    (hlost : t.lost = s.lost)
    (hproc : t.proc = update s.proc p (.sndMove a qp type mp spot))
    (hmap : a.msgsz = 0 ∧ t.msgmap = s.msgmap ∨ a.msgsz ≠ 0 ∧ spot ≠ 0 ∧
      Os.malloc s.msgmap (cfg.btoq a.msgsz.toNat) = some (spot, t.msgmap)) :
    Texts.Change cfg (s.texts cfg loc)
      (t.texts cfg (update loc mp (some (.sending p)))) := by
  have hfree : mp ∈ fl := by
    have h := hC.free
    rw [hfp] at h
    obtain ⟨l, rfl, -⟩ := h.pop
    exact mem_cons_self
  have hloc : loc mp = some .free := (hC.placed.free mp).mp hfree
  have hnone : s.seg cfg loc mp = none := by
    unfold MsgState.seg
    rw [hloc]
  have hseg : t.seg cfg (update loc mp (some (.sending p))) =
      update (s.seg cfg loc) mp (cfg.seg a.msgsz spot) := by
    have h := @seg_move mp cfg s t loc (.sending p)
      (fun h q _ _ => by rw [hts, hspot]; exact ⟨rfl, rfl⟩) (fun h y _ hy => by
        have hyp : y ≠ p := by
          rintro rfl
          rw [(hC.placed.sending h y).mpr hy] at hhdr
          cases hhdr
        rw [hproc, update_of_ne hyp])
    have htext : t.seg cfg (fun _ => some (.sending p)) mp = cfg.seg a.msgsz spot := by
      show (t.proc p).text cfg = _
      rw [hproc, update_self]
      rfl
    rw [h, htext]
  rcases hmap with ⟨h0, hm⟩ | ⟨h0, hspot0, hm⟩
  · have hsame : t.msgmap.mapsize = s.msgmap.mapsize ∧ t.msgmap.slots = s.msgmap.slots := by
      rw [hm]
      exact ⟨rfl, rfl⟩
    refine .same hsame hlost ?_
    show t.seg cfg _ = s.seg cfg loc
    rw [hseg, MsgInfo.seg, if_pos h0, ← hnone, update_eq_self]
  · refine .took mp _ spot ((hC.placed.all mp).mp (by simp [hloc])) hnone hspot0 hm hlost ?_
    show t.seg cfg _ = _
    rw [hseg, MsgInfo.seg, if_neg h0]
    rfl

/-- A header and a segment are taken, and the copy starts. -/
theorem MsgInv.takeHeader {a : SndArgs} {type : ℤ} {mp spot : ℕ}
    {map : Os.RMap} (hhdr : (s.proc p).header = none) (hfp : s.msgfp = some mp)
    (hmine : Mine s p qp) (halloc : s.ipcAlloc qp = true)
    (hok : (0 ≤ a.msgsz ∧ a.msgsz ≤ cfg.msgmax) ∧ 1 ≤ type ∧ type < 2 ^ 31)
    (hfit : a.msgsz + s.msgCbytes qp ≤ s.msgQbytes qp)
    (hmap : a.msgsz = 0 ∧ map = s.msgmap ∨ a.msgsz ≠ 0 ∧ spot ≠ 0 ∧
      Os.malloc s.msgmap (cfg.btoq a.msgsz.toNat) = some (spot, map)) :
    Steps cfg s ql loc ((({ s with msgfp := s.msgNext mp, msgmap := map } : MsgState).setLock qp
      true).setProc p (.sndMove a qp type mp spot)) := by
  obtain ⟨fl', -, hC⟩ := hI.core.pop (p := p) hfp hhdr
  refine ⟨fl', ql, _, hI.update (p := p) (x := .sndMove a qp type mp spot) ?_ rfl (hC.same rfl)
    hI.bytes ?_ hI.gone ⟨hok.1, hok.2, ?_⟩ hI.bound, .same ⟨rfl, rfl, rfl⟩,
    fun _ => take_texts hI.core hhdr hfp rfl rfl rfl rfl hmap⟩
  · exact ⟨fun _ _ _ _ => rfl, fun _ _ _ _ => rfl, fun y q _ hq => locked_update (.inl (hI.locked y q hq).1),
      fun y q _ hq => (hI.locked y q hq).2, fun _ _ _ _ _ _ => rfl⟩
  · intro q hq
    cases hq
    exact ⟨hmine, locked_update (.inr rfl), halloc⟩
  · have := (hI.bound qp).1
    show a.msgsz + s.msgCbytes qp < 65536
    omega

theorem MsgInv.msgsndGetres {a : SndArgs} {type : ℤ}
    {slept : Option MsgChan} (hproc : s.proc p = .getres a qp type slept)
    (ht : s.msgsndGetres cfg p a qp type = some (o, t)) : Steps cfg s ql loc t := by
  have hhdr : (s.proc p).header = none := by rw [hproc]; rfl
  have hok := hI.procs p
  rw [hproc] at hok
  have hok' : (0 ≤ a.msgsz ∧ a.msgsz ≤ cfg.msgmax) ∧ 1 ≤ type ∧ type < 2 ^ 31 := hok
  unfold MsgState.msgsndGetres at ht
  cases hc : s.msgconv cfg a.msqid with
  | busy => rw [hc] at ht; cases ht
  | einval =>
    rw [hc] at ht
    exact hI.returns hhdr ht
  | qp qp1 =>
    rw [hc] at ht
    obtain ⟨hlock, halloc, hqp⟩ := msgconv_qp hc
    have hmine := hI.mine_of_unlocked (p := p) hlock
    dsimp only at ht
    refine hI.unless hhdr hmine ht fun h1 ht => ?_
    rw [not_not.mp h1] at hmine halloc
    by_cases hfull : a.msgsz + s.msgCbytes qp > s.msgQbytes qp
    · rw [if_pos hfull] at ht
      split_ifs at ht
      · exact hI.fails hhdr hmine ht
      · cases ht
        exact steps_same (hI.goTo (u := (s.setWwait qp true).sleep p (.room qp))
          (x := .getres a qp type (some (.room qp))) rfl rfl rfl hhdr hmine hI.bound rfl rfl hok') rfl rfl rfl hhdr rfl
    rw [if_neg hfull] at ht
    have hfit : a.msgsz + s.msgCbytes qp ≤ s.msgQbytes qp := not_lt.mp hfull
    cases hfp : s.msgfp with
    | none =>
      rw [hfp] at ht
      dsimp only at ht
      split_ifs at ht
      · exact hI.fails hhdr hmine ht
      · cases ht
        exact steps_same (hI.goTo (u := s.sleep p .msgfp) (x := .getres a qp type (some .msgfp))
          rfl rfl rfl hhdr hmine hI.bound rfl rfl hok') rfl rfl rfl hhdr rfl
    | some mp =>
      rw [hfp] at ht
      dsimp only at ht
      by_cases h0 : a.msgsz = 0
      · rw [if_pos h0] at ht
        cases ht
        exact hI.takeHeader hhdr hfp hmine halloc hok' hfit (.inl ⟨h0, rfl⟩)
      · rw [if_neg h0] at ht
        cases hm : Os.malloc s.msgmap (cfg.btoq a.msgsz.toNat) with
        | none => rw [hm] at ht; cases ht
        | some r =>
          obtain ⟨spot, map⟩ := r
          rw [hm] at ht
          dsimp only at ht
          by_cases hspot : spot ≠ 0
          · rw [if_pos hspot] at ht
            cases ht
            exact hI.takeHeader hhdr hfp hmine halloc hok' hfit (.inr ⟨h0, hspot, hm⟩)
          · rw [if_neg hspot] at ht
            obtain rfl : spot = 0 := not_not.mp hspot
            split_ifs at ht
            · obtain ⟨h1, h2, h3, h4, -⟩ := hI.out ht (putBack_lists hfp) rfl rfl hhdr hmine hI.bound
              exact steps_failed h1 h2 hm h3 h4 hhdr rfl
            · cases ht
              have hlists := putBack_lists hfp
                (m := { map with mapwant := (map.mapwant + 1) % Os.wordSize })
              exact steps_failed (hI.goTo (u := (({ s with
                msgfp := s.msgNext mp
                msgmap := { map with mapwant := (map.mapwant + 1) % Os.wordSize } } :
                  MsgState).freeHeader mp).sleep p .msgmap) (x := .getres a qp type (some .msgmap))
                hlists rfl rfl hhdr hmine hI.bound rfl rfl hok') hlists hm rfl rfl hhdr rfl

omit hI in
theorem sum_append_update {l : List ℕ} {f : ℕ → ℤ} {mp : ℕ} {v : ℤ} (h : mp ∉ l) :
    (l.map (update f mp v)).sum = (l.map f).sum := by
  congr 1
  apply map_congr_left
  intro x hx
  refine update_of_ne ?_ _ _
  rintro rfl
  exact h hx

omit hI in
theorem mfree_same {size a : ℕ} (hu : s.mfree size a = some u) :
    u.lists = s.lists ∧ u.rest = s.rest := by
  obtain ⟨r, -, rfl⟩ := map_eq_some_iff.mp hu
  exact ⟨rfl, rfl⟩

omit hI in
/-- The segments when `p` gives its own back. -/
theorem give_texts (hP : Placed cfg fl ql loc fun y => (s.proc y).header) {mp size a : ℕ}
    (hhdr : (s.proc p).header = some mp) (htext : (s.proc p).text cfg = some ⟨a, size⟩)
    (hts : t.msgTs = s.msgTs) (hspot : t.msgSpot = s.msgSpot)
    (hproc : t.proc = update s.proc p .idle) {r : Os.RMap × Os.Mfree}
    (hr : Os.mfree s.msgmap size a = some r) (hmap : t.msgmap = r.1)
    (hlost : t.lost = s.lost + if r.2 = .overflow then 1 else 0) :
    Texts.Change cfg (s.texts cfg loc) (t.texts cfg (update loc mp (some .free))) := by
  have hloc : loc mp = some (.sending p) := (hP.sending mp p).mp hhdr
  have hsome : s.seg cfg loc mp = some ⟨a, size⟩ := by
    unfold MsgState.seg
    rw [hloc]
    exact htext
  refine .gave mp ⟨a, size⟩ r ((hP.all mp).mp (by simp [hloc])) hsome hr hmap hlost ?_
  refine seg_move .free (fun h q _ _ => by rw [hts, hspot]; exact ⟨rfl, rfl⟩) fun h y hne hy => ?_
  have hyp : y ≠ p := by
    rintro rfl
    rw [(hP.sending h y).mpr hy] at hhdr
    exact hne (Option.some.inj hhdr)
  rw [hproc, update_of_ne hyp]

/-- The process puts its header back, and its call returns. -/
theorem MsgInv.giveBack {mp size a : ℕ}
    (hu : s.mfree size a = some u) (htext : (s.proc p).text cfg = some ⟨a, size⟩)
    (hhdr : (s.proc p).header = some mp) (hmine : Mine s p qp) :
    Steps cfg s ql loc (((u.freeHeader mp).setLock qp false).setProc p .idle) := by
  obtain ⟨hlists, hrest⟩ := mfree_same hu
  have hC := (hI.core.same hlists).freeHeader hhdr
  simp only [MsgState.lists, MsgState.rest, Prod.mk.injEq] at hlists hrest
  obtain ⟨-, ⟨-, hts, htype, hcb⟩, halloc, hser, hdel, hsent⟩ := hlists
  obtain ⟨⟨-, -, hspot⟩, -, ⟨-, hqb⟩, ⟨hlock, hproc⟩, -⟩ := hrest
  have hproc' : Function.update u.proc p .idle = Function.update s.proc p .idle := by rw [hproc]
  refine ⟨mp :: fl, ql, _, hI.update (p := p) (x := .idle) ?_ hproc' (hC.same rfl) ?_
    (by rintro q ⟨⟩) ?_ trivial ?_, .same ⟨hser, hsent, hdel⟩, fun _ => ?_⟩
  · refine ⟨fun _ _ _ _ => rfl, fun _ _ _ _ => ?_, fun y q hy hq => ?_, fun y q _ hq => ?_,
      fun _ _ _ _ _ _ => ?_⟩
    · show u.msgCbytes _ = _
      rw [hcb]
    · show Function.update u.msglock qp false q = true
      rw [update_of_ne (hmine.ne hy hq), hlock]
      exact (hI.locked y q hq).1
    · show u.ipcAlloc q = true
      rw [halloc]
      exact (hI.locked y q hq).2
    · show u.msgType _ = _
      rw [htype]
  · intro q
    show (u.msgCbytes q : ℤ) = ((ql q).map u.msgTs).sum
    rw [hcb, hts]
    exact hI.bytes q
  · intro q hq
    have hq' : u.ipcAlloc q = false := hq
    rw [halloc] at hq'
    exact hI.gone q hq'
  · intro q
    show u.msgQbytes q < 65536 ∧ u.msgCbytes q < 65536
    rw [hqb, hcb]
    exact hI.bound q
  · obtain ⟨r, hr, rfl⟩ := map_eq_some_iff.mp hu
    exact give_texts hI.core.placed hhdr htext hts hspot hproc' hr rfl rfl

omit hI in
theorem setCbytes_lt (hb : ∀ q, s.msgQbytes q < 65536 ∧ s.msgCbytes q < 65536) {v : ℤ} (q : ℕ) :
    (s.setCbytes qp v).msgCbytes q < 65536 := by
  show update s.msgCbytes qp (ushort v) q < 65536
  rw [update_apply]
  split_ifs with hq
  · unfold ushort
    omega
  · exact (hb q).2

omit hI in
/-- The header keeps its segments when it goes on the queue. -/
theorem put_texts (hP : Placed cfg fl ql loc fun y => (s.proc y).header) {cnt type spot : ℤ}
    {mp : ℕ} (hhdr : (s.proc p).header = some mp)
    (htext : (s.proc p).text cfg = cfg.seg (short cnt) (short spot + 1)) :
    Texts.Change cfg (s.texts cfg loc) (((((s.enqueue qp cnt type spot mp).wakeReaders qp).setLock qp
      false).setProc p .idle).texts cfg (update loc mp (some (.queue qp)))) := by
  have hloc : loc mp = some (.sending p) := (hP.sending mp p).mp hhdr
  refine .same ⟨rfl, rfl⟩ rfl ?_
  refine (seg_move (.queue qp) (fun h q hne _ => ⟨update_of_ne hne _ _,
    update_of_ne hne _ _⟩) fun h y hne hy => ?_).trans ?_
  · have hyp : y ≠ p := by
      rintro rfl
      rw [(hP.sending h y).mpr hy] at hhdr
      exact hne (Option.some.inj hhdr)
    show (update s.proc p .idle y).text cfg = _
    rw [update_of_ne hyp]
  · have hnew : cfg.seg (update s.msgTs mp (short cnt) mp)
        (update s.msgSpot mp (short spot) mp + 1) = s.seg cfg loc mp := by
      rw [update_self, update_self, ← htext]
      unfold MsgState.seg
      rw [hloc]
    show update (s.seg cfg loc) mp (cfg.seg _ _) = s.seg cfg loc
    exact (congrArg _ hnew).trans (update_eq_self _ _)

/-- The message goes on the queue, and the call returns. -/
theorem MsgInv.putOn {cnt type spot : ℤ} {mp : ℕ}
    (hhdr : (s.proc p).header = some mp) (hlocks : (s.proc p).locks = some qp)
    (htext : Spots s → (s.proc p).text cfg = cfg.seg (short cnt) (short spot + 1))
    (hcnt : 0 ≤ cnt ∧ cnt ≤ cfg.msgmax) (htype : 1 ≤ type ∧ type < 2 ^ 31)
    (hfit : cnt + s.msgCbytes qp < 65536) :
    Steps cfg s ql loc ((((s.enqueue qp cnt type spot mp).wakeReaders qp).setLock qp false).setProc p
      .idle) := by
  have hmine := hI.mine_of_locks hlocks
  have hE := @Core.enqueue mp cfg s fl ql loc _ p qp hI.core hhdr cnt type spot hcnt htype
  have hnew : ∀ q, mp ∉ ql q := by
    intro q hq
    have h1 := (hI.core.placed.queue mp q).mp hq
    rw [(hI.core.placed.sending mp p).mp hhdr] at h1
    cases h1
  have hne : ∀ y q, y ≠ p → (s.proc y).locks = some q → q ≠ qp := fun _ _ => hmine.ne
  have hshort : short cnt = cnt := short_eq (by have := cfg.max_lt; omega)
  refine ⟨fl, _, _, hI.update (p := p) (x := .idle) ?_ rfl (hE.same rfl) ?_ (by rintro q ⟨⟩) ?_
    trivial ?_, .sent qp mp hnew ⟨rfl, rfl, rfl⟩, fun hs => ?_⟩
  · refine ⟨fun y q hy hq => update_of_ne (hne y q hy hq) _ _,
      fun y q hy hq => update_of_ne (hne y q hy hq) _ _, fun y q hy hq => ?_,
      fun y q _ hq => (hI.locked y q hq).2, fun y q hy hq h hh => ?_⟩
    · show Function.update s.msglock qp false q = true
      rw [update_of_ne (hne y q hy hq)]
      exact (hI.locked y q hq).1
    · refine update_of_ne ?_ _ _
      rintro rfl
      exact hnew q hh
  · intro q
    show (Function.update s.msgCbytes qp (ushort (s.msgCbytes qp + cnt)) q : ℤ) =
      ((Function.update ql qp (ql qp ++ [mp]) q).map (Function.update s.msgTs mp (short cnt))).sum
    have hb := hI.bytes q
    by_cases hq : q = qp
    · subst hq
      rw [update_self, update_self, map_append, sum_append,
        sum_append_update (hnew q), ← hb, ushort_eq (by omega)]
      simp [hshort]
    · rw [update_of_ne hq, update_of_ne hq, sum_append_update (hnew q)]
      exact hb
  · intro q hq
    have hq' : s.ipcAlloc q = false := hq
    have hqp : q ≠ qp := by
      rintro rfl
      rw [(hI.locked p q hlocks).2] at hq'
      cases hq'
    rw [update_of_ne hqp]
    exact hI.gone q hq'
  · exact fun q => ⟨(hI.bound q).1, setCbytes_lt hI.bound q⟩
  · exact put_texts hI.core.placed hhdr (htext hs)

theorem MsgInv.msgsndMove {a : SndArgs} {type : ℤ} {mp spot : ℕ}
    (hproc : s.proc p = .sndMove a qp type mp spot)
    (ht : s.msgsndMove cfg p env a qp type mp spot = some (o, t)) : Steps cfg s ql loc t := by
  have hhdr : (s.proc p).header = some mp := by rw [hproc]; rfl
  have hmine : Mine s p qp := hI.mine_of_locks (by rw [hproc]; rfl)
  have hok := hI.procs p
  rw [hproc] at hok
  obtain ⟨hsz, htype, hfit⟩ := hok
  unfold MsgState.msgsndMove at ht
  by_cases hfault : a.msgsz ≠ 0 ∧ env.fault
  · rw [if_pos hfault] at ht
    obtain ⟨u, hu, ht⟩ := bind_eq_some_iff.mp ht
    have htext : (s.proc p).text cfg = some ⟨spot, cfg.btoq a.msgsz.toNat⟩ := by
      rw [hproc]
      exact if_neg hfault.1
    cases ht
    exact hI.giveBack hu htext hhdr hmine
  · rw [if_neg hfault] at ht
    cases ht
    refine hI.putOn hhdr (by rw [hproc]; rfl) (fun hs => ?_) hsz htype hfit
    have hshort : short a.msgsz = a.msgsz := short_eq (by have := cfg.max_lt; omega)
    rw [hproc, hshort]
    by_cases h0 : a.msgsz = 0
    · show cfg.seg a.msgsz _ = _
      rw [MsgInfo.seg, MsgInfo.seg, if_pos h0, if_pos h0]
    · have hspot := hs p a qp type mp spot hproc h0
      rw [if_pos h0, short_eq (by omega), Int.sub_add_cancel]
      rfl

/-- What `msgrcv` does with the message it has copied out. -/
theorem MsgInv.deliver {a : RcvArgs} {smp : ℕ} {spmp : Option ℕ}
    {l₁ l₂ : List ℕ} (hproc : s.proc p = .rcvMove a qp smp spmp) (hq : ql qp = l₁ ++ smp :: l₂)
    (hlast : spmp = l₁.getLast?)
    (hu : (s.setCbytes qp (s.msgCbytes qp - s.msgTs smp)).msgfree cfg qp spmp smp = some u)
    (ht : t = ({ u with delivered := s.serial smp :: s.delivered }.setLock qp false).setProc p
      .idle) :
    ∃ fl' loc', MsgInv cfg t fl' (Function.update ql qp (l₁ ++ l₂)) loc' ∧
      (t.serial = s.serial ∧ t.sent = s.sent ∧ t.delivered = s.serial smp :: s.delivered) ∧
      (t.msgType = s.msgType ∧ t.msgTs = s.msgTs ∧ t.msgSpot = s.msgSpot) ∧
      Texts.Change cfg (s.texts cfg loc) (t.texts cfg loc') := by
  have hhdr : (s.proc p).header = none := by rw [hproc]; rfl
  have hlocks : (s.proc p).locks = some qp := by rw [hproc]; rfl
  have hmine := hI.mine_of_locks hlocks
  have hC : Core cfg (s.setCbytes qp (s.msgCbytes qp - s.msgTs smp)) fl ql loc
      (fun y => (s.proc y).header) :=
    ⟨hI.core.1, hI.core.2, hI.core.3, hI.core.4, hI.core.5, hI.core.6, hI.core.7⟩
  rw [hlast] at hu
  obtain ⟨hC', hF, -⟩ := msgfree_spec (p := p) hC hhdr hq hu
  have htexts := msgfree_texts (p := p) hC hhdr hq hu
  have hrest := hF.rest
  simp only [MsgState.rest, Prod.mk.injEq] at hrest
  obtain ⟨⟨htype, hts, hspot⟩, ⟨halloc, -, -⟩, ⟨hcb, hqb⟩, ⟨hlock, hpr⟩, hser, hsent, -⟩ := hrest
  have hne : ∀ y q, y ≠ p → (s.proc y).locks = some q → q ≠ qp := fun _ _ => hmine.ne
  subst ht
  refine ⟨smp :: fl, Function.update loc smp (some .free),
    hI.update (p := p) (x := .idle) ?_ ?_ ?_ ?_ (by rintro q ⟨⟩) ?_ trivial ?_, ⟨hser, hsent, rfl⟩,
    ⟨htype, hts, hspot⟩, htexts.trans (.same ⟨rfl, rfl⟩ rfl (seg_same rfl rfl rfl (p := p) (x := .idle) ?_ rfl))⟩
  · refine ⟨fun y q hy hq => update_of_ne (hne y q hy hq) _ _, fun y q hy hq => ?_,
      fun y q hy hq => ?_, fun y q _ hq => ?_, fun y q _ _ h _ => ?_⟩
    · show u.msgCbytes q = s.msgCbytes q
      rw [hcb]
      exact update_of_ne (hne y q hy hq) _ _
    · show Function.update u.msglock qp false q = true
      rw [update_of_ne (hne y q hy hq), hlock]
      exact (hI.locked y q hq).1
    · show u.ipcAlloc q = true
      rw [halloc]
      exact (hI.locked y q hq).2
    · show u.msgType h = _
      rw [htype]
      rfl
  · show Function.update u.proc p .idle = _
    rw [hpr]
    rfl
  · rw [header_update (x := .idle) hhdr]
    exact ⟨hC'.1, hC'.2, hC'.3, hC'.4, hC'.5, hC'.6, hC'.7⟩
  · intro q
    show (u.msgCbytes q : ℤ) = ((Function.update ql qp (l₁ ++ l₂) q).map u.msgTs).sum
    rw [hcb, hts]
    show (Function.update s.msgCbytes qp (ushort (s.msgCbytes qp - s.msgTs smp)) q : ℤ) =
      ((Function.update ql qp (l₁ ++ l₂) q).map s.msgTs).sum
    by_cases hqq : q = qp
    · have hb := hI.bytes qp
      have hlt := (hI.bound qp).2
      have hpos : ∀ l : List ℕ, l ⊆ ql qp → 0 ≤ (l.map s.msgTs).sum := by
        intro l hl
        apply sum_nonneg
        intro v hv
        obtain ⟨h, hh, rfl⟩ := mem_map.mp hv
        exact (hI.core.text qp h (hl hh)).1
      have h1 := hpos l₁ (by simp [hq])
      have h2 := hpos l₂ (by rw [hq]; intro h hh; simp [hh])
      have h3 := (hI.core.text qp smp (by simp [hq])).1
      rw [hqq, update_self, update_self, map_append, sum_append]
      rw [hq, map_append, sum_append, map_cons, sum_cons] at hb
      rw [ushort_eq (by omega)]
      omega
    · rw [update_of_ne hqq, update_of_ne hqq]
      exact hI.bytes q
  · intro q hq'
    have hq'' : u.ipcAlloc q = false := hq'
    rw [halloc] at hq''
    have hqp : q ≠ qp := by
      rintro rfl
      have hq3 : s.ipcAlloc q = false := hq''
      rw [(hI.locked p q hlocks).2] at hq3
      cases hq3
    rw [update_of_ne hqp]
    exact hI.gone q hq''
  · intro q
    show u.msgQbytes q < 65536 ∧ u.msgCbytes q < 65536
    rw [hqb, hcb]
    exact ⟨(hI.bound q).1, setCbytes_lt hI.bound q⟩
  · rw [hpr]
    exact hhdr

theorem MsgInv.msgrcvMove {a : RcvArgs} {smp : ℕ} {spmp : Option ℕ}
    (hproc : s.proc p = .rcvMove a qp smp spmp)
    (ht : s.msgrcvMove cfg p env a qp smp spmp = some (o, t)) : Steps cfg s ql loc t := by
  have hhdr : (s.proc p).header = none := by rw [hproc]; rfl
  have hmine : Mine s p qp := hI.mine_of_locks (by rw [hproc]; rfl)
  have hok := hI.procs p
  rw [hproc] at hok
  unfold MsgState.msgrcvMove at ht
  refine hI.unless hhdr hmine ht fun _ ht => ?_
  obtain ⟨u, hu, ht⟩ := bind_eq_some_iff.mp ht
  rcases hok.2 with ⟨h, -⟩ | ⟨l₁, m, l₂, hq, hm, hlast, -⟩
  · cases h
  · cases hm
    cases ht
    obtain ⟨fl', loc', hI', hg, -, htexts⟩ := hI.deliver hproc hq hlast hu rfl
    exact ⟨fl', _, loc', hI', .delivered qp l₁ smp l₂ hq hg, fun _ => htexts⟩

/-- A queue that no other process has locked is emptied and given up. -/
theorem MsgInv.emptied {fl' : List ℕ} {loc' : ℕ → Option Place}
    (hhdr : (s.proc p).header = none) (hmine : Mine s p qp)
    (hC : Core cfg t fl' (Function.update ql qp []) loc' fun y => (s.proc y).header)
    (htexts : t.msgType = s.msgType ∧ t.msgTs = s.msgTs)
    (hcb : t.msgCbytes = Function.update s.msgCbytes qp 0) (hqb : t.msgQbytes = s.msgQbytes)
    (hlock : t.msglock = Function.update s.msglock qp false)
    (halloc : t.ipcAlloc = Function.update s.ipcAlloc qp false)
    (hproc : t.proc = Function.update s.proc p .idle) :
    MsgInv cfg t fl' (Function.update ql qp []) loc' := by
  obtain ⟨htype, hts⟩ := htexts
  have hne : ∀ y q, y ≠ p → (s.proc y).locks = some q → q ≠ qp := fun _ _ => hmine.ne
  refine hI.update (p := p) (x := .idle) ?_ hproc ?_ ?_ (by rintro q ⟨⟩) ?_ trivial ?_
  · refine ⟨fun y q hy hq => update_of_ne (hne y q hy hq) _ _, fun y q hy hq => ?_,
      fun y q hy hq => ?_, fun y q hy hq => ?_, fun y q _ _ h _ => by rw [htype]⟩
    · rw [hcb, update_of_ne (hne y q hy hq)]
    · rw [hlock, update_of_ne (hne y q hy hq)]
      exact (hI.locked y q hq).1
    · rw [halloc, update_of_ne (hne y q hy hq)]
      exact (hI.locked y q hq).2
  · rw [header_update (x := .idle) hhdr]
    exact hC
  · intro q
    rw [hcb, hts]
    by_cases hq : q = qp
    · rw [hq, update_self, update_self]
      rfl
    · rw [update_of_ne hq, update_of_ne hq]
      exact hI.bytes q
  · intro q hq
    by_cases hqq : q = qp
    · rw [hqq, update_self]
    · rw [halloc, update_of_ne hqq] at hq
      rw [update_of_ne hqq]
      exact hI.gone q hq
  · intro q
    rw [hqb, hcb]
    refine ⟨(hI.bound q).1, ?_⟩
    rw [update_apply]
    split_ifs with hqq
    · omega
    · exact (hI.bound q).2

omit hI in
/-- The end of `IPC_RMID`, of which only the fields that matter here are written out. -/
theorem rmid_end {msqid : ℤ} (hu : freeAll cfg qp cfg.msgtql s = some u)
    (ht : s.rmid cfg p msqid qp = some (o, t)) :
    ∃ w rw ww z, t = { u with
      msgCbytes := update u.msgCbytes qp (ushort 0)
      msglock := update u.msglock qp false
      ipcAlloc := update u.ipcAlloc qp false
      proc := update u.proc p .idle
      seq := w
      msgRwait := rw
      msgWwait := ww
      slp := z } := by
  unfold MsgState.rmid at ht
  rw [hu] at ht
  simp only [bind_some, MsgState.out, setCbytes, wakeReaders, setRwait, wakeWriters, setWwait,
    wakeup, setLock, setProc, Option.some.injEq, Prod.mk.injEq] at ht
  obtain ⟨-, rfl⟩ := ht
  exact ⟨_, _, _, _, rfl⟩

/-- `IPC_RMID` empties the queue. -/
theorem MsgInv.rmid {msqid : ℤ} (hhdr : (s.proc p).header = none)
    (hmine : Mine s p qp) (ht : s.rmid cfg p msqid qp = some (o, t)) : Steps cfg s ql loc t := by
  have hfree : ∃ u, freeAll cfg qp cfg.msgtql s = some u := by
    obtain ⟨u, hu, -⟩ := bind_eq_some_iff.mp ht
    exact ⟨u, hu⟩
  obtain ⟨u, hu⟩ := hfree
  obtain ⟨fl', loc', hC, hrest, -, -, -, htexts⟩ := freeAll_spec (p := p) hI.core hhdr rfl hu
  simp only [MsgState.rest, Prod.mk.injEq] at hrest
  obtain ⟨⟨htype, hts, -⟩, ⟨halloc, -, -⟩, ⟨hcb, hqb⟩, ⟨hlock, hpr⟩, hser, hsent, hdel⟩ := hrest
  obtain ⟨w, rw, ww, z, rfl⟩ := rmid_end hu ht
  refine ⟨fl', Function.update ql qp [], loc',
    hI.emptied hhdr hmine ⟨hC.1, hC.2, hC.3, hC.4, hC.5, hC.6, hC.7⟩ ⟨htype, hts⟩ ?_ hqb ?_ ?_ ?_,
    .removed qp ⟨hser, hsent, hdel⟩, fun _ => htexts.trans (.same ⟨rfl, rfl⟩ rfl
      (seg_same rfl rfl rfl (p := p) (x := .idle) ?_ rfl))⟩
  · rw [← hcb]
    rfl
  · rw [← hlock]
  · rw [← halloc]
  · rw [← hpr]
  · rw [hpr]
    exact hhdr

theorem MsgInv.msgctlStart {msqid : ℤ} {cmd : MsgCmd}
    (hproc : s.proc p = .ctlStart msqid cmd)
    (ht : s.msgctlStart cfg p env msqid cmd = some (o, t)) : Steps cfg s ql loc t := by
  have hhdr : (s.proc p).header = none := by rw [hproc]; rfl
  unfold MsgState.msgctlStart at ht
  cases hc : s.msgconv cfg msqid with
  | busy => rw [hc] at ht; cases ht
  | einval =>
    rw [hc] at ht
    exact hI.returns hhdr ht
  | qp qp =>
    rw [hc] at ht
    obtain ⟨hlock, halloc, hqp⟩ := msgconv_qp hc
    have hmine := hI.mine_of_unlocked (p := p) hlock
    cases cmd with
    | rmid =>
      dsimp only at ht
      refine hI.unless hhdr hmine ht fun _ ht => ?_
      exact hI.rmid hhdr hmine ht
    | set | stat =>
      dsimp only at ht
      refine hI.unless hhdr hmine ht fun _ ht => ?_
      cases ht
      exact steps_same (hI.goLocked (u := s) (x := .ctlCopy qp _) rfl rfl rfl hhdr hmine halloc
        hI.bound rfl rfl trivial) rfl rfl rfl hhdr rfl
    | other => exact hI.fails hhdr hmine ht

theorem MsgInv.msgctlCopy {set : Bool}
    (hproc : s.proc p = .ctlCopy qp set) (ht : s.msgctlCopy p env qp set = some (o, t)) :
    Steps cfg s ql loc t := by
  have hhdr : (s.proc p).header = none := by rw [hproc]; rfl
  have hmine : Mine s p qp := hI.mine_of_locks (by rw [hproc]; rfl)
  unfold MsgState.msgctlCopy at ht
  refine hI.unless hhdr hmine ht fun _ ht => ?_
  refine hI.unless hhdr hmine ht fun _ ht => ?_
  refine hI.unless hhdr hmine ht fun _ ht => ?_
  refine steps_out (hI.out ht rfl rfl rfl hhdr hmine fun q => ⟨?_, (hI.bound q).2⟩) rfl
  show Function.update s.msgQbytes qp env.qbytes.1 q < 65536
  rw [update_apply]
  split_ifs with hq
  · exact env.qbytes.2
  · exact (hI.bound q).1

theorem MsgInv.signal (ht : s.signal p = some (o, t)) :
    Steps cfg s ql loc t := by
  unfold MsgState.signal at ht
  have hok := hI.procs p
  cases hproc : s.proc p with
  | getres a qp type slept =>
    have hhdr : (s.proc p).header = none := by rw [hproc]; rfl
    rw [hproc] at ht
    rcases slept with - | ch
    · cases ht
    · cases ch <;> cases ht <;>
        exact steps_same (hI.quiet (u := { s with slp := Function.update s.slp p none }) rfl rfl rfl
          hhdr hI.bound rfl rfl trivial) rfl rfl rfl hhdr rfl
  | findmsg a qp slept =>
    have hhdr : (s.proc p).header = none := by rw [hproc]; rfl
    rw [hproc] at ht
    cases slept with
    | false => cases ht
    | true =>
      cases ht
      exact steps_same (hI.quiet (u := { s with slp := Function.update s.slp p none }) rfl rfl rfl
        hhdr hI.bound rfl rfl trivial) rfl rfl rfl hhdr rfl
  | _ => rw [hproc] at ht; cases ht

theorem MsgInv.lockSignal (ht : s.lockSignal cfg p = some (o, t)) :
    Steps cfg s ql loc t := by
  unfold MsgState.lockSignal at ht
  have hhdr : (s.proc p).header = none := by
    cases hproc : s.proc p with
    | sndMove a qp type mp spot =>
      rw [hproc] at ht
      cases ht
    | _ => rfl
  split at ht
  · cases ht
    exact steps_same (hI.quiet rfl rfl rfl hhdr hI.bound rfl rfl trivial) rfl rfl rfl hhdr rfl
  · cases ht

omit hI in
/-- The queue that `msgget` sets up was empty. -/
theorem msgget_lists (hC : Core cfg s fl ql loc fun y => (s.proc y).header) (hnil : ql qp = []) :
    { s.msgget cfg qp with ipcAlloc := s.ipcAlloc }.lists = s.lists := by
  have hfirst : update s.msgFirst qp none = s.msgFirst := by
    have h := hC.queue qp
    rw [hnil] at h
    rw [← show s.msgFirst qp = none from h]
    exact update_eq_self qp s.msgFirst
  have hlast : update s.msgLast qp none = s.msgLast := by
    have h := hC.last qp
    rw [hnil] at h
    rw [← show s.msgLast qp = none from h]
    exact update_eq_self qp s.msgLast
  have hnum : update s.msgQnum qp (ushort 0) = s.msgQnum := by
    have h := hC.qnum qp
    rw [hnil] at h
    rw [← show s.msgQnum qp = ushort 0 from h]
    exact update_eq_self qp s.msgQnum
  show ((s.msgNext, s.msgfp, update s.msgFirst qp none, update s.msgLast qp none),
    (update s.msgQnum qp (ushort 0), _), _) = _
  rw [hfirst, hlast, hnum]
  rfl

theorem MsgInv.msgget (hq : s.ipcAlloc qp = false) :
    Steps cfg s ql loc (s.msgget cfg qp) := by
  have hC : Core cfg (s.msgget cfg qp) fl ql loc fun y => (s.proc y).header := by
    have h := hI.core.same (msgget_lists hI.core (hI.gone qp hq))
    exact ⟨h.1, h.2, h.3, h.4, h.5, h.6, h.7⟩
  refine ⟨fl, ql, loc, ⟨hC, hI.bytes, fun y q hy => ?_, hI.one, fun q hq' => ?_,
    fun y => (hI.procs y).congr rfl rfl, fun q => ?_⟩, .same ⟨rfl, rfl, rfl⟩,
    fun _ => .same ⟨rfl, rfl⟩ rfl rfl⟩
  · exact ⟨(hI.locked y q hy).1, locked_update (.inl (hI.locked y q hy).2)⟩
  · apply hI.gone
    by_contra hne
    have hq'' : Function.update s.ipcAlloc qp true q = false := hq'
    rw [locked_update (.inl (by simpa using hne))] at hq''
    cases hq''
  · refine ⟨?_, (hI.bound q).2⟩
    show Function.update s.msgQbytes qp (ushort cfg.msgmnb) q < 65536
    rw [update_apply]
    split_ifs with hqq
    · unfold ushort
      omega
    · exact (hI.bound q).1

/-- **Every event keeps the invariant**, and changes the queues in one of four ways. -/
theorem MsgInv.run {e : MsgEvent} (ht : s.run cfg e = some (o, t)) :
    Steps cfg s ql loc t := by
  cases e with
  | call p c =>
    unfold MsgState.run at ht
    dsimp only at ht
    cases hproc : s.proc p with
    | idle =>
      have hhdr : (s.proc p).header = none := by rw [hproc]; rfl
      rw [hproc] at ht
      cases ht
      cases c <;> exact steps_same (hI.quiet rfl rfl rfl hhdr hI.bound rfl rfl trivial) rfl rfl rfl hhdr rfl
    | _ => rw [hproc] at ht; cases ht
  | go p env =>
    unfold MsgState.run at ht
    dsimp only at ht
    split at ht
    · unfold MsgState.go at ht
      cases hproc : s.proc p <;> rw [hproc] at ht
      · cases ht
      · exact hI.msgsndStart hproc ht
      · exact hI.msgsndType hproc ht
      · exact hI.msgsndGetres hproc ht
      · exact hI.msgsndIntr hproc ht
      · exact hI.msgsndMove hproc ht
      · exact hI.msgrcvStart hproc ht
      · exact hI.msgrcvFind hproc ht
      · exact hI.msgrcvMove hproc ht
      · exact hI.msgctlStart hproc ht
      · exact hI.msgctlCopy hproc ht
    · cases ht
  | signal p => exact hI.signal ht
  | lockSignal p =>
    unfold MsgState.run at ht
    dsimp only at ht
    split_ifs at ht
    exact hI.lockSignal ht
  | msgget qp =>
    unfold MsgState.run at ht
    dsimp only at ht
    by_cases h : qp < cfg.msgmni ∧ ¬ s.ipcAlloc qp
    · rw [if_pos h] at ht
      cases ht
      exact hI.msgget (by simpa using h.2)
    · rw [if_neg h] at ht
      cases ht

end

end steps

/-! ## Runs -/

section runs

variable {cfg : MsgInfo} {s t : MsgState}

open MsgState

/-- `msginit` links the headers in their order. -/
theorem linked_init (k n : ℕ) (h : k + n = cfg.msgtql) :
    Linked (MsgState.init cfg).msgNext (if n = 0 then none else some k) (List.range' k n) := by
  induction n generalizing k with
  | zero => rfl
  | succ n ih =>
    rw [List.range'_succ, if_neg (Nat.succ_ne_zero n)]
    refine ⟨rfl, ?_⟩
    have hnext : (MsgState.init cfg).msgNext k = if n = 0 then none else some (k + 1) := by
      show (if k + 1 < cfg.msgtql then some (k + 1) else none) = _
      split
      · rw [if_neg (by omega)]
      · rw [if_pos (by omega)]
    rw [hnext]
    exact ih (k + 1) (by omega)

theorem MsgInv.init : MsgInv cfg (MsgState.init cfg) (List.range' 0 cfg.msgtql) (fun _ => [])
    (fun h => if h < cfg.msgtql then some .free else none) := by
  have hfree : Linked (MsgState.init cfg).msgNext (some 0) (List.range' 0 cfg.msgtql) := by
    have h := @linked_init cfg 0 cfg.msgtql (by omega)
    rwa [if_neg (by have := cfg.tql_pos; omega)] at h
  refine ⟨⟨hfree, fun _ => rfl, fun _ => rfl, fun _ => rfl, ?_, by simp, by simp⟩, fun _ => rfl,
    by rintro p qp ⟨⟩, by rintro p p' qp ⟨⟩, fun _ _ => rfl, fun _ => trivial, fun _ => ?_⟩
  · refine ⟨fun h => ?_, fun h qp => ?_, fun h p => ?_, fun h => ?_, nodup_range', by simp⟩
    · by_cases hh : h < cfg.msgtql <;> simp [hh]
    · by_cases hh : h < cfg.msgtql <;> simp [hh]
    · by_cases hh : h < cfg.msgtql <;> simp [hh, MsgProc.header, MsgState.init]
    · by_cases hh : h < cfg.msgtql <;> simp [hh]
  · exact ⟨Nat.zero_lt_succ _, Nat.zero_lt_succ _⟩

theorem step_run {e : MsgEvent} (h : s.step cfg e = some t) : ∃ o, s.run cfg e = some (o, t) := by
  obtain ⟨⟨o, t'⟩, hr, rfl⟩ := map_eq_some_iff.mp h
  exact ⟨o, hr⟩

end runs

end Io
