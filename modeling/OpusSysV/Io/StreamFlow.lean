import OpusSysV.Lib.Run
import OpusSysV.Io.Stream

/-!
# Back-enabling: what `QWANTW` remembers

A queue owes its nearest back queue an enabling from a failed `canput` on until
it enables that queue (`Owed`).  The debt is recorded in the flag `QWANTW` alone.

* `step_cases` says once what a call does to the flags `QWANTW` and to the log.
* All calls keep "owed implies `QWANTW`" but one: `flushq` of the data messages
  clears the flag, puts the control messages back, and when these weigh more than
  `q_lowat` neither enables the back queue nor restores the flag.
* `owed_wantw` — in a run that never takes that path no debt is lost, and draining
  pays it; `flushq_forgets` — the path is real.
-/

namespace Io

open Lib Function List

/-- `canput` on the queue failed since the queue last enabled its back queue. -/
def Owed : List Note → ℕ → Prop
  | [], _ => False
  | .refused k :: rest, i => k = i ∨ Owed rest i
  | .enabledBack k _ :: rest, i => k ≠ i ∧ Owed rest i

namespace Stream

variable {s t u : Stream} {i : ℕ}

/-! ## What the calls do to the flags -/

/-- The log, the flags `QWANTW` and what is fixed about the queues stay the same. -/
structure Quiet (s t : Stream) : Prop where
  log : t.log = s.log
  wantw : ∀ k, (t.queue k).qwantw = (s.queue k).qwantw
  srvp : ∀ k, (t.queue k).srvp = (s.queue k).srvp
  lowat : ∀ k, (t.queue k).lowat = (s.queue k).lowat

/-- `QWANTW` of queue `i` is cleared and its back queue enabled, if there is one. -/
structure Settled (i : ℕ) (s t : Stream) : Prop where
  log : t.log = ((s.back i).map (Note.enabledBack i)).toList ++ s.log
  wantw : ∀ k ≠ i, (t.queue k).qwantw = (s.queue k).qwantw
  srvp : ∀ k, (t.queue k).srvp = (s.queue k).srvp
  enabled : ∀ j, s.back i = some j → (t.queue j).qenab

/-- A `canput` decided by queue `i` failed. -/
structure Refused (i : ℕ) (s t : Stream) : Prop where
  log : t.log = .refused i :: s.log
  wantw : ∀ k, (t.queue k).qwantw = (decide (k = i) || (s.queue k).qwantw)
  srvp : ∀ k, (t.queue k).srvp = (s.queue k).srvp

theorem Quiet.refl (s : Stream) : Quiet s s := ⟨rfl, fun _ => rfl, fun _ => rfl, fun _ => rfl⟩

theorem Quiet.trans (h : Quiet s t) (h' : Quiet t u) : Quiet s u :=
  ⟨h'.log.trans h.log, fun k => (h'.wantw k).trans (h.wantw k),
    fun k => (h'.srvp k).trans (h.srvp k), fun k => (h'.lowat k).trans (h.lowat k)⟩

theorem back_congr (h : ∀ k, (t.queue k).srvp = (s.queue k).srvp) (i : ℕ) : t.back i = s.back i :=
  congrArg (backSrv · i) (funext h)

theorem srvp_of_back {srvp : ℕ → Bool} {i j : ℕ} (h : backSrv srvp i = some j) : srvp j := by
  induction i with
  | zero => simp [backSrv] at h
  | succ i ih =>
    rw [backSrv] at h
    split_ifs at h with hs
    · cases h; exact hs
    · exact ih h

/-- A change of a queue that leaves `QWANTW` and what is fixed alone. -/
theorem quiet_onQueue {f : Queue → Queue}
    (h : ∀ q, (f q).qwantw = q.qwantw ∧ (f q).srvp = q.srvp ∧ (f q).lowat = q.lowat) :
    Quiet s (s.onQueue i f) := by
  have hk : ∀ k, ((s.onQueue i f).queue k) = if k = i then f (s.queue i) else s.queue k :=
    fun k => update_apply _ _ _ _
  refine ⟨rfl, fun k => ?_, fun k => ?_, fun k => ?_⟩ <;> rw [hk] <;> split_ifs with hi
  · rw [hi, (h _).1]
  · rfl
  · rw [hi, (h _).2.1]
  · rfl
  · rw [hi, (h _).2.2]
  · rfl

theorem quiet_qenable (s : Stream) (i : ℕ) : Quiet s (s.qenable i) := by
  rw [qenable]
  split_ifs
  · have h : Quiet s (s.onQueue i fun q => { q with qenab := true }) :=
      quiet_onQueue fun q => ⟨rfl, rfl, rfl⟩
    exact ⟨h.log, h.wantw, h.srvp, h.lowat⟩
  · exact Quiet.refl s

/-- `qenable` never touches the count. -/
theorem count_qenable (s : Stream) (i k : ℕ) : ((s.qenable i).queue k).count = (s.queue k).count := by
  rw [qenable]
  split_ifs
  · simp only [onQueue, update_apply]
    split_ifs with hk
    · rw [hk]
    · rfl
  · rfl

theorem qenab_qenable (h : (s.queue i).srvp) : ((s.qenable i).queue i).qenab := by
  rw [qenable]
  split_ifs with hq
  · simp [onQueue]
  · simpa [h] using hq

theorem quiet_putq (s : Stream) (i : ℕ) (m : Msg) : Quiet s (s.putq i m) := by
  have h : Quiet s (s.onQueue i fun q => { q.weighIn m with msgs := putqPlace m q.msgs }) :=
    quiet_onQueue fun q => ⟨rfl, rfl, rfl⟩
  simp only [putq]
  split_ifs
  · exact h.trans (quiet_qenable _ _)
  · exact h

theorem quiet_putbq (s : Stream) (i : ℕ) (m : Msg) : Quiet s (s.putbq i m) := by
  have h : Quiet s (s.onQueue i fun q => { q.weighIn m with msgs := putbqPlace m q.msgs }) :=
    quiet_onQueue fun q => ⟨rfl, rfl, rfl⟩
  simp only [putbq]
  split_ifs
  · exact h.trans (quiet_qenable _ _)
  · exact h

theorem quiet_insq (s : Stream) (i : ℕ) (emp : Option ℕ) (m : Msg) : Quiet s (s.insq i emp m) := by
  have h : Quiet s (s.onQueue i fun q => { q.weighIn m with msgs := insqPlace emp m q.msgs }) :=
    quiet_onQueue fun q => ⟨rfl, rfl, rfl⟩
  simp only [insq]
  split_ifs
  · exact h.trans (quiet_qenable _ _)
  · exact h

theorem quiet_queuerun (h : s.queuerun = some t) : Quiet s t := by
  rw [queuerun] at h
  split at h
  · cases h
  · rename_i i rest _
    cases h
    have h : Quiet s (s.onQueue i fun q => { q with qenab := false }) :=
      quiet_onQueue fun q => ⟨rfl, rfl, rfl⟩
    exact ⟨h.log, h.wantw, h.srvp, h.lowat⟩

/-- Enabling the back queue of `i`, on a stream where `QWANTW` of `i` has just been
cleared. -/
theorem settled_enableBack (hw : ∀ k ≠ i, (t.queue k).qwantw = (s.queue k).qwantw)
    (hlog : t.log = s.log) (hs : ∀ k, (t.queue k).srvp = (s.queue k).srvp) :
    Settled i s (t.enableBack i) := by
  have hb := back_congr hs i
  rw [enableBack]
  cases hj : t.back i with
  | none => exact ⟨by rw [← hb, hj, hlog]; rfl, hw, hs, by simp [← hb, hj]⟩
  | some j =>
    have hq := quiet_qenable t j
    refine ⟨?_, fun k hk => (hq.wantw k).trans (hw k hk), fun k => (hq.srvp k).trans (hs k), ?_⟩
    · simp only [note, ← hb, hj, hq.log, hlog]
      rfl
    · intro j' hj'
      rw [← hb, hj] at hj'
      cases hj'
      exact qenab_qenable (srvp_of_back hj)

/-- The end of `getq` and `rmvq`: either the debt is paid, or nothing happens, and
then the count is above `q_lowat` or nobody waits. -/
theorem drained_cases (s : Stream) (i : ℕ) :
    Settled i s (s.drained i) ∨
      s.drained i = s ∧ ((s.queue i).qwantw → ¬ (s.queue i).count ≤ (s.queue i).lowat) := by
  rw [drained]
  split_ifs with h
  · refine Or.inl (settled_enableBack (fun k hk => ?_) rfl fun k => ?_)
    · simp [onQueue, hk]
    · simp only [onQueue, update_apply]
      split_ifs with hk
      · rw [hk]
      · rfl
  · exact Or.inr ⟨rfl, fun hw hc => h ⟨hc, hw⟩⟩

theorem quiet_getq (s : Stream) (i : ℕ) : ∃ u, Quiet s u ∧ (s.getq i).2 = u.drained i := by
  rw [getq]
  split
  · refine ⟨_, ?_, rfl⟩
    exact quiet_onQueue fun q => ⟨rfl, rfl, rfl⟩
  · refine ⟨_, ?_, rfl⟩
    exact quiet_onQueue fun q => ⟨rfl, rfl, rfl⟩

theorem quiet_rmvq {k : ℕ} (h : s.rmvq i k = some t) : ∃ u, Quiet s u ∧ t = u.drained i := by
  obtain ⟨m, -, rfl⟩ := Option.map_eq_some_iff.mp h
  refine ⟨_, ?_, rfl⟩
  exact quiet_onQueue fun q => ⟨rfl, rfl, rfl⟩

/-! ## `flushq` -/

/-- The weight of the messages a flush puts back, in the 16 bits of `q_count`. -/
def keptWeight (flag : Bool) (msgs : List Msg) : UInt16 := (msgs.filter (kept flag)).foldl addWeight 0

theorem keptWeight_true (msgs : List Msg) : keptWeight true msgs = 0 := by
  have h : kept true = fun _ => false := rfl
  rw [keptWeight, h, filter_false, foldl_nil]

theorem quiet_flushLoop (flag : Bool) (msgs : List Msg) (s : Stream) :
    Quiet s (flushLoop i flag msgs s) := by
  induction msgs generalizing s with
  | nil => exact Quiet.refl s
  | cons m msgs ih =>
    rw [flushLoop]
    split_ifs
    · exact (quiet_putq s i m).trans (ih _)
    · exact ih _

theorem count_putq (s : Stream) (i : ℕ) (m : Msg) :
    ((s.putq i m).queue i).count = addWeight (s.queue i).count m := by
  simp only [putq]
  split_ifs
  · rw [count_qenable]; simp [onQueue, Queue.weighIn]
  · simp [onQueue, Queue.weighIn]

theorem count_flushLoop (flag : Bool) (msgs : List Msg) (s : Stream) :
    ((flushLoop i flag msgs s).queue i).count =
      (msgs.filter (kept flag)).foldl addWeight (s.queue i).count := by
  induction msgs generalizing s with
  | nil => rfl
  | cons m msgs ih =>
    rw [flushLoop, ih]
    split_ifs with h
    · rw [filter_cons_of_pos h, foldl_cons, count_putq]
    · rw [filter_cons_of_neg h]

/-- A flush forgets its waiting writer when what it puts back weighs more than `q_lowat`. -/
def Forgets (s : Stream) (i : ℕ) (flag : Bool) : Prop :=
  (s.queue i).qwantw ∧ (s.queue i).lowat < keptWeight flag (s.queue i).msgs

/-- A flush pays the debt, or finds the flag clear, or forgets. -/
theorem flushq_cases (s : Stream) (i : ℕ) (flag : Bool) :
    ¬ Forgets s i flag ∧ Settled i s (s.flushq i flag) ∨
      (s.queue i).qwantw = false ∧ Quiet s (s.flushq i flag) ∨
      Forgets s i flag ∧ (s.flushq i flag).log = s.log ∧
        ((s.flushq i flag).queue i).qwantw = false ∧
        (∀ k, ((s.flushq i flag).queue k).srvp = (s.queue k).srvp) ∧
        ((s.flushq i flag).queue i).lowat < ((s.flushq i flag).queue i).count := by
  set c := s.onQueue i fun q => { q with msgs := [], count := 0, qfull := false, qwantw := false }
    with hc
  set u := flushLoop i flag (s.queue i).msgs c with hu
  have hloop : Quiet c u := quiet_flushLoop flag (s.queue i).msgs c
  have hself : c.queue i = { s.queue i with
      msgs := [], count := 0, qfull := false, qwantw := false } := by simp [hc, onQueue]
  have hother : ∀ k ≠ i, c.queue k = s.queue k := fun k hk => by simp [hc, onQueue, hk]
  have hcount : (u.queue i).count = keptWeight flag (s.queue i).msgs := by
    rw [hu, count_flushLoop, hself, keptWeight]
  have hlow : (u.queue i).lowat = (s.queue i).lowat := by rw [hloop.lowat, hself]
  have hwant : (u.queue i).qwantw = false := by rw [hloop.wantw, hself]
  have hsrvp : ∀ k, (u.queue k).srvp = (s.queue k).srvp := by
    intro k
    by_cases hk : k = i
    · rw [hloop.srvp, hk, hself]
    · rw [hloop.srvp, hother k hk]
  have heq : s.flushq i flag =
      if (u.queue i).count ≤ (u.queue i).lowat ∧ (s.queue i).qwantw then u.enableBack i else u := rfl
  rw [heq]
  split_ifs with h
  · refine Or.inl ⟨fun hf => ?_, settled_enableBack (fun k hk => ?_) hloop.log hsrvp⟩
    · rw [hlow, hcount] at h
      exact UInt16.not_le.mpr hf.2 h.1
    · rw [hloop.wantw, hother k hk]
  · by_cases hw : (s.queue i).qwantw
    · have hlt : (u.queue i).lowat < (u.queue i).count := UInt16.not_le.mp fun hle => h ⟨hle, hw⟩
      exact Or.inr (Or.inr ⟨⟨hw, by rwa [← hlow, ← hcount]⟩, hloop.log, hwant, hsrvp, hlt⟩)
    · have hw : (s.queue i).qwantw = false := by simpa using hw
      refine Or.inr (Or.inl ⟨hw, hloop.log, fun k => ?_, hsrvp, fun k => ?_⟩) <;>
        by_cases hk : k = i
      · rw [hk, hwant, hw]
      · rw [hloop.wantw, hother k hk]
      · rw [hk, hlow]
      · rw [hloop.lowat, hother k hk]

theorem canput_cases (s : Stream) (i : ℕ) :
    (s.canput i).2 = s ∨ ∃ j, Refused j s (s.canput i).2 := by
  simp only [canput]
  split_ifs with h
  · refine Or.inr ⟨s.canputEnd i, rfl, fun k => ?_, fun k => ?_⟩ <;>
      by_cases hk : k = s.canputEnd i <;> simp [note, onQueue, hk]
  · exact Or.inl rfl

/-! ## The debt is kept -/

/-- What is said of every state of a history. -/
structure BackEnable (s : Stream) : Prop where
  /-- A debt is recorded in `QWANTW`. -/
  wantw : ∀ i j, s.back i = some j → Owed s.log i → (s.queue i).qwantw
  /-- Draining the queue to `q_lowat` enables the back queue. -/
  drains : ∀ i j c t, s.back i = some j → Owed s.log i →
    (c = .getq i ∨ (∃ k, c = .rmvq i k) ∨ ∃ flag, c = .flushq i flag) → s.step c = some t →
    (t.queue i).count ≤ (t.queue i).lowat → (t.queue j).qenab ∧ ¬ Owed t.log i

/-- The calls a history may contain in a state: no flush that forgets. -/
def Remembers (s : Stream) (c : Call) : Prop := ∀ i flag, c = .flushq i flag → ¬ Forgets s i flag

/-- A debt is recorded in `QWANTW`. -/
def Recorded (s : Stream) : Prop :=
  ∀ i j, s.back i = some j → Owed s.log i → (s.queue i).qwantw

section

variable (h : Recorded s)

include h

theorem Recorded.quiet (hq : Quiet s t) : Recorded t := by
  intro i j hj ho
  rw [hq.log] at ho
  rw [hq.wantw]
  exact h i j ((back_congr hq.srvp i).symm.trans hj) ho

omit h in
theorem Settled.not_owed (hq : Settled i s t) {j : ℕ} (hj : s.back i = some j) :
    ¬ Owed t.log i := by
  rw [hq.log, hj]
  exact fun ho => ho.1 rfl

theorem Recorded.settled (hq : Settled i s t) : Recorded t := by
  intro k j hj ho
  rw [back_congr hq.srvp] at hj
  by_cases hk : k = i
  · rw [hk] at hj ho
    exact absurd ho (hq.not_owed hj)
  · rw [hq.wantw k hk]
    refine h k j hj ?_
    rw [hq.log] at ho
    cases hb : s.back i with
    | none => simpa [hb] using ho
    | some j' => rw [hb] at ho; exact ho.2

theorem Recorded.refused (hq : Refused i s t) : Recorded t := by
  intro k j hj ho
  rw [back_congr hq.srvp] at hj
  rw [hq.log] at ho
  rw [hq.wantw]
  rcases ho with rfl | ho
  · simp
  · simp [h k j hj ho]

theorem Recorded.drained (i : ℕ) : Recorded (s.drained i) := by
  rcases drained_cases s i with hq | ⟨heq, -⟩
  · exact h.settled hq
  · rwa [heq]

/-- **One call keeps the record**, unless it is a flush that forgets. -/
theorem Recorded.step {c : Call} (hok : Remembers s c) (hc : s.step c = some t) :
    Recorded t := by
  cases c with
  | putq i m => cases hc; exact h.quiet (quiet_putq s i m)
  | putbq i m => cases hc; exact h.quiet (quiet_putbq s i m)
  | insq i emp m =>
    rw [Stream.step] at hc
    split_ifs at hc
    cases hc
    exact h.quiet (quiet_insq s i emp m)
  | getq i =>
    obtain ⟨u, hu, heq⟩ := quiet_getq s i
    cases hc
    rw [heq]
    exact (h.quiet hu).drained i
  | rmvq i k =>
    obtain ⟨u, hu, rfl⟩ := quiet_rmvq hc
    exact (h.quiet hu).drained i
  | flushq i flag =>
    cases hc
    rcases flushq_cases s i flag with ⟨-, hq⟩ | ⟨-, hq⟩ | ⟨hf, -⟩
    · exact h.settled hq
    · exact h.quiet hq
    · exact absurd hf (hok i flag rfl)
  | canput i =>
    cases hc
    rcases canput_cases s i with heq | ⟨j, hq⟩
    · rwa [heq]
    · exact h.refused hq
  | queuerun => exact h.quiet (quiet_queuerun hc)

/-- While the debt is recorded, taking messages off pays it as soon as the count is
down to `q_lowat`. -/
theorem Recorded.pays {j : ℕ} (hj : s.back i = some j) (ho : Owed s.log i)
    (hq : Quiet s u) (hlow : ((u.drained i).queue i).count ≤ ((u.drained i).queue i).lowat) :
    ((u.drained i).queue j).qenab ∧ ¬ Owed (u.drained i).log i := by
  have hju : u.back i = some j := (back_congr hq.srvp i).trans hj
  rcases drained_cases u i with hs | ⟨heq, hno⟩
  · exact ⟨hs.enabled j hju, hs.not_owed hju⟩
  · rw [heq] at hlow
    exact absurd hlow (hno ((hq.wantw i).trans (h i j hj ho)))

theorem Recorded.backEnable : BackEnable s := by
  refine ⟨h, fun i j c t hj ho hc ht hlow => ?_⟩
  rcases hc with rfl | ⟨k, rfl⟩ | ⟨flag, rfl⟩
  · obtain ⟨u, hu, heq⟩ := quiet_getq s i
    cases ht
    rw [heq] at hlow ⊢
    exact h.pays hj ho hu hlow
  · obtain ⟨u, hu, rfl⟩ := quiet_rmvq ht
    exact h.pays hj ho hu hlow
  · cases ht
    rcases flushq_cases s i flag with ⟨-, hs⟩ | ⟨hw, -⟩ | ⟨-, -, -, -, hlt⟩
    · exact ⟨hs.enabled j hj, hs.not_owed hj⟩
    · exact absurd (h i j hj ho) (by rw [hw]; simp)
    · exact absurd hlow (UInt16.not_le.mpr hlt)

end

/-- **Back-enabling is never lost** in a history without a flush that forgets: on
every queue a debt is recorded in `QWANTW`, and draining the queue pays it. -/
theorem back_enable_kept {calls : List Call} (hlog : s.log = [])
    (hok : StepsMeet Remembers Stream.step s calls) (h : exec Stream.step s calls = some t) :
    BackEnable t := by
  have h0 : Recorded s := by
    intro i j _ ho
    rw [hlog] at ho
    exact absurd ho id
  exact (exec_invariant (fun _ _ _ hs hc hstep => hs.step hc hstep) h0 hok h).backEnable

/-- Two queues, the first with a service procedure, the second with `q_lowat` 2 and
`q_hiwat` 4. -/
def twoQueues : Stream where
  num := 2
  queue i := ⟨[], 0, 4, 2, i = 0, false, false, false, false, false⟩
  qhead := []
  log := []

/-- A control message of the smallest class. -/
def ctl : Msg := ⟨⟨0o15, 0⟩, []⟩

/-- A writer is refused and the queue then flushed: a run that remembers. -/
theorem back_enable_kept_flushall : ∃ t, exec Stream.step twoQueues
    [.putq 1 ctl, .canput 1, .flushq 1 true] = some t ∧ BackEnable t := by
  have hok : StepsMeet Remembers Stream.step twoQueues
      [.putq 1 ctl, .canput 1, .flushq 1 true] := by
    refine stepsMeet_of_forall fun c hc s i flag heq hf => ?_
    have hall : i = 1 ∧ flag = true := by
      rw [heq] at hc
      simpa using hc
    rw [hall.2, Forgets, keptWeight_true] at hf
    exact UInt16.not_lt_zero hf.2
  exact ⟨_, rfl, back_enable_kept rfl hok rfl⟩

/-- The second queue is full of one control message, a writer is refused, and a
flush of the data messages forgets it. -/
theorem flushq_forgets : ¬ ∀ (s : Stream) (calls : List Call) (t : Stream),
    (∀ i, (s.queue i).lowat < (s.queue i).hiwat) → s.log = [] →
      exec Stream.step s calls = some t → BackEnable t := by
  intro h
  have hmarks : (2 : UInt16) < 4 := by decide
  have hrun := (h twoQueues [.putq 1 ctl, .canput 1, .flushq 1 false] _
    (fun _ => hmarks) rfl rfl).wantw 1 0 rfl (Or.inl rfl)
  exact absurd hrun (by decide)

end Stream

end Io
