import OpusSysV.Lib.Run
import OpusSysV.Io.Stream

/-!
# The count of a queue

`q_count` is a sum of block weights kept in 16 bits, `QFULL` a comparison of that
sum with `q_hiwat` kept in a bit.

* `weight` and `load` are the sums as integers; the loops over the blocks of a
  message add and subtract them modulo `2^16`.
* `Put`, `Take` and `Exact`: what a call does to the messages, the count and `QFULL`
  of a queue, and that the two are exact.
* `count_exact` — they stay exact as long as no message brings the weights on the
  queue to `2^16`; nothing in the code prevents that, `four_blocks_wrap` does it with
  one message of four blocks.
-/

namespace Io

open Lib List Option

/-- The weight of a message as an integer. -/
def weight (m : Msg) : ℕ := ((m.bp :: m.cont).map fun b => (bsize b.dbClass).toNat).sum

/-- The weight of a list of messages as an integer. -/
def load (msgs : List Msg) : ℕ := (msgs.map weight).sum

@[simp] theorem load_nil : load [] = 0 := rfl

@[simp] theorem load_cons (m : Msg) (msgs : List Msg) : load (m :: msgs) = weight m + load msgs := by
  unfold load
  rw [map_cons, sum_cons]

theorem load_perm {ms ms' : List Msg} (h : ms.Perm ms') : load ms = load ms' :=
  (h.map weight).sum_eq

/-! ## The loops over the blocks of a message -/

theorem toNat_foldl_add (bs : List Mblk) (c : UInt16) :
    (bs.foldl (fun c b => c + bsize b.dbClass) c).toNat =
      (c.toNat + (bs.map fun b => (bsize b.dbClass).toNat).sum) % 65536 := by
  induction bs generalizing c with
  | nil =>
    have := c.toNat_lt
    simp only [foldl_nil, map_nil, sum_nil]
    omega
  | cons b bs ih =>
    rw [foldl_cons, ih, map_cons, sum_cons, UInt16.toNat_add]
    omega

theorem toNat_addWeight (c : UInt16) (m : Msg) :
    (addWeight c m).toNat = (c.toNat + weight m) % 65536 :=
  toNat_foldl_add _ _

/-- Subtracting what is there gives the difference. -/
theorem toNat_foldl_sub (bs : List Mblk) (c : UInt16)
    (h : (bs.map fun b => (bsize b.dbClass).toNat).sum ≤ c.toNat) :
    (bs.foldl (fun c b => c - bsize b.dbClass) c).toNat =
      c.toNat - (bs.map fun b => (bsize b.dbClass).toNat).sum := by
  induction bs generalizing c with
  | nil => rfl
  | cons b bs ih =>
    rw [map_cons, sum_cons] at h ⊢
    have hb : (c - bsize b.dbClass).toNat = c.toNat - (bsize b.dbClass).toNat :=
      UInt16.toNat_sub_of_le _ _ (UInt16.le_iff_toNat_le.mpr (by omega))
    rw [foldl_cons, ih _ (by omega), hb]
    omega

theorem toNat_subWeight (c : UInt16) (m : Msg) (h : weight m ≤ c.toNat) :
    (subWeight c m).toNat = c.toNat - weight m :=
  toNat_foldl_sub _ _ h

/-! ## Where the messages go -/

theorem putqWalk_perm (m : Msg) (msgs : List Msg) : (putqWalk m msgs).Perm (m :: msgs) := by
  induction msgs with
  | nil => exact List.Perm.refl _
  | cons nbp rest ih =>
    unfold putqWalk
    split_ifs
    · exact (ih.cons nbp).trans (List.Perm.swap m nbp rest)
    · exact List.Perm.refl _

theorem putqPlace_perm (m : Msg) (msgs : List Msg) : (putqPlace m msgs).Perm (m :: msgs) := by
  unfold putqPlace
  split
  · rename_i h
    rw [List.getLast?_eq_none_iff.mp h]
  · split_ifs
    · exact perm_append_singleton m msgs
    · exact putqWalk_perm m msgs

theorem putbqWalk_perm (m : Msg) (msgs : List Msg) : (putbqWalk m msgs).Perm (m :: msgs) := by
  induction msgs using putbqWalk.induct m with
  | case1 => exact List.Perm.refl _
  | case2 nbp => exact List.Perm.swap m nbp []
  | case3 nbp e rest h ih =>
    rw [putbqWalk, if_pos h]
    exact (ih.cons nbp).trans (List.Perm.swap m nbp _)
  | case4 nbp e rest h =>
    rw [putbqWalk, if_neg h]
    exact List.Perm.swap m nbp _

theorem putbqPlace_perm (m : Msg) (msgs : List Msg) : (putbqPlace m msgs).Perm (m :: msgs) := by
  unfold putbqPlace
  split
  · exact List.Perm.refl _
  · split_ifs
    · exact List.Perm.refl _
    · exact putbqWalk_perm m _

theorem insqPlace_perm (emp : Option ℕ) (m : Msg) (msgs : List Msg)
    (h : ∀ k ∈ emp, k < msgs.length) : (insqPlace emp m msgs).Perm (m :: msgs) := by
  cases emp with
  | none => exact perm_append_singleton m msgs
  | some k => exact perm_insertIdx m msgs (h k rfl).le

/-! ## One queue -/

namespace Queue

variable {q q' : Queue} {m : Msg}

/-- `q_count` is the sum of the weights on the queue and `QFULL` says whether it has
reached `q_hiwat`. -/
structure Exact (q : Queue) : Prop where
  count : q.count.toNat = load q.msgs
  qfull : q.qfull = decide (q.hiwat.toNat ≤ load q.msgs)

/-- The fields that `Exact` is about are the same. -/
structure Same (q q' : Queue) : Prop where
  msgs : q'.msgs = q.msgs
  count : q'.count = q.count
  hiwat : q'.hiwat = q.hiwat
  qfull : q'.qfull = q.qfull

/-- A message is put on the queue, somewhere. -/
structure Put (m : Msg) (q q' : Queue) : Prop where
  msgs : q'.msgs.Perm (m :: q.msgs)
  count : q'.count = addWeight q.count m
  hiwat : q'.hiwat = q.hiwat
  qfull : q'.qfull = (q.qfull || decide (q'.hiwat ≤ q'.count))

/-- A message is taken off the queue, from anywhere. -/
structure Take (m : Msg) (q q' : Queue) : Prop where
  msgs : q.msgs.Perm (m :: q'.msgs)
  count : q'.count = subWeight q.count m
  hiwat : q'.hiwat = q.hiwat
  qfull : q'.qfull = (q.qfull && !decide (q'.count < q'.hiwat))

theorem Same.refl (q : Queue) : Same q q := ⟨rfl, rfl, rfl, rfl⟩

theorem Same.trans {q'' : Queue} (h : Same q q') (h' : Same q' q'') : Same q q'' :=
  ⟨h'.msgs.trans h.msgs, h'.count.trans h.count, h'.hiwat.trans h.hiwat, h'.qfull.trans h.qfull⟩

theorem Put.same {q'' : Queue} (h : Put m q q') (h' : Same q' q'') : Put m q q'' :=
  ⟨h'.msgs ▸ h.msgs, h'.count.trans h.count, h'.hiwat.trans h.hiwat, by
    rw [h'.qfull, h'.hiwat, h'.count, h.qfull]⟩

theorem Take.same {q'' : Queue} (h : Take m q q') (h' : Same q' q'') : Take m q q'' :=
  ⟨h'.msgs ▸ h.msgs, h'.count.trans h.count, h'.hiwat.trans h.hiwat, by
    rw [h'.qfull, h'.hiwat, h'.count, h.qfull]⟩

theorem Exact.same (h : q.Exact) (hs : Same q q') : q'.Exact := by
  constructor
  · rw [hs.count, hs.msgs]
    exact h.count
  · rw [hs.qfull, hs.hiwat, hs.msgs]
    exact h.qfull

/-- Putting a message keeps the count exact if the sum stays below `2^16`. -/
theorem Exact.put (h : q.Exact) (hp : Put m q q') (hfit : load q.msgs + weight m < 65536) :
    q'.Exact := by
  have hload : load q'.msgs = load q.msgs + weight m := by
    rw [load_perm hp.msgs, load_cons, Nat.add_comm]
  have hcount : q'.count.toNat = load q'.msgs := by
    rw [hp.count, toNat_addWeight, h.count, hload]
    exact Nat.mod_eq_of_lt hfit
  refine ⟨hcount, ?_⟩
  rw [hp.qfull, h.qfull, ← hcount, hp.hiwat, Bool.eq_iff_iff]
  simp only [Bool.or_eq_true, decide_eq_true_eq, UInt16.le_iff_toNat_le]
  omega

/-- Taking a message off keeps the count exact. -/
theorem Exact.take (h : q.Exact) (ht : Take m q q') : q'.Exact := by
  have hload : load q.msgs = weight m + load q'.msgs := by
    rw [load_perm ht.msgs, load_cons]
  have hcount : q'.count.toNat = load q'.msgs := by
    rw [ht.count, toNat_subWeight _ _ (by rw [h.count]; omega), h.count]
    omega
  refine ⟨hcount, ?_⟩
  rw [ht.qfull, h.qfull, ← hcount, ht.hiwat, Bool.eq_iff_iff]
  simp only [Bool.and_eq_true, Bool.not_eq_true', decide_eq_true_eq, decide_eq_false_iff_not,
    UInt16.lt_iff_toNat_lt]
  omega

end Queue

/-! ## The calls -/

namespace Stream

open Queue

variable {s t : Stream} {i : ℕ}

theorem queue_onQueue (s : Stream) (i j : ℕ) (f : Queue → Queue) :
    (s.onQueue j f).queue i = if i = j then f (s.queue j) else s.queue i :=
  Function.update_apply _ _ _ _

/-- A change that leaves the messages, the count and `QFULL` alone. -/
theorem same_onQueue {f : Queue → Queue} (h : ∀ q, Same q (f q)) (s : Stream) (i j : ℕ) :
    Same (s.queue i) ((s.onQueue j f).queue i) := by
  rw [queue_onQueue]
  split_ifs with hij
  · rw [hij]
    apply h
  · exact Same.refl _

theorem same_qenable (s : Stream) (i j : ℕ) : Same (s.queue i) ((s.qenable j).queue i) := by
  unfold qenable
  split_ifs
  · exact same_onQueue (f := fun q => { q with qenab := true }) (fun _ => ⟨rfl, rfl, rfl, rfl⟩) s i j
  · exact Same.refl _

theorem same_enableBack (s : Stream) (i j : ℕ) : Same (s.queue i) ((s.enableBack j).queue i) := by
  unfold enableBack
  split
  · exact Same.refl _
  · apply same_qenable

theorem same_drained (s : Stream) (i j : ℕ) : Same (s.queue i) ((s.drained j).queue i) := by
  unfold drained
  split_ifs
  · refine Same.trans ?_ (same_enableBack _ i j)
    apply same_onQueue
    intro q
    exact ⟨rfl, rfl, rfl, rfl⟩
  · exact Same.refl _

theorem put_putq (s : Stream) (i : ℕ) (m : Msg) : Put m (s.queue i) ((s.putq i m).queue i) := by
  have h : Put m (s.queue i)
      ((s.onQueue i fun q => { q.weighIn m with msgs := putqPlace m q.msgs }).queue i) := by
    rw [queue_onQueue, if_pos rfl]
    exact ⟨putqPlace_perm m _, rfl, rfl, rfl⟩
  simp only [putq]
  split_ifs
  · exact h.same (same_qenable _ _ _)
  · exact h

theorem put_putbq (s : Stream) (i : ℕ) (m : Msg) : Put m (s.queue i) ((s.putbq i m).queue i) := by
  have h : Put m (s.queue i)
      ((s.onQueue i fun q => { q.weighIn m with msgs := putbqPlace m q.msgs }).queue i) := by
    rw [queue_onQueue, if_pos rfl]
    exact ⟨putbqPlace_perm m _, rfl, rfl, rfl⟩
  simp only [putbq]
  split_ifs
  · exact h.same (same_qenable _ _ _)
  · exact h

theorem put_insq (s : Stream) (i : ℕ) (emp : Option ℕ) (m : Msg)
    (hemp : ∀ k ∈ emp, k < (s.queue i).msgs.length) :
    Put m (s.queue i) ((s.insq i emp m).queue i) := by
  have h : Put m (s.queue i)
      ((s.onQueue i fun q => { q.weighIn m with msgs := insqPlace emp m q.msgs }).queue i) := by
    rw [queue_onQueue, if_pos rfl]
    exact ⟨insqPlace_perm emp m _ hemp, rfl, rfl, rfl⟩
  simp only [insq]
  split_ifs
  · exact h.same (same_qenable _ _ _)
  · exact h

/-- `getq` takes the first message off, if there is one. -/
theorem take_getq (s : Stream) (i : ℕ) :
    Same (s.queue i) ((s.getq i).2.queue i) ∨
      ∃ m, Take m (s.queue i) ((s.getq i).2.queue i) := by
  unfold getq
  split
  · left
    refine Same.trans ?_ (same_drained _ i i)
    apply same_onQueue
    intro q
    exact ⟨rfl, rfl, rfl, rfl⟩
  · rename_i m rest hmsgs
    right
    refine ⟨m, Take.same ?_ (same_drained _ i i)⟩
    rw [queue_onQueue, if_pos rfl]
    exact ⟨by rw [hmsgs], rfl, rfl, rfl⟩

theorem take_rmvq {k : ℕ} (h : s.rmvq i k = some t) :
    ∃ m, Take m (s.queue i) (t.queue i) := by
  obtain ⟨m, hm, rfl⟩ := map_eq_some_iff.mp h
  obtain ⟨hk, rfl⟩ := List.getElem?_eq_some_iff.mp hm
  refine ⟨(s.queue i).msgs[k], Take.same ?_ (same_drained _ i i)⟩
  rw [queue_onQueue, if_pos rfl]
  exact ⟨(getElem_cons_eraseIdx_perm hk).symm, rfl, rfl, rfl⟩

/-- The loop of `flushq` puts back a part of what was on the queue. -/
theorem exact_flushLoop (flag : Bool) (msgs : List Msg) (s : Stream) (h : (s.queue i).Exact)
    (hfit : load (s.queue i).msgs + load msgs < 65536) :
    ((flushLoop i flag msgs s).queue i).Exact := by
  induction msgs generalizing s with
  | nil => exact h
  | cons m msgs ih =>
    rw [load_cons] at hfit
    unfold flushLoop
    split_ifs
    · have hput := put_putq s i m
      apply ih
      · exact h.put hput (by omega)
      · rw [load_perm hput.msgs, load_cons]
        omega
    · apply ih s h
      omega

theorem exact_flushq (flag : Bool) (hhi : 0 < (s.queue i).hiwat) (h : (s.queue i).Exact) :
    ((s.flushq i flag).queue i).Exact := by
  have hclear : ((s.onQueue i fun q =>
      { q with msgs := [], count := 0, qfull := false, qwantw := false }).queue i).Exact := by
    rw [queue_onQueue, if_pos rfl]
    refine ⟨rfl, ?_⟩
    have := UInt16.lt_iff_toNat_lt.mp hhi
    exact (decide_eq_false (by simpa using Nat.not_le.mpr this)).symm
  have hloop := exact_flushLoop flag (s.queue i).msgs _ hclear (by
    rw [queue_onQueue, if_pos rfl]
    show load [] + load (s.queue i).msgs < 65536
    rw [load_nil, ← h.count, Nat.zero_add]
    exact UInt16.toNat_lt _)
  simp only [flushq]
  split_ifs
  · exact hloop.same (same_enableBack _ i i)
  · exact hloop

/-! ## Calls on another queue -/

theorem same_onQueue_ne {j : ℕ} (h : i ≠ j) (s : Stream) (f : Queue → Queue) :
    Same (s.queue i) ((s.onQueue j f).queue i) := by
  rw [queue_onQueue, if_neg h]
  exact Same.refl _

theorem same_putq_ne {j : ℕ} (h : i ≠ j) (s : Stream) (m : Msg) :
    Same (s.queue i) ((s.putq j m).queue i) := by
  simp only [putq]
  split_ifs
  · exact (same_onQueue_ne h s _).trans (same_qenable _ i j)
  · exact same_onQueue_ne h s _

theorem same_putbq_ne {j : ℕ} (h : i ≠ j) (s : Stream) (m : Msg) :
    Same (s.queue i) ((s.putbq j m).queue i) := by
  simp only [putbq]
  split_ifs
  · exact (same_onQueue_ne h s _).trans (same_qenable _ i j)
  · exact same_onQueue_ne h s _

theorem same_insq_ne {j : ℕ} (h : i ≠ j) (s : Stream) (emp : Option ℕ) (m : Msg) :
    Same (s.queue i) ((s.insq j emp m).queue i) := by
  simp only [insq]
  split_ifs
  · exact (same_onQueue_ne h s _).trans (same_qenable _ i j)
  · exact same_onQueue_ne h s _

theorem same_getq_ne {j : ℕ} (h : i ≠ j) (s : Stream) :
    Same (s.queue i) ((s.getq j).2.queue i) := by
  unfold getq
  split
  · exact (same_onQueue_ne h s _).trans (same_drained _ i j)
  · exact (same_onQueue_ne h s _).trans (same_drained _ i j)

theorem same_flushLoop_ne {j : ℕ} (h : i ≠ j) (flag : Bool) (msgs : List Msg) (s : Stream) :
    Same (s.queue i) ((flushLoop j flag msgs s).queue i) := by
  induction msgs generalizing s with
  | nil => exact Same.refl _
  | cons m msgs ih =>
    unfold flushLoop
    split_ifs
    · exact (same_putq_ne h s m).trans (ih _)
    · exact ih s

theorem same_flushq_ne {j : ℕ} (h : i ≠ j) (s : Stream) (flag : Bool) :
    Same (s.queue i) ((s.flushq j flag).queue i) := by
  have hloop := (same_onQueue_ne h s _).trans
    (same_flushLoop_ne h flag (s.queue j).msgs (s.onQueue j fun q =>
      { q with msgs := [], count := 0, qfull := false, qwantw := false }))
  simp only [flushq]
  split_ifs
  · exact hloop.trans (same_enableBack _ i j)
  · exact hloop

theorem same_canput (s : Stream) (j : ℕ) : Same (s.queue i) ((s.canput j).2.queue i) := by
  simp only [canput]
  split_ifs
  · exact same_onQueue (f := fun q => { q with qwantw := true }) (fun _ => ⟨rfl, rfl, rfl, rfl⟩) s i _
  · exact Same.refl _

theorem same_queuerun (h : s.queuerun = some t) : Same (s.queue i) (t.queue i) := by
  unfold queuerun at h
  split at h
  · cases h
  · cases h
    exact same_onQueue (f := fun q => { q with qenab := false }) (fun _ => ⟨rfl, rfl, rfl, rfl⟩) s i _

/-! ## Runs -/

/-- A call that puts a message on queue `i` finds room for its weight below `2^16`. -/
def Fits (i : ℕ) (s : Stream) (c : Call) : Prop :=
  ∀ m, (c = .putq i m ∨ c = .putbq i m ∨ ∃ emp, c = .insq i emp m) →
    load (s.queue i).msgs + weight m < 65536

/-- What is said of the queue: exact, with the high water mark it started with. -/
def Kept (i : ℕ) (hiwat : UInt16) (s : Stream) : Prop :=
  (s.queue i).Exact ∧ (s.queue i).hiwat = hiwat

theorem Kept.same {hi : UInt16} (h : Kept i hi s) (hs : Same (s.queue i) (t.queue i)) :
    Kept i hi t :=
  ⟨h.1.same hs, hs.hiwat.trans h.2⟩

theorem Kept.put {hi : UInt16} {m : Msg} (h : Kept i hi s) (hp : Put m (s.queue i) (t.queue i))
    (hfit : load (s.queue i).msgs + weight m < 65536) : Kept i hi t :=
  ⟨h.1.put hp hfit, hp.hiwat.trans h.2⟩

theorem Kept.take {hi : UInt16} {m : Msg} (h : Kept i hi s) (ht : Take m (s.queue i) (t.queue i)) :
    Kept i hi t :=
  ⟨h.1.take ht, ht.hiwat.trans h.2⟩

theorem hiwat_flushLoop (flag : Bool) (msgs : List Msg) (s : Stream) :
    ((flushLoop i flag msgs s).queue i).hiwat = (s.queue i).hiwat := by
  induction msgs generalizing s with
  | nil => rfl
  | cons m msgs ih =>
    unfold flushLoop
    split_ifs
    · exact (ih _).trans (put_putq s i m).hiwat
    · exact ih s

theorem hiwat_flushq (s : Stream) (flag : Bool) :
    ((s.flushq i flag).queue i).hiwat = (s.queue i).hiwat := by
  have hloop : ((flushLoop i flag (s.queue i).msgs (s.onQueue i fun q =>
      { q with msgs := [], count := 0, qfull := false, qwantw := false })).queue i).hiwat =
      (s.queue i).hiwat := by
    rw [hiwat_flushLoop, queue_onQueue, if_pos rfl]
  simp only [flushq]
  split_ifs
  · exact (same_enableBack _ i i).hiwat.trans hloop
  · exact hloop

/-- **One call keeps the queue exact** if the message it puts there fits. -/
theorem Kept.step {hi : UInt16} {c : Call} (hhi : 0 < hi) (h : Kept i hi s) (hfit : Fits i s c)
    (hc : s.step c = some t) : Kept i hi t := by
  cases c with
  | putq j m =>
    cases hc
    by_cases hij : i = j
    · subst hij
      exact h.put (put_putq s i m) (hfit m (Or.inl rfl))
    · exact h.same (same_putq_ne hij s m)
  | putbq j m =>
    cases hc
    by_cases hij : i = j
    · subst hij
      exact h.put (put_putbq s i m) (hfit m (Or.inr (Or.inl rfl)))
    · exact h.same (same_putbq_ne hij s m)
  | insq j emp m =>
    rw [Stream.step] at hc
    split_ifs at hc with hemp
    cases hc
    by_cases hij : i = j
    · subst hij
      exact h.put (put_insq s i emp m hemp) (hfit m (Or.inr (Or.inr ⟨emp, rfl⟩)))
    · exact h.same (same_insq_ne hij s emp m)
  | getq j =>
    cases hc
    by_cases hij : i = j
    · subst hij
      rcases take_getq s i with hs | ⟨m, ht⟩
      · exact h.same hs
      · exact h.take ht
    · exact h.same (same_getq_ne hij s)
  | rmvq j k =>
    by_cases hij : i = j
    · subst hij
      obtain ⟨m, ht⟩ := take_rmvq hc
      exact h.take ht
    · obtain ⟨m, -, rfl⟩ := map_eq_some_iff.mp hc
      exact h.same ((same_onQueue_ne hij s _).trans (same_drained _ i j))
  | flushq j flag =>
    cases hc
    by_cases hij : i = j
    · subst hij
      exact ⟨exact_flushq flag (h.2 ▸ hhi) h.1, (hiwat_flushq s flag).trans h.2⟩
    · exact h.same (same_flushq_ne hij s flag)
  | canput j =>
    cases hc
    exact h.same (same_canput s j)
  | queuerun => exact h.same (same_queuerun hc)

/-- **The count of a queue is exact**, and so is `QFULL`, in every state of a history in
which no message put on the queue brings the weights there to `2^16`. -/
theorem count_exact {calls : List Call} (hhi : 0 < (s.queue i).hiwat) (hs : (s.queue i).Exact)
    (hok : StepsMeet (Fits i) Stream.step s calls) (h : exec Stream.step s calls = some t) :
    (t.queue i).Exact :=
  (exec_invariant (P := Kept i (s.queue i).hiwat) (fun _ _ _ hk hc hstep => hk.step hhi hc hstep)
    ⟨hs, rfl⟩ hok h).1

/-- One queue, empty, with `q_hiwat` 20000. -/
def oneQueue : Stream where
  num := 1
  queue _ := ⟨[], 0, 20000, 2, true, false, false, false, false, false⟩
  qhead := []
  log := []

theorem oneQueue_exact : (oneQueue.queue 0).Exact := ⟨rfl, rfl⟩

/-- A block of the largest class. -/
def largest : Mblk := ⟨M_DATA, 11⟩

/-- A message of two blocks of the largest class fits. -/
theorem count_exact_two_blocks : ∃ t,
    exec Stream.step oneQueue [.putq 0 ⟨largest, [largest]⟩] = some t ∧
      (t.queue 0).Exact := by
  obtain ⟨t, ht⟩ : ∃ t, exec Stream.step oneQueue [.putq 0 ⟨largest, [largest]⟩] = some t := ⟨_, rfl⟩
  have hhi : 0 < (oneQueue.queue 0).hiwat := by decide
  have hw : weight ⟨largest, [largest]⟩ = 38400 := rfl
  have hfit : StepsMeet (Fits 0) Stream.step oneQueue [.putq 0 ⟨largest, [largest]⟩] := by
    refine ⟨fun m hm => ?_, fun _ _ => trivial⟩
    rcases hm with h | h | ⟨_, h⟩
    · cases h
      show 0 + weight ⟨largest, [largest]⟩ < 65536
      omega
    · cases h
    · cases h
  exact ⟨t, ht, count_exact hhi oneQueue_exact hfit ht⟩

/-- One message of four blocks of the largest class weighs 76800, counted as 11264: the
queue is far above `q_hiwat` and not `QFULL`. -/
theorem four_blocks_wrap : ¬ ∀ (s : Stream) (i : ℕ) (calls : List Call) (t : Stream),
    0 < (s.queue i).hiwat → (s.queue i).Exact → exec Stream.step s calls = some t →
      (t.queue i).Exact := by
  intro h
  have hhi : 0 < (oneQueue.queue 0).hiwat := by decide
  have hexact := h oneQueue 0 [.putq 0 ⟨largest, [largest, largest, largest]⟩] _ hhi
    oneQueue_exact rfl
  exact absurd hexact.count (by decide)

end Stream
end Io
