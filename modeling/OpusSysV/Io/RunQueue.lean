import OpusSysV.Lib.Linked
import OpusSysV.Lib.Run
import Mathlib.Data.List.Perm.Subperm

/-!
# The run list: `qenable`, `queuerun` and `qdetach`

Queues with work for their service procedure wait on a list from `qhead` to `qtail`.  The queues
are numbered as in the array `queue`: an even number is a read queue, the next one its write queue.

* `RunQueue` — the list and the flags of the queues.
* `qenable`, `runNext`, `allocq`, `qdetach` — the routines; each of them, and each round of the loop
  of `queuerun`, runs at `splstr`.
* `RunQueue.step` — any order of calls, by any service, open and close procedures and interrupts.
* `Exact` — the list has the enabled queues, each once.
* `run_list` — it stays so as long as `qdetach` never finds the two queues of a pair one behind the
  other.

`pending` is not in the source: the queues that were enabled and whose service procedure has not
been called since.
-/

namespace Io

open Lib Function List Option

/-- `WR(q)` of a read queue. -/
def WR (qp : ℕ) : ℕ := qp + 1

/-- The queues and the run list; `nqueue` is `v.v_nqueue`. -/
structure RunQueue where
  nqueue : ℕ
  qhead : Option ℕ
  qtail : Option ℕ
  qrunflag : Bool
  q_link : ℕ → Option ℕ
  qenab : ℕ → Bool
  quse : ℕ → Bool
  qi_srvp : ℕ → Bool
  pending : List ℕ

namespace RunQueue

/-- `qenable(q)`; `qtail` is null only when `qhead` is. -/
def qenable (s : RunQueue) (q : ℕ) : RunQueue :=
  if s.qi_srvp q = false then s
  else if s.qenab q then s
  else
    let link := match s.qhead, s.qtail with
      | some _, some z => update s.q_link z (some q)
      | _, _ => s.q_link
    { s with
      qenab := update s.qenab q true
      qhead := s.qhead.or (some q)
      q_link := update link q none
      qtail := some q
      qrunflag := true
      pending := s.pending ++ [q] }

/-- One round of the loop of `queuerun`, before the service procedure is called. -/
def runNext (s : RunQueue) : Option RunQueue :=
  s.qhead.map fun q =>
    { s with
      qhead := s.q_link q
      qtail := if s.q_link q = none then none else s.qtail
      qenab := update s.qenab q false
      pending := if s.qi_srvp q then s.pending.erase q else s.pending }

/-- `allocq()`: the first pair that is not in use. -/
def allocq (s : RunQueue) : Option ℕ :=
  ((List.range ((s.nqueue + 1) / 2)).map (2 * ·)).find? fun qp => !s.quse qp

/-- `qattach` up to the call of the open procedure; `rsrvp` and `wsrvp` say whether the module has
service procedures. -/
def qattach (s : RunQueue) (rsrvp wsrvp : Bool) : RunQueue :=
  match s.allocq with
  | none => s
  | some rq =>
    { s with
      quse := update (update s.quse rq true) (WR rq) true
      qenab := update (update s.qenab rq false) (WR rq) false
      q_link := update (update s.q_link rq none) (WR rq) none
      qi_srvp := update (update s.qi_srvp rq rsrvp) (WR rq) wsrvp }

/-- `q` is the read queue `qp` or its write queue. -/
def InPair (qp q : ℕ) : Prop := q = qp ∨ q = WR qp

instance (qp q : ℕ) : Decidable (InPair qp q) := inferInstanceAs (Decidable (_ ∨ _))

/-- The body of the loop of `qdetach`, for a queue of the pair. -/
def unlink (s : RunQueue) (prev : Option ℕ) (q : ℕ) : RunQueue :=
  { s with
    q_link := match prev with
      | some p => update s.q_link p (s.q_link q)
      | none => s.q_link
    qhead := if prev = none then s.q_link q else s.qhead
    qtail := if s.qtail = some q then prev else s.qtail }

/-- The loop of `qdetach` that takes the queues of the pair off the list. -/
def unlinkLoop (qp : ℕ) : ℕ → Option ℕ → Option ℕ → RunQueue → RunQueue
  | 0, _, _, s => s
  | _, none, _, s => s
  | n + 1, some q, prev, s =>
    let s := if InPair qp q then s.unlink prev q else s
    unlinkLoop qp n (s.q_link q) (some q) s

/-- `freeq(q)`. -/
def freeq (s : RunQueue) (qp : ℕ) : RunQueue :=
  { s with
    quse := update (update s.quse qp false) (WR qp) false
    qenab := update (update s.qenab qp false) (WR qp) false
    pending := s.pending.filter fun q => q ≠ qp ∧ q ≠ WR qp }

/-- `qdetach(qp, clmode, flag)` after the close procedure; `back` are the queues that the calls of
`flushq` enable. -/
def qdetach (s : RunQueue) (qp : ℕ) (clmode : Bool) (back : List ℕ) : RunQueue :=
  let s := if clmode then
      let s := if s.qenab qp ∨ s.qenab (WR qp) then unlinkLoop qp (s.nqueue + 1) s.qhead none s else s
      back.foldl qenable s
    else s
  s.freeq qp

end RunQueue

/-- The calls. -/
inductive RunCall
  | qenable (q : ℕ)
  | runNext
  | queuerunRet
  | qattach (rsrvp wsrvp : Bool)
  | qdetach (qp : ℕ) (clmode : Bool) (back : List ℕ)
  deriving DecidableEq

/-- One call.  Queues that are enabled are in use, and so is the pair that is detached; `queuerun`
returns when it finds the list empty. -/
def RunQueue.step (s : RunQueue) : RunCall → Option RunQueue
  | .qenable q => if s.quse q then some (s.qenable q) else none
  | .runNext => s.runNext
  | .queuerunRet => if s.qhead = none then some { s with qrunflag := false } else none
  | .qattach rsrvp wsrvp => some (s.qattach rsrvp wsrvp)
  | .qdetach qp clmode back =>
    if qp % 2 = 0 ∧ s.quse qp ∧ ∀ q ∈ back, s.quse q ∧ s.qi_srvp q then
      some (s.qdetach qp clmode back)
    else none

/-! ## The list is exact -/

namespace RunQueue

variable {s t : RunQueue} {l rest : List ℕ} {q qp n : ℕ} {es : List RunCall}

/-- The list from `qhead` to `qtail` is `l`; these are the queues that are enabled, whose service
procedures are still to be called, and they are queues in use. -/
structure Exact (s : RunQueue) (l : List ℕ) : Prop where
  linked : Linked s.q_link s.qhead l
  tail : s.qtail = l.getLast?
  nodup : l.Nodup
  mem : ∀ q, q ∈ l ↔ s.qenab q = true
  pending : s.pending = l
  srvp : ∀ q ∈ l, s.qi_srvp q = true
  quse : ∀ q ∈ l, s.quse q = true
  pair : ∀ q, q % 2 = 0 → s.quse (WR q) = s.quse q
  bound : ∀ q, s.quse q = true → q ≤ s.nqueue

theorem Exact.qhead_eq (h : s.Exact l) : s.qhead = l.head? := h.linked.head?

theorem exact_qenable (h : s.Exact l) (hq : s.quse q = true) :
    (s.qenable q).Exact (if s.qi_srvp q = true ∧ s.qenab q = false then l ++ [q] else l) := by
  unfold qenable
  by_cases hsrv : s.qi_srvp q = false
  · rw [if_pos hsrv, if_neg (by rw [hsrv]; exact fun h => Bool.false_ne_true h.1)]
    exact h
  rw [if_neg hsrv]
  by_cases hen : s.qenab q = true
  · rw [if_pos hen, if_neg (by rw [hen]; exact fun h => (nomatch h.2))]
    exact h
  rw [if_neg hen, if_pos ⟨by simpa using hsrv, by simpa using hen⟩]
  have hql : q ∉ l := fun hmem => hen ((h.mem q).mp hmem)
  have hmem : ∀ x, x ∈ l ++ [q] ↔ update s.qenab q true x = true := by
    intro x
    rw [mem_append, mem_singleton]
    rw [update_apply]
    split_ifs with hx
    · rw [hx]
      exact iff_of_true (Or.inr rfl) rfl
    · rw [h.mem x]
      exact or_iff_left hx
  have hall : ∀ {P : ℕ → Prop}, (∀ x ∈ l, P x) → P q → ∀ x ∈ l ++ [q], P x := fun hl hp =>
    forall_mem_append.mpr ⟨hl, forall_mem_singleton.mpr hp⟩
  refine ⟨?_, ?_, ?_, hmem, ?_, hall h.srvp (by simpa using hsrv), hall h.quse hq, h.pair, h.bound⟩
  · dsimp only
    rw [h.qhead_eq, h.tail]
    rcases eq_nil_or_concat l with rfl | ⟨m, z, rfl⟩
    · exact ⟨rfl, update_self ..⟩
    · -- the last queue is made to name the new one
      rw [concat_eq_append] at *
      have hlast : (m ++ [z]).getLast? = some z := List.getLast?_concat
      obtain ⟨a, ha⟩ : ∃ a, (m ++ [z]).head? = some a := by
        cases m with
        | nil => exact ⟨z, rfl⟩
        | cons a m => exact ⟨a, rfl⟩
      rw [hlast, ha, append_assoc]
      have hqhead : (some a).or (some q) = s.qhead := (h.qhead_eq.trans ha).symm
      rw [hqhead]
      have hzq : z ≠ q := fun hz => hql (hz ▸ mem_append_right m mem_cons_self)
      have hnd := h.nodup
      rw [nodup_append] at hnd
      refine h.linked.snoc (fun b hb => ?_) ?_ (update_self ..)
      · have hbq : b ≠ q := fun hbq => hql (hbq ▸ mem_append_left _ hb)
        rw [update_of_ne hbq]
        exact update_of_ne (hnd.2.2 b hb z mem_cons_self) ..
      · rw [update_of_ne hzq]
        exact update_self ..
  · exact List.getLast?_concat.symm
  · exact nodup_append.mpr ⟨h.nodup, nodup_singleton q, fun a ha b hb hab =>
      hql (mem_singleton.mp hb ▸ hab ▸ ha)⟩
  · rw [h.pending]

theorem exact_runNext (h : s.Exact l) (hrun : s.runNext = some t) :
    ∃ q l', l = q :: l' ∧ t.Exact l' := by
  unfold runNext at hrun
  rw [h.qhead_eq] at hrun
  cases l with
  | nil => cases hrun
  | cons q l' =>
    cases hrun
    refine ⟨q, l', rfl, ?_⟩
    obtain ⟨-, hlink⟩ := h.linked
    obtain ⟨hql, hnd⟩ := nodup_cons.mp h.nodup
    refine ⟨hlink, ?_, hnd, fun x => ?_, ?_, fun x hx => h.srvp x (mem_cons_of_mem q hx),
      fun x hx => h.quse x (mem_cons_of_mem q hx), h.pair, h.bound⟩
    · dsimp only
      rw [hlink.head?, h.tail]
      cases l' with
      | nil => rfl
      | cons a l' => exact List.getLast?_cons_cons
    · dsimp only
      by_cases hx : x = q
      · rw [hx, update_self]
        exact iff_of_false hql Bool.false_ne_true
      · rw [update_of_ne hx, ← h.mem x, mem_cons]
        exact (or_iff_right hx).symm
    · dsimp only
      rw [h.srvp q mem_cons_self, if_pos rfl, h.pending, erase_cons_head]

/-! ### `qdetach` -/

/-- `t` is `s` but for the links of the run list. -/
structure SameQueues (s t : RunQueue) : Prop where
  qenab : t.qenab = s.qenab
  quse : t.quse = s.quse
  qi_srvp : t.qi_srvp = s.qi_srvp
  nqueue : t.nqueue = s.nqueue
  pending : t.pending = s.pending

theorem SameQueues.trans {u : RunQueue} (h : s.SameQueues t) (h' : t.SameQueues u) :
    s.SameQueues u :=
  ⟨h'.qenab.trans h.qenab, h'.quse.trans h.quse, h'.qi_srvp.trans h.qi_srvp,
    h'.nqueue.trans h.nqueue, h'.pending.trans h.pending⟩

/-- **The loop of `qdetach`** takes the queues of the pair off the list, if they are not one behind
the other: what is before the queue it looks at is done. -/
theorem unlinkLoop_spec (pre : List ℕ) (prev : Option ℕ)
    (hlink : Linked s.q_link s.qhead (pre ++ rest))
    (htail : s.qtail = (pre ++ rest).getLast?) (hnd : (pre ++ rest).Nodup)
    (hn : rest.length ≤ n)
    (hprev : prev = pre.getLast? ∨ ∀ q ∈ rest.head?, ¬ InPair qp q)
    (hadj : rest.IsChain fun a b => ¬ (InPair qp a ∧ InPair qp b)) :
    let t := unlinkLoop qp n rest.head? prev s
    Linked t.q_link t.qhead (pre ++ rest.filter fun q => ¬ InPair qp q) ∧
      t.qtail = (pre ++ rest.filter fun q => ¬ InPair qp q).getLast? ∧ s.SameQueues t := by
  induction rest generalizing s pre prev n with
  | nil =>
    have : unlinkLoop qp n (none : Option ℕ) prev s = s := by cases n <;> rfl
    rw [List.head?_nil, this]
    exact ⟨hlink, htail, rfl, rfl, rfl, rfl, rfl⟩
  | cons q rest ih =>
    obtain ⟨n, rfl⟩ : ∃ m, n = m + 1 := ⟨n - 1, by
      rw [length_cons] at hn
      omega⟩
    have hn' : rest.length ≤ n := Nat.le_of_succ_le_succ hn
    have hnext : s.q_link q = rest.head? := hlink.next_eq
    rw [List.head?_cons]
    unfold unlinkLoop
    dsimp only
    by_cases hq : InPair qp q
    · -- the queue before, if there is one, was kept
      have hprev : prev = pre.getLast? := hprev.resolve_right fun h => h q rfl hq
      rw [if_pos hq, filter_cons_of_neg (by simpa using hq)]
      obtain ⟨u, hu⟩ : ∃ u, u = s.unlink prev q := ⟨_, rfl⟩
      rw [← hu]
      unfold unlink at hu
      have hsame : s.SameQueues u := by
        rw [hu]
        exact ⟨rfl, rfl, rfl, rfl, rfl⟩
      have hqpre : ∀ p ∈ pre, p ≠ q := fun p hp =>
        (nodup_append.mp hnd).2.2 p hp q mem_cons_self
      have hulink : ∀ b, pre.getLast? ≠ some b → u.q_link b = s.q_link b := by
        intro b hb
        rw [hu, hprev]
        dsimp only
        cases hlast : pre.getLast? with
        | none => rfl
        | some p => exact update_of_ne (fun hbp => hb (by rw [hlast, hbp])) ..
      have huz : ∀ z, pre.getLast? = some z → u.q_link z = rest.head? := by
        intro z hz
        rw [hu, hprev, hz, ← hnext]
        exact update_self ..
      have huq : u.q_link q = rest.head? := by
        rw [hulink q fun hlast => hqpre q (mem_of_getLast? hlast) rfl, hnext]
      have hnd' : (pre ++ rest).Nodup := by
        rw [nodup_middle] at hnd
        exact (nodup_cons.mp hnd).2
      have hulinked : Linked u.q_link u.qhead (pre ++ rest) := by
        refine hlink.remove hnd ?_ huz fun b _ hb => hulink b hb
        rw [hu, hprev]
        dsimp only
        cases pre with
        | nil => exact hnext
        | cons p pre =>
          rw [List.getLast?_cons, if_neg (some_ne_none _)]
          exact hlink.1
      have hutail : u.qtail = (pre ++ rest).getLast? := by
        rw [hu, hprev]
        dsimp only
        rw [htail]
        cases rest with
        | nil => rw [List.getLast?_concat, if_pos rfl, append_nil]
        | cons r rest =>
          have hlast : (pre ++ q :: r :: rest).getLast? = (pre ++ r :: rest).getLast? := by
            rw [List.getLast?_append_cons, List.getLast?_append_cons, List.getLast?_cons_cons]
          rw [hlast, if_neg]
          intro heq
          have hmem := mem_of_getLast? heq
          rcases mem_append.mp hmem with h | h
          · exact hqpre q h rfl
          · exact (nodup_cons.mp (nodup_append.mp hnd).2.1).1 h
      have hprev' : (some q = pre.getLast?) ∨ ∀ r ∈ rest.head?, ¬ InPair qp r := by
        refine Or.inr fun r hr hrp => ?_
        cases rest with
        | nil => cases hr
        | cons a rest =>
          cases hr
          exact (isChain_cons_cons.mp hadj).1 ⟨hq, hrp⟩
      rw [huq]
      obtain ⟨h1, h2, h3⟩ := ih pre (some q) hulinked hutail hnd' hn' hprev' hadj.of_cons
      exact ⟨h1, h2, hsame.trans h3⟩
    · rw [if_neg hq, filter_cons_of_pos (by simpa using hq), hnext]
      have hsplit : pre ++ q :: rest = (pre ++ [q]) ++ rest := by
        rw [append_assoc]
        rfl
      rw [hsplit] at hlink htail hnd
      have := ih (pre ++ [q]) (some q) hlink htail hnd hn' (Or.inl List.getLast?_concat.symm)
        hadj.of_cons
      rwa [append_assoc, singleton_append] at this

theorem chain_of_links {next : ℕ → Option ℕ} {first : Option ℕ} {R : ℕ → ℕ → Prop}
    (h : Linked next first l) (hnd : l.Nodup)
    (hR : ∀ a ∈ l, ∀ b ∈ l, a ≠ b → next a = some b → R a b) : l.IsChain R := by
  induction l generalizing first with
  | nil => exact .nil
  | cons a l ih =>
    obtain ⟨hal, hnd⟩ := nodup_cons.mp hnd
    have ih := ih h.2 hnd fun x hx y hy =>
      hR x (mem_cons_of_mem a hx) y (mem_cons_of_mem a hy)
    cases l with
    | nil => exact .singleton a
    | cons b l =>
      refine isChain_cons_cons.mpr ⟨?_, ih⟩
      exact hR a mem_cons_self b (mem_cons_of_mem a mem_cons_self)
        (fun hab => hal (hab ▸ mem_cons_self)) h.2.1

/-- The two queues of the pair are on the list, one behind the other. -/
def Adjacent (s : RunQueue) (qp : ℕ) : Prop :=
  s.qenab qp = true ∧ s.qenab (WR qp) = true ∧
    (s.q_link qp = some (WR qp) ∨ s.q_link (WR qp) = some qp)

theorem Exact.length_le (h : s.Exact l) : l.length ≤ s.nqueue + 1 := by
  have hsub : l ⊆ List.range (s.nqueue + 1) := fun q hq =>
    mem_range.mpr (Nat.lt_succ_of_le (h.bound q (h.quse q hq)))
  have := (subperm_of_subset h.nodup hsub).length_le
  rwa [length_range] at this

/-- After the loop of `qdetach` all is well but for the flags of the pair. -/
theorem unlinkLoop_exact (h : s.Exact l) (hadj : ¬ s.Adjacent qp) {u : RunQueue}
    (hu : u = if s.qenab qp ∨ s.qenab (WR qp) then unlinkLoop qp (s.nqueue + 1) s.qhead none s
      else s) :
    Linked u.q_link u.qhead (l.filter fun q => ¬ InPair qp q) ∧
      u.qtail = (l.filter fun q => ¬ InPair qp q).getLast? ∧ s.SameQueues u := by
  split_ifs at hu with hen
  · have hchain : l.IsChain fun a b => ¬ (InPair qp a ∧ InPair qp b) := by
      refine chain_of_links h.linked h.nodup fun a ha b hb hab hlink hpair => hadj ?_
      have ha := (h.mem a).mp ha
      have hb := (h.mem b).mp hb
      obtain ⟨rfl | rfl, rfl | rfl⟩ := hpair
      · exact absurd rfl hab
      · exact ⟨ha, hb, Or.inl hlink⟩
      · exact ⟨hb, ha, Or.inr hlink⟩
      · exact absurd rfl hab
    have hspec := unlinkLoop_spec [] none h.linked h.tail h.nodup h.length_le
      (Or.inl rfl) hchain
    rw [← h.qhead_eq] at hspec
    rw [hu]
    exact hspec
  · rw [hu]
    have hfilter : (l.filter fun q => ¬ InPair qp q) = l := by
      refine filter_eq_self.mpr fun q hq => decide_eq_true fun hp => hen ?_
      have hqe := (h.mem q).mp hq
      rcases hp with rfl | rfl
      · exact Or.inl hqe
      · exact Or.inr hqe
    rw [hfilter]
    exact ⟨h.linked, h.tail, rfl, rfl, rfl, rfl, rfl⟩

theorem update_pair {α : Type} (f : ℕ → α) (a : α) (q : ℕ) :
    update (update f qp a) (WR qp) a q = if InPair qp q then a else f q := by
  by_cases hw : q = WR qp
  · have hp : InPair qp (WR qp) := Or.inr rfl
    rw [hw, update_self, if_pos hp]
  · rw [update_of_ne hw]
    by_cases hq : q = qp
    · have hp : InPair qp qp := Or.inl rfl
      rw [hq, update_self, if_pos hp]
    · rw [update_of_ne hq, if_neg fun h => h.elim hq hw]

theorem freeq_pending (s : RunQueue) (qp : ℕ) :
    (s.freeq qp).pending = s.pending.filter fun q => ¬ InPair qp q := by
  unfold freeq
  refine filter_congr fun q _ => decide_eq_decide.mpr ?_
  unfold InPair
  exact not_or.symm

/-- Once the list is right, `freeq` makes the flags right. -/
theorem exact_freeq (h : s.Exact l) (hqp : qp % 2 = 0) {u : RunQueue}
    (hlink : Linked u.q_link u.qhead (l.filter fun q => ¬ InPair qp q))
    (htail : u.qtail = (l.filter fun q => ¬ InPair qp q).getLast?) (hsame : s.SameQueues u) :
    (u.freeq qp).Exact (l.filter fun q => ¬ InPair qp q) := by
  have hmem : ∀ q, q ∈ (l.filter fun q => ¬ InPair qp q) ↔ q ∈ l ∧ ¬ InPair qp q := fun q => by
    rw [mem_filter, decide_eq_true_iff]
  refine ⟨hlink, htail, h.nodup.filter _, fun q => ?_, ?_, fun q hq => ?_, fun q hq => ?_,
    fun q hq => ?_, fun q hq => ?_⟩
  · unfold freeq
    dsimp only
    rw [hmem, update_pair, hsame.qenab, h.mem]
    by_cases hp : InPair qp q
    · rw [if_pos hp]
      exact iff_of_false (fun h => h.2 hp) Bool.false_ne_true
    · rw [if_neg hp]
      exact and_iff_left hp
  · rw [freeq_pending, hsame.pending, h.pending]
  · unfold freeq
    dsimp only
    rw [hsame.qi_srvp]
    exact h.srvp q ((hmem q).mp hq).1
  · obtain ⟨hql, hp⟩ := (hmem q).mp hq
    unfold freeq
    dsimp only
    rw [update_pair, if_neg hp, hsame.quse]
    exact h.quse q hql
  · unfold freeq
    dsimp only
    rw [update_pair, update_pair, hsame.quse]
    have hiff : InPair qp (WR q) ↔ InPair qp q := by
      unfold InPair WR
      omega
    by_cases hp : InPair qp q
    · rw [if_pos (hiff.mpr hp), if_pos hp]
    · rw [if_neg fun h => hp (hiff.mp h), if_neg hp]
      exact h.pair q hq
  · unfold freeq at hq
    dsimp only at hq
    rw [update_pair, hsame.quse] at hq
    split at hq
    · cases hq
    · unfold freeq
      rw [hsame.nqueue]
      exact h.bound q hq

/-- A queue that is enabled while the pair is detached might as well be enabled afterwards. -/
theorem qenable_freeq (s : RunQueue) (hq : ¬ InPair qp q) :
    (s.qenable q).freeq qp = (s.freeq qp).qenable q := by
  have hen : (s.freeq qp).qenab q = s.qenab q := by
    unfold freeq
    dsimp only
    rw [update_pair, if_neg hq]
  unfold qenable
  rw [hen]
  by_cases hsrv : s.qi_srvp q = false
  · rw [if_pos hsrv, if_pos (show (s.freeq qp).qi_srvp q = false from hsrv)]
  rw [if_neg hsrv, if_neg (show ¬ (s.freeq qp).qi_srvp q = false from hsrv)]
  split_ifs
  · rfl
  obtain ⟨hq1, hq2⟩ := not_or.mp hq
  unfold freeq
  dsimp only
  congr 1
  · rw [update_comm hq1, update_comm hq2]
  · rw [filter_append, filter_cons_of_pos (by simpa using ⟨hq1, hq2⟩),
      filter_nil]

theorem quse_qenable (s : RunQueue) (q : ℕ) : (s.qenable q).quse = s.quse := by
  unfold qenable
  split_ifs <;> rfl

theorem exact_foldl {back : List ℕ} (h : s.Exact l) (hl : ∀ q ∈ l, ¬ InPair qp q)
    (hback : ∀ q ∈ back, s.quse q = true ∧ ¬ InPair qp q) :
    ∃ l', (back.foldl qenable s).Exact l' ∧ ∀ q ∈ l', ¬ InPair qp q := by
  induction back generalizing s l with
  | nil => exact ⟨l, h, hl⟩
  | cons q back ih =>
    obtain ⟨⟨hq, hp⟩, hback⟩ := forall_mem_cons.mp hback
    refine ih (exact_qenable h hq) ?_ (by rwa [quse_qenable])
    split_ifs
    · exact forall_mem_append.mpr ⟨hl, forall_mem_singleton.mpr hp⟩
    · exact hl

/-- **`qdetach` keeps the list exact** and takes the pair off it. -/
theorem exact_qdetach {clmode : Bool} {back : List ℕ} (h : s.Exact l) (hqp : qp % 2 = 0)
    (hback : ∀ q ∈ back, s.quse q = true)
    (hC : if clmode then ¬ s.Adjacent qp ∧ ∀ q ∈ back, ¬ InPair qp q
      else s.qenab qp = false ∧ s.qenab (WR qp) = false) :
    ∃ l', (s.qdetach qp clmode back).Exact l' ∧ ∀ q ∈ l', ¬ InPair qp q := by
  unfold qdetach
  cases clmode with
  | false =>
    rw [if_neg Bool.false_ne_true] at hC ⊢
    have hout : ∀ q ∈ l, ¬ InPair qp q := fun q hq hp => by
      have hqe := (h.mem q).mp hq
      rcases hp with rfl | rfl
      · rw [hC.1] at hqe
        cases hqe
      · rw [hC.2] at hqe
        cases hqe
    have hl : (l.filter fun q => ¬ InPair qp q) = l :=
      filter_eq_self.mpr fun q hq => decide_eq_true (hout q hq)
    have hfree := exact_freeq (u := s) h hqp (by rw [hl]; exact h.linked) (by rw [hl]; exact h.tail)
      ⟨rfl, rfl, rfl, rfl, rfl⟩
    rw [hl] at hfree
    exact ⟨l, hfree, hout⟩
  | true =>
    rw [if_pos rfl] at hC ⊢
    dsimp only
    obtain ⟨hadj, hbp⟩ := hC
    obtain ⟨u, hu⟩ : ∃ u, u = if s.qenab qp ∨ s.qenab (WR qp) then
      unlinkLoop qp (s.nqueue + 1) s.qhead none s else s := ⟨_, rfl⟩
    rw [← hu]
    obtain ⟨h1, h2, h3⟩ := unlinkLoop_exact h hadj hu
    have hfree := exact_freeq h hqp h1 h2 h3
    have hfold : (back.foldl qenable u).freeq qp = back.foldl qenable (u.freeq qp) := by
      clear hu h1 h2 h3 hfree hback
      induction back generalizing u with
      | nil => rfl
      | cons q back ih =>
        obtain ⟨hq, hbp⟩ := forall_mem_cons.mp hbp
        rw [foldl_cons, foldl_cons, ih hbp, qenable_freeq u hq]
    rw [hfold]
    refine exact_foldl hfree (fun q hq => ?_) fun q hq => ⟨?_, hbp q hq⟩
    · rw [mem_filter, decide_eq_true_iff] at hq
      exact hq.2
    · unfold freeq
      dsimp only
      rw [update_pair, if_neg (hbp q hq), h3.quse]
      exact hback q hq

/-! ### `qattach` -/

theorem exact_qattach (h : s.Exact l) (r w : Bool) : (s.qattach r w).Exact l := by
  unfold qattach
  cases hrq : s.allocq with
  | none => exact h
  | some rq =>
    have hmem := mem_of_find?_eq_some hrq
    have hfree := List.find?_some hrq
    rw [Bool.not_eq_true'] at hfree
    obtain ⟨i, hi, rfl⟩ := mem_map.mp hmem
    rw [mem_range] at hi
    have hwfree : s.quse (WR (2 * i)) = false := (h.pair _ (by omega)).trans hfree
    -- neither of the two is on the list
    have hout : ∀ q ∈ l, ¬ InPair (2 * i) q := fun q hq hp => by
      have hqu := h.quse q hq
      rcases hp with rfl | rfl
      · rw [hfree] at hqu
        cases hqu
      · rw [hwfree] at hqu
        cases hqu
    have hkeep : ∀ {α : Type} (f : ℕ → α) (a b : α) q, ¬ InPair (2 * i) q →
        update (update f (2 * i) a) (WR (2 * i)) b q = f q := by
      intro α f a b q hq
      obtain ⟨h1, h2⟩ := not_or.mp hq
      rw [update_of_ne h2, update_of_ne h1]
    refine ⟨h.linked.congr fun q hq => hkeep _ _ _ q (hout q hq), h.tail, h.nodup, fun q => ?_,
      h.pending, fun q hq => ?_, fun q hq => ?_, fun q hq => ?_, fun q hq => ?_⟩
    · dsimp only
      rw [update_pair]
      by_cases hp : InPair (2 * i) q
      · rw [if_pos hp]
        exact iff_of_false (fun hq => hout q hq hp) Bool.false_ne_true
      · rw [if_neg hp]
        exact h.mem q
    · exact (hkeep _ _ _ q (hout q hq)).trans (h.srvp q hq)
    · exact (hkeep _ _ _ q (hout q hq)).trans (h.quse q hq)
    · dsimp only
      rw [update_pair, update_pair]
      have hiff : InPair (2 * i) (WR q) ↔ InPair (2 * i) q := by
        unfold InPair WR
        omega
      by_cases hp : InPair (2 * i) q
      · rw [if_pos (hiff.mpr hp), if_pos hp]
      · rw [if_neg fun h => hp (hiff.mp h), if_neg hp]
        exact h.pair q hq
    · dsimp only at hq ⊢
      rw [update_pair] at hq
      by_cases hp : InPair (2 * i) q
      · unfold InPair WR at hp
        omega
      · rw [if_neg hp] at hq
        exact h.bound q hq

/-! ## Runs -/

/-- What a call of `qdetach` is to find: the queues of the pair are not one behind the other and are
not enabled by `flushq`; if there is no close procedure to call, they are not enabled at all. -/
def Separate (s : RunQueue) : RunCall → Prop
  | .qdetach qp clmode back =>
    if clmode then ¬ s.Adjacent qp ∧ ∀ q ∈ back, ¬ InPair qp q
    else s.qenab qp = false ∧ s.qenab (WR qp) = false
  | _ => True

/-- What holds after a call: the pair that `qdetach` has freed is not on the list, and when `queuerun`
returns every service procedure has been called. -/
def Done (l : List ℕ) (s : RunQueue) : RunCall → Prop
  | .qdetach qp _ _ => ∀ q ∈ l, ¬ InPair qp q
  | .queuerunRet => l = [] ∧ s.pending = []
  | _ => True

theorem exact_step {e : RunCall} (h : s.Exact l) (hC : s.Separate e) (hstep : s.step e = some t) :
    ∃ l', t.Exact l' ∧ t.Done l' e := by
  cases e with
  | qenable q =>
    rw [step] at hstep
    split_ifs at hstep with hq
    cases hstep
    exact ⟨_, exact_qenable h hq, trivial⟩
  | runNext =>
    obtain ⟨q, l', -, h'⟩ := exact_runNext h hstep
    exact ⟨l', h', trivial⟩
  | queuerunRet =>
    rw [step] at hstep
    split_ifs at hstep with hq
    cases hstep
    rw [h.qhead_eq] at hq
    obtain rfl := List.head?_eq_none_iff.mp hq
    exact ⟨[], ⟨h.linked, h.tail, h.nodup, h.mem, h.pending, h.srvp, h.quse, h.pair, h.bound⟩, rfl,
      h.pending⟩
  | qattach r w =>
    cases hstep
    exact ⟨l, exact_qattach h r w, trivial⟩
  | qdetach qp clmode back =>
    rw [step] at hstep
    split_ifs at hstep with hq
    cases hstep
    exact exact_qdetach h hq.1 (fun q hqb => (hq.2.2 q hqb).1) hC

/-- No queue is enabled. -/
def Idle (s : RunQueue) : Prop := s.Exact []

/-- **The run list is exact** after every call of a run, as long as `qdetach` never finds the queues
of its pair one behind the other on the list. -/
theorem run_list (hs : s.Idle) (hC : StepsMeet Separate step s es) (h : exec step s es = some t) :
    ∃ l, t.Exact l ∧ ∀ e ∈ es.getLast?, t.Done l e := by
  obtain ⟨⟨l, hl⟩, hlast⟩ := exec_last (P := fun s : RunQueue => ∃ l, s.Exact l)
    (Q := fun (s : RunQueue) e => ∃ l, s.Exact l ∧ s.Done l e) (fun s e t ⟨l, hl⟩ hC hstep => by
      obtain ⟨l', hl', hdone⟩ := exact_step hl hC hstep
      exact ⟨⟨l', hl'⟩, l', hl', hdone⟩) ⟨[], hs⟩ hC h
  cases hes : es.getLast? with
  | none => exact ⟨l, hl, fun _ h => nomatch h⟩
  | some e =>
    obtain ⟨l', hl', hdone⟩ := hlast e hes
    refine ⟨l', hl', fun e' he' => ?_⟩
    cases he'
    exact hdone

/-- After `strinit`, with room for `n` queues. -/
def boot (n : ℕ) : RunQueue :=
  ⟨n, none, none, false, fun _ => none, fun _ => false, fun _ => false, fun _ => false, []⟩

theorem idle_boot (n : ℕ) : (boot n).Idle :=
  ⟨rfl, rfl, .nil, fun _ => iff_of_false not_mem_nil Bool.false_ne_true, rfl,
    fun _ h => (nomatch h), fun _ h => (nomatch h), fun _ _ => rfl, fun _ h => (nomatch h)⟩

instance decidableSeparate (s : RunQueue) : (e : RunCall) → Decidable (s.Separate e)
  | .qdetach qp clmode back =>
    have : Decidable (s.Adjacent qp) := inferInstanceAs (Decidable (_ ∧ _))
    inferInstanceAs (Decidable (if clmode then ¬ s.Adjacent qp ∧ ∀ q ∈ back, ¬ InPair qp q
      else s.qenab qp = false ∧ s.qenab (WR qp) = false))
  | .qenable _ => inferInstanceAs (Decidable True)
  | .runNext => inferInstanceAs (Decidable True)
  | .queuerunRet => inferInstanceAs (Decidable True)
  | .qattach _ _ => inferInstanceAs (Decidable True)

/-- Two modules; both queues of the first one are enabled, with one of the second between them, when
it is detached. -/
def someCalls : List RunCall :=
  [.qattach true true, .qattach true true, .qenable 0, .qenable 2, .qenable 1,
    .qdetach 0 true [3], .runNext, .runNext, .queuerunRet]

theorem run_list_some : ∃ t, exec step (boot 4) someCalls = some t ∧
    ∃ l, t.Exact l ∧ ∀ e ∈ someCalls.getLast?, t.Done l e := by
  obtain ⟨t, ht⟩ : ∃ t, exec step (boot 4) someCalls = some t :=
    isSome_iff_exists.mp (by decide +kernel)
  refine ⟨t, ht, run_list (idle_boot 4) ?_ ht⟩
  exact stepsMeet_of_allSteps (c := fun s e => decide (s.Separate e))
    (fun _ _ => of_decide_eq_true) (by decide +kernel)

/-- When the queues of the pair are one behind the other, the second one stays on the list. -/
theorem pair_left : ¬ ∀ es t, exec step (boot 2) es = some t →
    ∃ l, t.Exact l ∧ ∀ e ∈ es.getLast?, t.Done l e := by
  intro h
  obtain ⟨t, ht, hhead, hen⟩ : ∃ t, exec step (boot 2)
      [.qattach true true, .qenable 0, .qenable 1, .qdetach 0 true []] = some t ∧
      t.qhead = some 1 ∧ t.qenab 1 = false := ⟨_, rfl, rfl, rfl⟩
  obtain ⟨l, hl, -⟩ := h _ t ht
  have hmem : 1 ∈ l := by
    have := hl.qhead_eq
    rw [hhead] at this
    exact mem_of_head? this.symm
  rw [hl.mem, hen] at hmem
  cases hmem

end RunQueue

end Io
