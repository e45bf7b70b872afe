import OpusSysV.Io.StreamBuf

/-!
# Waiting for buffers: `bufcall` of `io/stream.c`

A caller whose `allocb` failed has a function called later by `bufcall`, which queues it for
the class of the block and one of three priorities.  `freeb` looks whether a function could
go and sets `strbcflag`; `queuerun` then passes through the classes and calls as many
functions of each list as it thinks there are blocks.

* `Bufs.allocb`, `Bufs.bufcall`, `Bufs.freeb`, `Bufs.queuerun` — the routines; a turn of a
  loop of `queuerun` is one event, and what the functions do are events like others.
* `no_request_stranded` — where `freeb`, `bufcall` and `queuerun` overlook no request that
  could go, none is left waiting for a block it could have.
* `stranded_by_dup` — the message block that the request waits for is freed with a duplicate,
  and nobody looks.
-/

namespace Io

open Lib Function Option

/-! ## The routines -/

/-- The three lists of a class, `dba_hip`, `dba_medp` and `dba_lop`. -/
inductive BufPri
  | hip
  | medp
  | lop
  deriving DecidableEq, Repr

/-- The list for a priority. -/
def bufPri (pri : ℕ) : BufPri :=
  if pri = BPRI_HI then .hip else if pri = BPRI_LO then .lop else .medp

/-- Where `queuerun` is: not running, in the loop over a list with its `count` and `total`, or
running the queues. -/
inductive QueueRun
  | idle
  | list (c : Fin 12) (k : BufPri) (count total : ℤ)
  | queues
  deriving DecidableEq, Repr

/-- The pool, the functions that wait, the number of data blocks of each class in `v`, and the
callers of `allocb` that got nothing and have not called `bufcall` yet. -/
structure Bufs (M D : Type) where
  pool : Pool M D
  nblk : Fin 12 → ℤ
  waiting : Fin 12 → BufPri → List ℕ
  strbcflag : Bool
  run : QueueRun
  failed : List (ℤ × ℕ)

/-- The calls, and the turns of `queuerun`. -/
inductive BufsCall (M : Type)
  | allocb (size : ℤ) (pri : ℕ)
  | dupb (bp : M)
  | freeb (bp : M)
  | bufcall (size : ℤ) (pri : ℕ) (func : ℕ) (cell : Bool)
  | queuerun
  | turn

namespace Bufs

variable {M D : Type} [DecidableEq M] [DecidableEq D]

/-- The number of blocks of a class that a priority may have taken, as `queuerun` has it. -/
def cutoff (s : Bufs M D) (c : Fin 12) : BufPri → ℤ
  | .hip => s.nblk c
  | .medp => s.pool.dbaMed c
  | .lop => s.pool.dbaLo c

/-- `allocb(size, pri)` by a caller that will call `bufcall`. -/
def allocb (s : Bufs M D) (size : ℤ) (pri : ℕ) : Bufs M D :=
  match s.pool.allocb size pri with
  | none => { s with failed := (size, pri) :: s.failed }
  | some (_, pool) => { s with pool := pool }

/-- `dupb(bp)`. -/
def dupb (s : Bufs M D) (bp : M) : Bufs M D :=
  match s.pool.dupb bp with
  | none => s
  | some (_, pool) => { s with pool := pool }

/-- The test of `freeb` for functions that can go, with the count after `--`. -/
def canGo (s : Bufs M D) (c : Fin 12) (cnt : ℤ) : Bool :=
  s.waiting c .hip ≠ [] ∨
    (s.waiting c .medp ≠ [] ∧ cnt < s.pool.dbaMed c) ∨
    (s.waiting c .lop ≠ [] ∧ cnt < s.pool.dbaLo c)

/-- The block has no other references, and `freeb` finds a function that can go. -/
def frees (s : Bufs M D) (bp : M) : Bool :=
  match s.pool.datap bp with
  | none => false
  | some d =>
    s.pool.dbRef d - 1 = 0 ∧ s.canGo (s.pool.dbClass d) (s.pool.dbaCnt (s.pool.dbClass d) - 1)

/-- `freeb(bp)`. -/
def freeb (s : Bufs M D) (bp : M) : Bufs M D :=
  { s with pool := s.pool.freeb bp, strbcflag := s.strbcflag || s.frees bp }

/-- `bufcall(size, pri, func, arg)`; `cell` says whether there is a stream event cell. -/
def bufcall (s : Bufs M D) (size : ℤ) (pri : ℕ) (func : ℕ) (cell : Bool) : Option (Bufs M D) :=
  if size < 0 then none
  else
    (getclass size).map fun c =>
      if s.pool.bcmax c pri = 0 then s
      else if pri = BPRI_HI ∧ s.nblk c = 0 then s
      else if ¬ cell then s
      else
        let list := update (s.waiting c) (bufPri pri) (s.waiting c (bufPri pri) ++ [func])
        { s with waiting := update s.waiting c list }

/-- The loop over the first list of a class begins. -/
def enter (s : Bufs M D) (c : Fin 12) : Bufs M D :=
  { s with run := .list c .hip (s.nblk c - s.pool.dbaCnt c) 0 }

/-- `do { if (strbcflag) {` of `queuerun`. -/
def again (s : Bufs M D) : Bufs M D :=
  if s.strbcflag then { s with strbcflag := false }.enter 11 else { s with run := .queues }

/-- The loop over a list ends, and the next one begins. -/
def next (s : Bufs M D) (c : Fin 12) (k : BufPri) (total : ℤ) : Bufs M D :=
  match k with
  | .hip => { s with run := .list c .medp (s.pool.dbaMed c - s.pool.dbaCnt c - total) total }
  | .medp => { s with run := .list c .lop (s.pool.dbaLo c - s.pool.dbaCnt c - total) total }
  | .lop => if h : c.val = 0 then { s with run := .queues } else s.enter ⟨c.val - 1, by omega⟩

/-- A turn of the loop over a list, which calls a function, or of the outer loop. -/
def turn (s : Bufs M D) : Option (Bufs M D) :=
  match s.run with
  | .idle => none
  | .list c k count total =>
    match s.waiting c k with
    | [] => some (s.next c k total)
    | _ :: rest =>
      if s.pool.mbfreelist ≠ [] ∧ count > 0 then
        some { s with
          waiting := update s.waiting c (update (s.waiting c) k rest)
          run := .list c k (count - 1) (if k = .lop then total else total + 1) }
      else some (s.next c k total)
  | .queues => if s.strbcflag then some s.again else some { s with run := .idle }

/-- One call or turn; `none` if a call is given a block that is not live, `bufcall` is called
without a reason, or `queuerun` is entered twice. -/
def step (s : Bufs M D) : BufsCall M → Option (Bufs M D)
  | .allocb size pri => some (s.allocb size pri)
  | .dupb bp => if bp ∈ s.pool.mbfreelist then none else some (s.dupb bp)
  | .freeb bp => if bp ∈ s.pool.mbfreelist then none else some (s.freeb bp)
  | .bufcall size pri func cell =>
    if (size, pri) ∈ s.failed then
      { s with failed := s.failed.erase (size, pri) }.bufcall size pri func cell
    else none
  | .queuerun => if s.run = .idle then some s.again else none
  | .turn => s.turn

end Bufs

/-! ## No request is left -/

namespace Bufs

variable {M D : Type} {s t : Bufs M D} {c : Fin 12} {k : BufPri} {bp : M}

/-- The order of the lists in a class. -/
def rank : BufPri → ℕ
  | .hip => 0
  | .medp => 1
  | .lop => 2

/-- `queuerun` is in the loop over this list, or has not come to it yet. -/
def ahead (s : Bufs M D) (c : Fin 12) (k : BufPri) : Prop :=
  match s.run with
  | .list c' k' _ _ => c < c' ∨ c = c' ∧ rank k' ≤ rank k
  | _ => False

/-- No function on the list could go now: there is no message block, or the class is at the
cutoff. -/
def Settled (s : Bufs M D) (c : Fin 12) (k : BufPri) : Prop :=
  s.waiting c k ≠ [] → s.pool.mbfreelist = [] ∨ s.cutoff c k ≤ s.pool.dbaCnt c

/-- What the steps overlook nothing by.  `freeb` brings the first message block when each class
with functions that wait is at the cutoff, or finds one of the class of its data block that can
go; `bufcall` is called while there is still no message block, or the class at the cutoff; and
the loop of `queuerun` over a list ends before the list does only for the same reason. -/
def Covered (s : Bufs M D) : BufsCall M → Prop
  | .freeb bp => s.strbcflag = false → s.pool.mbfreelist = [] → s.frees bp = false →
      ∀ c k, ¬ s.ahead c k → s.waiting c k ≠ [] → s.cutoff c k ≤ s.pool.dbaCnt c
  | .bufcall size pri _ cell => s.strbcflag = false → cell = true →
      ∀ c, getclass size = some c → ¬ s.ahead c (bufPri pri) →
        s.pool.mbfreelist = [] ∨ s.cutoff c (bufPri pri) ≤ s.pool.dbaCnt c
  | .turn => s.strbcflag = false → ∀ c k count total, s.run = .list c k count total →
      count ≤ 0 → s.Settled c k
  | _ => True

/-- The lists that `queuerun` has passed are settled, or it will come again. -/
def Inv (s : Bufs M D) : Prop := s.strbcflag = true ∨ ∀ c k, ¬ s.ahead c k → s.Settled c k

/-- A step that only takes blocks unsettles no list. -/
theorem Inv.mono (h : Inv s) (hflag : t.strbcflag = s.strbcflag) (hrun : t.run = s.run)
    (hwait : t.waiting = s.waiting) (hcut : ∀ c k, t.cutoff c k = s.cutoff c k)
    (hmb : s.pool.mbfreelist = [] → t.pool.mbfreelist = [])
    (hcnt : ∀ c, s.pool.dbaCnt c ≤ t.pool.dbaCnt c) : Inv t := by
  rcases h with h | h
  · exact .inl (hflag.trans h)
  · refine .inr fun c k hahead hw => ?_
    unfold ahead at h hahead
    rw [hrun] at hahead
    rw [hwait] at hw
    rcases h c k hahead hw with hnone | hle
    · exact .inl (hmb hnone)
    · right
      rw [hcut]
      exact hle.trans (hcnt c)

theorem Settled.congr (h : s.Settled c k) (hpool : t.pool = s.pool) (hnblk : t.nblk = s.nblk)
    (hwait : t.waiting c k = s.waiting c k) : t.Settled c k := by
  intro hw
  rw [hwait] at hw
  rw [hpool]
  have hcut : t.cutoff c k = s.cutoff c k := by
    cases k with
    | hip => exact congrFun hnblk c
    | medp => exact congrFun (congrArg Pool.dbaMed hpool) c
    | lop => exact congrFun (congrArg Pool.dbaLo hpool) c
  rw [hcut]
  exact h hw

/-- A step that leaves the pool must account for the lists it changes or passes. -/
theorem Inv.lists (h : Inv s) (hflag : t.strbcflag = s.strbcflag) (hpool : t.pool = s.pool)
    (hnblk : t.nblk = s.nblk)
    (hlist : s.strbcflag = false → ∀ c k, ¬ t.ahead c k →
      ¬ s.ahead c k ∧ t.waiting c k = s.waiting c k ∨ t.Settled c k) : Inv t := by
  cases hs : s.strbcflag with
  | true => exact .inl (hflag.trans hs)
  | false =>
    rcases h with h | h
    · rw [hs] at h
      cases h
    · refine .inr fun c k hahead => ?_
      rcases hlist hs c k hahead with ⟨hnot, hwait⟩ | hsettled
      · exact (h c k hnot).congr hpool hnblk hwait
      · exact hsettled

/-! ### The turns of `queuerun` -/

theorem not_ahead_of_run (h : s.run = .idle ∨ s.run = .queues) : ¬ s.ahead c k := by
  unfold ahead
  rcases h with h | h
  · rw [h]
    exact id
  · rw [h]
    exact id

theorem Inv.again (h : Inv s) (hrun : s.run = .idle ∨ s.run = .queues) : Inv s.again := by
  unfold Bufs.again
  split_ifs
  · -- every list is ahead
    refine .inr fun c k hnot => absurd ?_ hnot
    show c < 11 ∨ c = 11 ∧ 0 ≤ rank k
    rcases lt_or_eq_of_le (Fin.le_last c) with hlt | heq
    · exact .inl hlt
    · exact .inr ⟨heq, Nat.zero_le _⟩
  · refine h.lists rfl rfl rfl fun _ c k _ => .inl ⟨not_ahead_of_run hrun, rfl⟩

/-- The lists that are not ahead after the loop over `c`, `k` has ended are this one and those
that were not ahead before. -/
theorem not_ahead_next {count total total' : ℤ} {c' : Fin 12} {k' : BufPri}
    (hrun : s.run = .list c k count total) (h : ¬ (s.next c k total').ahead c' k') :
    c' = c ∧ k' = k ∨ ¬ s.ahead c' k' := by
  by_cases hc : c' = c ∧ k' = k
  · exact .inl hc
  refine .inr fun hin => h ?_
  unfold ahead at hin
  rw [hrun] at hin
  dsimp only at hin
  cases k with
  | hip =>
    show c' < c ∨ c' = c ∧ 1 ≤ rank k'
    rcases hin with hlt | ⟨rfl, -⟩
    · exact .inl hlt
    · refine .inr ⟨rfl, ?_⟩
      cases k' with
      | hip => exact absurd ⟨rfl, rfl⟩ hc
      | medp => exact le_rfl
      | lop => exact Nat.le_succ 1
  | medp =>
    show c' < c ∨ c' = c ∧ 2 ≤ rank k'
    rcases hin with hlt | ⟨rfl, hk⟩
    · exact .inl hlt
    · refine .inr ⟨rfl, ?_⟩
      cases k' with
      | hip => exact absurd hk (by decide)
      | medp => exact absurd ⟨rfl, rfl⟩ hc
      | lop => exact le_rfl
  | lop =>
    have hlt : c' < c := by
      rcases hin with hlt | ⟨rfl, hk⟩
      · exact hlt
      · cases k' with
        | hip => exact absurd hk (by decide)
        | medp => exact absurd hk (by decide)
        | lop => exact absurd ⟨rfl, rfl⟩ hc
    unfold next
    dsimp only
    by_cases h0 : c.val = 0
    · omega
    · rw [dif_neg h0]
      show c' < ⟨c.val - 1, _⟩ ∨ c' = ⟨c.val - 1, _⟩ ∧ 0 ≤ rank k'
      by_cases heq : c'.val = c.val - 1
      · exact .inr ⟨Fin.ext heq, Nat.zero_le _⟩
      · refine .inl (Fin.lt_def.mpr ?_)
        show c'.val < c.val - 1
        have := Fin.lt_def.mp hlt
        omega

theorem next_same (s : Bufs M D) (c : Fin 12) (k : BufPri) (total : ℤ) :
    (s.next c k total).pool = s.pool ∧ (s.next c k total).nblk = s.nblk ∧
      (s.next c k total).waiting = s.waiting ∧ (s.next c k total).strbcflag = s.strbcflag := by
  cases k with
  | hip => exact ⟨rfl, rfl, rfl, rfl⟩
  | medp => exact ⟨rfl, rfl, rfl, rfl⟩
  | lop =>
    unfold next
    dsimp only
    by_cases h : c.val = 0
    · rw [dif_pos h]
      exact ⟨rfl, rfl, rfl, rfl⟩
    · rw [dif_neg h]
      exact ⟨rfl, rfl, rfl, rfl⟩

theorem Inv.next {count total total' : ℤ} (h : Inv s) (hrun : s.run = .list c k count total)
    (hend : s.strbcflag = false → s.Settled c k) : Inv (s.next c k total') := by
  obtain ⟨hpool, hnblk, hwait, hflag⟩ := next_same s c k total'
  refine h.lists hflag hpool hnblk fun hs c' k' hnot => ?_
  rcases not_ahead_next hrun hnot with ⟨rfl, rfl⟩ | hnot
  · exact .inr ((hend hs).congr hpool hnblk (by rw [hwait]))
  · exact .inl ⟨hnot, by rw [hwait]⟩

theorem Inv.turn (h : Inv s) (hC : Covered s .turn) (ht : s.turn = some t) : Inv t := by
  unfold Bufs.turn at ht
  cases hrun : s.run with
  | idle =>
    rw [hrun] at ht
    cases ht
  | queues =>
    rw [hrun] at ht
    dsimp only at ht
    split at ht
    · cases ht
      exact h.again (.inr hrun)
    · cases ht
      exact h.lists rfl rfl rfl fun _ c k _ => .inl ⟨not_ahead_of_run (.inr hrun), rfl⟩
  | list c k count total =>
    rw [hrun] at ht
    dsimp only at ht
    cases hw : s.waiting c k with
    | nil =>
      rw [hw] at ht
      cases ht
      exact h.next hrun fun _ hne => absurd hw hne
    | cons func rest =>
      rw [hw] at ht
      dsimp only at ht
      by_cases hgo : s.pool.mbfreelist ≠ [] ∧ count > 0
      · rw [if_pos hgo] at ht
        cases ht
        refine h.lists rfl rfl rfl fun _ c' k' hnot => .inl ?_
        have hnot' : ¬ s.ahead c' k' := by
          unfold ahead
          rw [hrun]
          exact hnot
        refine ⟨hnot', ?_⟩
        -- the list that got shorter is ahead
        have hne : ¬ (c' = c ∧ k' = k) := by
          rintro ⟨rfl, rfl⟩
          exact hnot (.inr ⟨rfl, le_rfl⟩)
        show update s.waiting c (update (s.waiting c) k rest) c' k' = _
        by_cases hc : c' = c
        · have hk : k' ≠ k := fun hk => hne ⟨hc, hk⟩
          rw [hc, update_self, update_of_ne hk]
        · rw [update_of_ne hc]
      · rw [if_neg hgo] at ht
        cases ht
        refine h.next hrun fun hflag => ?_
        by_cases hmb : s.pool.mbfreelist = []
        · exact fun _ => .inl hmb
        · exact hC hflag c k count total hrun (by
            by_contra hpos
            exact hgo ⟨hmb, not_le.mp hpos⟩)

/-! ### The calls -/

section pool

variable [DecidableEq M] [DecidableEq D] {p q : Pool M D} {b : M} {d : D} {size : ℤ} {pri : ℕ}

/-- What an allocation leaves of the pool. -/
structure Takes (p q : Pool M D) : Prop where
  had : p.mbfreelist ≠ []
  dbaMed_eq : q.dbaMed = p.dbaMed
  dbaLo_eq : q.dbaLo = p.dbaLo
  dbaCnt_le : ∀ c, p.dbaCnt c ≤ q.dbaCnt c

theorem takes_gotdp (h : p.gotdp c d = some (b, q)) : Takes p q := by
  unfold Pool.gotdp at h
  cases hmb : p.mbfreelist with
  | nil =>
    rw [hmb] at h
    cases h
  | cons m rest =>
    rw [hmb] at h
    cases h
    refine ⟨by rw [hmb]; exact List.cons_ne_nil _ _, rfl, rfl, fun c' => ?_⟩
    show p.dbaCnt c' ≤ update p.dbaCnt c (p.dbaCnt c + 1) c'
    rw [update_apply]
    split_ifs with hc
    · rw [hc]
      omega
    · rfl

theorem takes_allocb (h : p.allocb size pri = some (b, q)) : Takes p q := by
  unfold Pool.allocb at h
  obtain ⟨c, -, h⟩ := bind_eq_some_iff.mp h
  cases hoffer : p.offer pri c with
  | some d =>
    rw [hoffer] at h
    exact takes_gotdp h
  | none =>
    rw [hoffer] at h
    dsimp only at h
    by_cases hlast : c.val + 1 < 12
    · rw [dif_pos hlast] at h
      obtain ⟨d, -, h⟩ := bind_eq_some_iff.mp h
      exact takes_gotdp h
    · rw [dif_neg hlast] at h
      cases h

theorem takes_dupb (h : p.dupb bp = some (b, q)) : Takes p q := by
  unfold Pool.dupb at h
  cases hmb : p.mbfreelist with
  | nil =>
    rw [hmb] at h
    cases h
  | cons m rest =>
    cases hd : p.datap bp with
    | none =>
      rw [hmb, hd] at h
      cases h
    | some d =>
      rw [hmb, hd] at h
      cases h
      exact ⟨by rw [hmb]; exact List.cons_ne_nil _ _, rfl, rfl, fun _ => le_rfl⟩

omit [DecidableEq M] [DecidableEq D] in
theorem Inv.takes (h : Inv s) (ht : Takes s.pool q) : Inv { s with pool := q } := by
  refine h.mono rfl rfl rfl (fun c k => ?_) (fun hmb => absurd hmb ht.had) ht.dbaCnt_le
  cases k with
  | hip => rfl
  | medp => exact congrFun ht.dbaMed_eq c
  | lop => exact congrFun ht.dbaLo_eq c

theorem Inv.allocb (h : Inv s) : Inv (s.allocb size pri) := by
  unfold Bufs.allocb
  cases ha : s.pool.allocb size pri with
  | none => exact h.lists rfl rfl rfl fun _ c k hnot => .inl ⟨hnot, rfl⟩
  | some r => exact h.takes (takes_allocb ha)

theorem Inv.dupb (h : Inv s) : Inv (s.dupb bp) := by
  unfold Bufs.dupb
  cases hd : s.pool.dupb bp with
  | none => exact h
  | some r => exact h.takes (takes_dupb hd)

/-- The counts after `freeb`. -/
theorem freeb_dbaCnt (p : Pool M D) (bp : M) (c : Fin 12) :
    (p.freeb bp).dbaCnt c = p.dbaCnt c ∨
      ∃ d, p.datap bp = some d ∧ p.dbRef d - 1 = 0 ∧ c = p.dbClass d ∧
        (p.freeb bp).dbaCnt c = p.dbaCnt c - 1 := by
  unfold Pool.freeb
  cases hd : p.datap bp with
  | none => exact .inl rfl
  | some d =>
    dsimp only
    split_ifs with href
    · by_cases hc : c = p.dbClass d
      · refine .inr ⟨d, rfl, href, hc, ?_⟩
        rw [hc]
        exact update_self ..
      · exact .inl (update_of_ne hc _ _)
    · exact .inl rfl

theorem freeb_cutoff (s : Bufs M D) (bp : M) (c : Fin 12) (k : BufPri) :
    (s.freeb bp).cutoff c k = s.cutoff c k := by
  have hsame : (s.pool.freeb bp).dbaMed = s.pool.dbaMed ∧
      (s.pool.freeb bp).dbaLo = s.pool.dbaLo := by
    unfold Pool.freeb
    cases hd : s.pool.datap bp with
    | none => exact ⟨rfl, rfl⟩
    | some d =>
      dsimp only
      split_ifs
      · exact ⟨rfl, rfl⟩
      · exact ⟨rfl, rfl⟩
  cases k with
  | hip => rfl
  | medp => exact congrFun hsame.1 c
  | lop => exact congrFun hsame.2 c

omit [DecidableEq M] [DecidableEq D] in
/-- A list of the class that `freeb` looked at, where it found no function that can go. -/
theorem settled_of_frees (hd : s.pool.datap bp = some d) (href : s.pool.dbRef d - 1 = 0)
    (hfrees : s.frees bp = false) (hw : s.waiting (s.pool.dbClass d) k ≠ []) :
    s.cutoff (s.pool.dbClass d) k ≤ s.pool.dbaCnt (s.pool.dbClass d) - 1 := by
  unfold frees at hfrees
  rw [hd] at hfrees
  simp only [href, true_and, canGo, decide_eq_false_iff_not, Bool.decide_eq_true] at hfrees
  simp only [ne_eq, not_or, not_and, not_not, not_lt] at hfrees
  obtain ⟨hhip, hmed, hlo⟩ := hfrees
  cases k with
  | hip => exact absurd hhip hw
  | medp => exact hmed hw
  | lop => exact hlo hw

theorem Inv.freeb (h : Inv s) (hC : Covered s (.freeb bp)) : Inv (s.freeb bp) := by
  cases hflag : s.strbcflag with
  | true =>
    left
    show (s.strbcflag || s.frees bp) = true
    rw [hflag, Bool.true_or]
  | false =>
    cases hfrees : s.frees bp with
    | true =>
      left
      show (s.strbcflag || s.frees bp) = true
      rw [hfrees, Bool.or_true]
    | false =>
      refine .inr fun c k hnot hw => .inr ?_
      have hcut : s.cutoff c k ≤ s.pool.dbaCnt c := by
        by_cases hmb : s.pool.mbfreelist = []
        · exact hC hflag hmb hfrees c k hnot hw
        · rcases h with h | h
          · rw [hflag] at h
            cases h
          · rcases h c k hnot hw with hnone | hle
            · exact absurd hnone hmb
            · exact hle
      rw [freeb_cutoff]
      rcases freeb_dbaCnt s.pool bp c with heq | ⟨d, hd, href, rfl, heq⟩
      · show s.cutoff c k ≤ (s.pool.freeb bp).dbaCnt c
        rw [heq]
        exact hcut
      · show s.cutoff (s.pool.dbClass d) k ≤ (s.pool.freeb bp).dbaCnt (s.pool.dbClass d)
        rw [heq]
        exact settled_of_frees hd href hfrees hw

end pool

theorem Inv.bufcall {size : ℤ} {pri func : ℕ} {cell : Bool} (h : Inv s)
    (hC : Covered s (.bufcall size pri func cell)) (ht : s.bufcall size pri func cell = some t) :
    Inv t := by
  unfold Bufs.bufcall at ht
  split at ht
  · cases ht
  obtain ⟨c, hc, ht⟩ := map_eq_some_iff.mp ht
  split at ht
  · exact ht ▸ h
  by_cases hhi : pri = BPRI_HI ∧ s.nblk c = 0
  · rw [if_pos hhi] at ht
    exact ht ▸ h
  rw [if_neg hhi] at ht
  by_cases hcell : ¬ cell = true
  · rw [if_pos hcell] at ht
    exact ht ▸ h
  rw [if_neg hcell] at ht
  subst ht
  refine h.lists rfl rfl rfl fun hflag c' k' hnot => ?_
  by_cases heq : c' = c ∧ k' = bufPri pri
  · obtain ⟨rfl, rfl⟩ := heq
    have hsettled := hC hflag (not_not.mp hcell) c' hc hnot
    refine .inr fun _ => ?_
    rcases hsettled with hmb | hle
    · exact .inl hmb
    · right
      cases hk : bufPri pri with
      | hip => rw [hk] at hle; exact hle
      | medp => rw [hk] at hle; exact hle
      | lop => rw [hk] at hle; exact hle
  · refine .inl ⟨hnot, ?_⟩
    show update s.waiting c _ c' k' = s.waiting c' k'
    by_cases hcc : c' = c
    · have hk : k' ≠ bufPri pri := fun hk => heq ⟨hcc, hk⟩
      rw [hcc, update_self, update_of_ne hk]
    · rw [update_of_ne hcc]

/-! ### Every run -/

variable [DecidableEq M] [DecidableEq D]

theorem step_inv {call : BufsCall M} (h : Inv s) (hC : Covered s call)
    (ht : s.step call = some t) : Inv t := by
  cases call with
  | allocb size pri =>
    cases ht
    exact h.allocb
  | dupb bp =>
    obtain ⟨-, ht⟩ := ite_none_left_eq_some.mp ht
    cases ht
    exact h.dupb
  | freeb bp =>
    obtain ⟨-, ht⟩ := ite_none_left_eq_some.mp ht
    cases ht
    exact h.freeb hC
  | bufcall size pri func cell =>
    obtain ⟨-, ht⟩ := ite_none_right_eq_some.mp ht
    refine Inv.bufcall ?_ ?_ ht
    · exact h.lists rfl rfl rfl fun _ c k hnot => .inl ⟨hnot, rfl⟩
    · exact hC
  | queuerun =>
    obtain ⟨hrun, ht⟩ := ite_none_right_eq_some.mp ht
    cases ht
    exact h.again (.inl hrun)
  | turn => exact h.turn hC ht

/-- **No request is stranded.**  Where `freeb`, `bufcall` and `queuerun` overlook none, in every
state that is reached with `strbcflag` clear and outside `queuerun`, a function still waits only
while there is no message block or its class is at the cutoff of its priority. -/
theorem no_request_stranded {calls : List (BufsCall M)} (hwait : ∀ c k, s.waiting c k = [])
    (hC : StepsMeet Covered step s calls) (ht : exec step s calls = some t)
    (hflag : t.strbcflag = false) (hidle : t.run = .idle) (hin : t.waiting c k ≠ []) :
    t.pool.mbfreelist = [] ∨ t.cutoff c k ≤ t.pool.dbaCnt c := by
  have hs : Inv s := .inr fun c k _ hne => absurd (hwait c k) hne
  have h : Inv t := exec_invariant (fun _ _ _ h hC ht => step_inv h hC ht) hs hC ht
  rcases h with h | h
  · rw [hflag] at h
    cases h
  · exact h c k (not_ahead_of_run (.inl hidle)) hin

/-! ### A pool of two -/

theorem neZero_two : NeZero 2 := ⟨two_ne_zero⟩

attribute [local instance] neZero_two

/-- Two message blocks and two data blocks, of the two smallest classes. -/
def two : Bufs (Fin 2) (Fin 2) where
  pool :=
    { mbfreelist := [0, 1]
      dbfreelist := fun c => if c = 0 then [0] else if c = 1 then [1] else []
      cont := fun _ => none
      datap := fun _ => none
      rptr := fun _ => 0
      wptr := fun _ => 0
      dbRef := fun _ => 0
      dbType := fun _ => M_DATA
      dbClass := fun d => if d = 0 then 0 else 1
      dbSize := fun d => if d = 0 then 4 else 16
      data := fun _ _ => 0
      dbaCnt := fun _ => 0
      dbaLo := fun _ => 0
      dbaMed := fun _ => 0
      nmblock := 2 }
  nblk c := if c = 0 ∨ c = 1 then 1 else 0
  waiting _ _ := []
  strbcflag := false
  run := .idle
  failed := []

/-- A message and its duplicate hold both message blocks when a larger block is asked for; then
the duplicate is freed. -/
def dupCalls : List (BufsCall (Fin 2)) :=
  [.allocb 4 BPRI_HI, .dupb 0, .allocb 16 BPRI_HI, .bufcall 16 BPRI_HI 7 true, .freeb 1]

/-- Both data blocks are taken when one is asked for again; then the other is freed. -/
def fullCalls : List (BufsCall (Fin 2)) :=
  [.allocb 4 BPRI_HI, .allocb 16 BPRI_HI, .allocb 4 BPRI_HI, .bufcall 4 BPRI_HI 7 true, .freeb 1]

theorem full_run : ((exec step two fullCalls).map fun t =>
    (t.strbcflag, t.run, t.waiting 0 .hip)) = some (false, .idle, [7]) := by
  decide

/-- A test that the steps of a run without `queuerun` are covered. -/
def covers (s : Bufs (Fin 2) (Fin 2)) : BufsCall (Fin 2) → Bool
  | .freeb _ => ∀ c : Fin 12, ∀ k ∈ [BufPri.hip, .medp, .lop],
      s.waiting c k = [] ∨ s.cutoff c k ≤ s.pool.dbaCnt c
  | .bufcall _ _ _ _ => s.pool.mbfreelist = []
  | .turn => false
  | _ => true

theorem covered_of_covers (s : Bufs (Fin 2) (Fin 2)) (call : BufsCall (Fin 2))
    (h : covers s call = true) : Covered s call := by
  cases call with
  | freeb bp =>
    intro _ _ _ c k _ hw
    have hall := of_decide_eq_true h c k (by cases k <;> simp)
    exact hall.resolve_left hw
  | bufcall size pri func cell => exact fun _ _ _ _ _ => .inl (of_decide_eq_true h)
  | turn => cases h
  | allocb size pri => trivial
  | dupb bp => trivial
  | queuerun => trivial

end Bufs

open Bufs in
/-- The request waits for a message block, one is free with the count of its class below the
cutoff, and the allocation would succeed. -/
theorem stranded_by_dup : (∀ c k, two.waiting c k = []) ∧ (exec step two dupCalls).map (fun t =>
    (t.strbcflag, t.run, t.waiting 1 .hip, t.pool.mbfreelist,
      decide (t.pool.dbaCnt 1 < t.cutoff 1 .hip), (t.pool.allocb 16 BPRI_HI).isSome)) =
    some (false, .idle, [7], [1], true, true) := by
  exact ⟨fun _ _ => rfl, rfl⟩

open Bufs in
/-- There the request waits for a data block. -/
theorem no_request_stranded_full : ∃ t, exec step two fullCalls = some t ∧
    (t.pool.mbfreelist = [] ∨ t.cutoff 0 .hip ≤ t.pool.dbaCnt 0) := by
  obtain ⟨t, ht, heq⟩ := map_eq_some_iff.mp full_run
  simp only [Prod.mk.injEq] at heq
  refine ⟨t, ht, no_request_stranded (fun _ _ => rfl)
    (stepsMeet_of_allSteps covered_of_covers (by decide)) ht heq.1 heq.2.1 ?_⟩
  rw [heq.2.2]
  exact List.cons_ne_nil _ _

end Io
