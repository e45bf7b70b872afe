import OpusSysV.Os.Callout

/-!
# Timeouts fire exactly when due

* `encode` — the table as it follows from the absolute times.
* `insertCallo_encode`, `removeCallo_encode`, `tick_encode` — what the routines do to the
  differences is what is done to the absolute times.
* `Callouts.Refines.step` — so an event on the table is the event on the timeouts.
* `timeouts_exact` puts together what follows for the table, for what `timein` calls and
  for what `untimeout` removes: the first pending timeout with its id, of which there
  is one only while fewer than `2^32` timeouts have been made (`untimeout_other`).
-/

namespace Os

open Lib List

/-- The entries for a list of timeouts, the first of them counted from `r` ticks on. -/
def encode (now : ℕ) : ℕ → List Timer → List Callo
  | _, [] => []
  | r, e :: L => ⟨((e.due - now : ℕ) : ℤ) - r, e.id, e.arg, e.func⟩ :: encode now (e.due - now) L

/-- In the order in which they are due, from `r` ticks on, and less than `2^31` ticks away. -/
structure Due (now r : ℕ) (L : List Timer) : Prop where
  sorted : L.Pairwise fun e f => e.due ≤ f.due
  from_ : ∀ e ∈ L, r ≤ e.due - now
  near : ∀ e ∈ L, e.due - now < 2 ^ 31

variable {now r n tim : ℕ} {L : List Timer} {e : Timer} {last : ℤ} {id : ℤ}

theorem Due.tail (h : Due now r (e :: L)) : Due now (e.due - now) L := by
  obtain ⟨he, hs⟩ := pairwise_cons.mp h.sorted
  refine ⟨hs, fun f hf => ?_, fun f hf => h.near f (mem_cons_of_mem _ hf)⟩
  have := he f hf
  omega

/-! ## The routines on differences -/

/-- `timeout` places the new entry. -/
theorem insertCallo_encode {x : ℤ} (hL : Due now r L) (hr : r ≤ tim) (ht : tim < 2 ^ 31)
    (hd : e.due = now + tim) :
    (insertCallo ⟨x, e.id, e.arg, e.func⟩ (tim - r) (encode now r L) last).1 =
      encode now r (place e L) := by
  have hback : e.due - now = tim := by omega
  induction L generalizing r last with
  | nil =>
    show [Callo.mk (tim - r) e.id e.arg e.func] = [_]
    rw [hback]
  | cons f L ih =>
    have hnear := hL.near f mem_cons_self
    rw [encode, insertCallo, place]
    by_cases hf : f.due ≤ e.due
    · have hlt : ((f.due - now : ℕ) : ℤ) - r ≤ tim - r := by omega
      have hstep : long ((tim : ℤ) - r - (((f.due - now : ℕ) : ℤ) - r)) = tim - (f.due - now : ℕ) := by
        rw [long_eq] <;> omega
      rw [if_pos hlt, if_pos hf, encode]
      simp only
      rw [hstep, ih hL.tail (by omega)]
    · have hlt : ¬ ((f.due - now : ℕ) : ℤ) - r ≤ tim - r := by omega
      have hstep : long (((f.due - now : ℕ) : ℤ) - r - (tim - r)) = (f.due - now : ℕ) - tim := by
        rw [long_eq] <;> omega
      rw [if_neg hlt, if_neg hf, encode, encode, hback, hstep]

/-- `untimeout` withdraws the first entry with its id. -/
theorem removeCallo_encode (hL : Due now r L) :
    (removeCallo id (encode now r L) last).1 = encode now r (L.eraseP fun e => e.id = id) := by
  induction L generalizing r last with
  | nil => rfl
  | cons e L ih =>
    rw [encode]
    unfold removeCallo
    split_ifs with he
    · rw [eraseP_cons_of_pos (by simpa using he)]
      cases L with
      | nil => rfl
      | cons f L =>
        have h1 := hL.from_ e mem_cons_self
        have h2 := hL.tail.from_ f mem_cons_self
        have h3 := hL.near f (mem_cons_of_mem _ mem_cons_self)
        have hsum : long (((f.due - now : ℕ) : ℤ) - (e.due - now : ℕ) + (((e.due - now : ℕ) : ℤ) - r)) =
            (f.due - now : ℕ) - r := by
          rw [long_eq] <;> omega
        simp only [encode]
        rw [hsum]
    · rw [eraseP_cons_of_neg (by simpa using he), encode]
      exact congrArg (List.cons _) (ih hL.tail)

/-- Differences behind an entry that is not due are the same later on. -/
theorem encode_later (hL : Due now r L) (hr : n ≤ r) : encode (now + n) (r - n) L = encode now r L := by
  induction L generalizing r with
  | nil => rfl
  | cons e L ih =>
    have hfrom := hL.from_ e mem_cons_self
    have hdue : e.due - (now + n) = e.due - now - n := by omega
    rw [encode, encode, hdue, ih hL.tail (by omega)]
    congr 2
    omega

/-- The second loop of `clock`, with `n - r` of the `n` ticks left. -/
theorem dole_encode (hL : Due now r L) (hr : r ≤ n) (hn : n < 2 ^ 31) :
    (dole (n - r) (encode now r L) last).1 = encode (now + n) 0 L := by
  induction L generalizing r last with
  | nil => rfl
  | cons e L ih =>
    have hnear := hL.near e mem_cons_self
    rw [encode, dole, encode]
    by_cases hlt : ((e.due - now : ℕ) : ℤ) - r < n - r
    · have hstep : long ((n : ℤ) - r - (((e.due - now : ℕ) : ℤ) - r)) = n - (e.due - now : ℕ) := by
        rw [long_eq] <;> omega
      have hzero : e.due - (now + n) = 0 := by omega
      rw [if_pos hlt]
      simp only
      rw [hstep, ih hL.tail (by omega), hzero]
      rfl
    · have hstep : long (((e.due - now : ℕ) : ℤ) - r - (n - r)) = (e.due - (now + n) : ℕ) - (0 : ℕ) := by
        rw [long_eq] <;> omega
      have hdue : e.due - (now + n) = e.due - now - n := by omega
      rw [if_neg hlt, hstep, hdue, encode_later hL.tail (by omega)]

/-- The first loop of `clock` passes the entries that are due. -/
theorem tick_encode (hL : Due now 0 L) (hn : n < 2 ^ 31) :
    (tick n (encode now 0 L) last).1 = encode (now + n) 0 L := by
  induction L generalizing last with
  | nil => rfl
  | cons e L ih =>
    have hdole := @dole_encode _ _ _ _ last hL (Nat.zero_le n) hn
    rw [Nat.cast_zero, sub_zero] at hdole
    rw [encode] at hdole ⊢
    rw [tick]
    by_cases hlt : ((e.due - now : ℕ) : ℤ) - (0 : ℕ) ≤ 0
    · have h0 : e.due - now = 0 := by omega
      have hzero : e.due - (now + n) = 0 := by omega
      have htail := hL.tail
      rw [h0] at htail
      rw [if_pos hlt, encode, h0, hzero]
      simp only
      rw [ih htail]
    · rw [if_neg hlt]
      exact hdole

/-! ## An event on the table is the event on the timeouts -/

/-- The table and the timeouts after the same events. -/
def calloutStep (x : Callouts × Timers) (ev : CalloutEvent) : Option (Callouts × Timers) :=
  (x.1.step ev).map fun t => (t, x.2.step ev)

/-- The table is that of the pending timeouts, which are in order, behind those called. -/
structure Callouts.Refines (s : Callouts) (A : Timers) : Prop where
  table : s.callout = encode A.now 0 A.pending
  timeid : s.timeid = long A.made
  calls : s.calls = A.called.map fun e => (e.func, e.arg)
  order : (A.called ++ A.pending).Pairwise Timer.Before
  elapsed : ∀ e ∈ A.called, e.due ≤ A.now
  near : ∀ e ∈ A.pending, e.start ≤ A.now ∧ e.delay < 2 ^ 31
  made : ∀ e ∈ A.called ++ A.pending, e.seq < A.made ∧ e.id = long (e.seq + 1)
  seqs : ((A.called ++ A.pending).map Timer.seq).Nodup

variable {s t : Callouts} {A : Timers} {f : Timer}

theorem Timer.Before.due_le (h : e.Before f) : e.due ≤ f.due := by
  unfold Timer.Before at h
  omega

theorem Callouts.Refines.due (h : s.Refines A) : Due A.now 0 A.pending := by
  refine ⟨?_, fun e _ => Nat.zero_le _, fun e he => ?_⟩
  · exact (pairwise_append.mp h.order).2.1.imp Timer.Before.due_le
  · have := h.near e he
    unfold Timer.due
    omega

theorem place_perm (e : Timer) (L : List Timer) : (place e L).Perm (e :: L) := by
  induction L with
  | nil => exact List.Perm.refl _
  | cons f L ih =>
    unfold place
    split_ifs
    · exact (ih.cons f).trans (List.Perm.swap e f L)
    · exact List.Perm.refl _

/-- Placing the latest timeout keeps the order. -/
theorem place_sorted (hL : L.Pairwise Timer.Before) (he : ∀ f ∈ L, f.seq < e.seq) :
    (place e L).Pairwise Timer.Before := by
  induction L with
  | nil => exact pairwise_singleton _ e
  | cons f L ih =>
    obtain ⟨hf, hL'⟩ := pairwise_cons.mp hL
    have hseq := he f mem_cons_self
    unfold place
    split_ifs with hle
    · refine pairwise_cons.mpr ⟨fun g hg => ?_, ih hL' fun g hg => he g (mem_cons_of_mem _ hg)⟩
      rcases mem_cons.mp ((place_perm e L).mem_iff.mp hg) with rfl | hg
      · unfold Timer.Before
        omega
      · exact hf g hg
    · refine pairwise_cons.mpr ⟨fun g hg => ?_, hL⟩
      rcases mem_cons.mp hg with rfl | hg
      · unfold Timer.Before
        omega
      · have := (hf g hg).due_le
        unfold Timer.Before
        omega

section

variable (h : s.Refines A)

include h

theorem Callouts.Refines.timeout {func arg tim : ℕ} (ht : tim < 2 ^ 31)
    (hs : s.timeout func arg tim = some t) : t.Refines (A.step (.timeout func arg tim)) := by
  unfold Callouts.timeout at hs
  split_ifs at hs
  cases hs
  obtain ⟨hc, hp, hcp⟩ := pairwise_append.mp h.order
  have hid : long (s.timeid + 1) = long (A.made + 1) := by rw [h.timeid, long_add]
  simp only [Timers.step]
  generalize he : Timer.mk (long (A.made + 1)) arg func A.now tim A.made = e
  have hperm := place_perm e A.pending
  have eid : e.id = long (A.made + 1) := by rw [← he]
  have eseq : e.seq = A.made := by rw [← he]
  have edue : e.due = A.now + tim := by rw [← he, Timer.due]
  refine ⟨?_, ?_, h.calls, ?_, h.elapsed, fun g hg => ?_, fun g hg => ?_, ?_⟩
  · have hins : (insertCallo ⟨tim, e.id, e.arg, e.func⟩ (tim - (0 : ℕ)) (encode A.now 0 A.pending)
        s.last).1 = encode A.now 0 (place e A.pending) :=
      insertCallo_encode h.due (Nat.zero_le tim) ht edue
    rw [Nat.cast_zero, sub_zero, eid, show e.arg = arg by rw [← he], show e.func = func by rw [← he],
      ← hid, ← h.table] at hins
    exact hins
  · show long (s.timeid + 1) = long ((A.made + 1 : ℕ) : ℤ)
    rw [hid, Nat.cast_succ]
  · refine pairwise_append.mpr ⟨hc, place_sorted hp fun f hf => ?_, fun c hcm g hg => ?_⟩
    · rw [eseq]
      exact (h.made f (mem_append_right _ hf)).1
    · rcases mem_cons.mp (hperm.mem_iff.mp hg) with rfl | hg
      · have h1 := h.elapsed c hcm
        have h2 := (h.made c (mem_append_left _ hcm)).1
        unfold Timer.Before
        omega
      · exact hcp c hcm g hg
  · rcases mem_cons.mp (hperm.mem_iff.mp hg) with rfl | hg
    · rw [← he]
      exact ⟨le_rfl, ht⟩
    · exact h.near g hg
  · have hold : ∀ g ∈ A.called ++ A.pending, g.seq < A.made + 1 ∧ g.id = long (g.seq + 1) :=
      fun g hg => ⟨Nat.lt_succ_of_lt (h.made g hg).1, (h.made g hg).2⟩
    rcases mem_append.mp hg with hg | hg
    · exact hold g (mem_append_left _ hg)
    · rcases mem_cons.mp (hperm.mem_iff.mp hg) with rfl | hg
      · rw [eseq, eid]
        exact ⟨Nat.lt_succ_self _, rfl⟩
      · exact hold g (mem_append_right _ hg)
  · have hall : ((A.called ++ place e A.pending).map Timer.seq).Perm
        (e.seq :: (A.called ++ A.pending).map Timer.seq) := by
      rw [← map_cons]
      exact ((hperm.append_left A.called).trans perm_middle).map _
    refine (hall.nodup_iff).mpr (nodup_cons.mpr ⟨fun hm => ?_, h.seqs⟩)
    obtain ⟨g, hg, hgs⟩ := mem_map.mp hm
    have := (h.made g hg).1
    omega

theorem Callouts.Refines.untimeout (id : ℤ) :
    (s.untimeout id).Refines (A.step (.untimeout id)) := by
  have hsub : (A.pending.eraseP fun e => e.id = id).Sublist A.pending := eraseP_sublist
  have hall := (List.Sublist.refl A.called).append hsub
  refine ⟨?_, h.timeid, h.calls, h.order.sublist hall, h.elapsed, fun e he => h.near e (hsub.subset he),
    fun e he => h.made e (hall.subset he), h.seqs.sublist (hall.map _)⟩
  show (removeCallo id s.callout s.last).1 = _
  rw [h.table]
  exact removeCallo_encode h.due

theorem Callouts.Refines.clock {ticks : ℕ} (ht : ticks < 2 ^ 31) :
    (s.clock ticks).Refines (A.step (.clock ticks)) := by
  have hstored : (s.store (tick ticks s.callout s.last)).Refines (A.step (.clock ticks)) := by
    refine ⟨?_, h.timeid, h.calls, h.order, fun e he => ?_, fun e he => ?_, h.made, h.seqs⟩
    · show (tick ticks s.callout s.last).1 = _
      rw [h.table]
      exact tick_encode h.due ht
    · exact (h.elapsed e he).trans (Nat.le_add_right _ _)
    · exact ⟨(h.near e he).1.trans (Nat.le_add_right _ _), (h.near e he).2⟩
  unfold Callouts.clock
  split_ifs with hnil
  · have hpend : A.pending = [] := by
      have htab := h.table
      rw [hnil] at htab
      cases hp : A.pending with
      | nil => rfl
      | cons e L => rw [hp, encode] at htab; cases htab
    refine ⟨?_, h.timeid, h.calls, h.order, hstored.elapsed, hstored.near, h.made, h.seqs⟩
    show s.callout = encode (A.now + ticks) 0 A.pending
    rw [hnil, hpend]
    rfl
  · exact hstored

theorem Callouts.Refines.timein : s.timein.Refines (A.step .timein) := by
  have htab := h.table
  unfold Callouts.timein Timers.step
  cases hp : A.pending with
  | nil =>
    rw [hp, encode] at htab
    rw [htab]
    exact h
  | cons e L =>
    rw [hp, encode] at htab
    rw [htab]
    have hdue : (((e.due - A.now : ℕ) : ℤ) - (0 : ℕ) ≤ 0) ↔ e.due ≤ A.now := by omega
    simp only [hdue]
    split_ifs with hle
    · have hord := h.order
      have hmade := h.made
      have hseqs := h.seqs
      rw [hp, ← singleton_append, ← append_assoc] at hord hmade hseqs
      refine ⟨?_, h.timeid, ?_, hord, fun g hg => ?_, fun g hg => ?_, hmade, hseqs⟩
      · show encode A.now (e.due - A.now) L = encode A.now 0 L
        rw [Nat.sub_eq_zero_of_le hle]
      · show s.calls ++ [(e.func, e.arg)] = (A.called ++ [e]).map _
        rw [h.calls, map_append]
        rfl
      · rcases mem_append.mp hg with hg | hg
        · exact h.elapsed g hg
        · rw [mem_singleton.mp hg]
          exact hle
      · exact h.near g (hp ▸ mem_cons_of_mem _ hg)
    · exact h

/-- **An event on the table is the event on the timeouts.** -/
theorem Callouts.Refines.step {ev : CalloutEvent} (hs : s.step ev = some t) :
    t.Refines (A.step ev) := by
  cases ev with
  | timeout func arg tim =>
    rw [Callouts.step] at hs
    split_ifs at hs with ht
    exact h.timeout ht hs
  | untimeout id =>
    cases hs
    exact h.untimeout id
  | clock ticks =>
    rw [Callouts.step] at hs
    split_ifs at hs with ht
    cases hs
    exact h.clock ht.2
  | timein =>
    cases hs
    exact h.timein

/-! ## What follows -/

omit h in
/-- The times of a table add up. -/
theorem sum_encode {k : ℕ} (h : L[k]? = some e) :
    (((encode now r L).take (k + 1)).map Callo.time).sum = ((e.due - now : ℕ) : ℤ) - r := by
  induction L generalizing r k with
  | nil => cases h
  | cons f L ih =>
    rw [encode, take_succ_cons, map_cons, sum_cons]
    cases k with
    | zero =>
      cases h
      simp
    | succ k =>
      rw [ih h]
      show ((f.due - now : ℕ) : ℤ) - r + _ = _
      omega

omit h in
theorem map_encode {β : Type} (g : Callo → β) (g' : Timer → β)
    (h : ∀ x e, g ⟨x, e.id, e.arg, e.func⟩ = g' e) : (encode now r L).map g = L.map g' := by
  induction L generalizing r with
  | nil => rfl
  | cons e L ih => rw [encode, map_cons, map_cons, ih, h]

/-- What is said of the table and the timeouts at any time. -/
structure Fires (s : Callouts) (A : Timers) : Prop where
  /-- The entries are the pending timeouts. -/
  entries : s.callout.map (fun c => (c.id, c.arg, c.func)) = A.pending.map fun e => (e.id, e.arg, e.func)
  /-- The times add up to what is left of the delay. -/
  sums : ∀ k e, A.pending[k]? = some e →
    ((s.callout.take (k + 1)).map Callo.time).sum = max 0 ((e.delay : ℤ) - (A.now - e.start))
  /-- The timeouts called come first, those pending after them, in order of expiry with
  ties in order of insertion, each once. -/
  order : (A.called ++ A.pending).Pairwise Timer.Before
  once : ((A.called ++ A.pending).map Timer.seq).Nodup
  /-- What `timein` called is the timeouts called, whose delays had elapsed. -/
  calls : s.calls = A.called.map fun e => (e.func, e.arg)
  elapsed : ∀ e ∈ A.called, e.due ≤ A.now
  /-- `timein` calls the first timeout if its delay has elapsed, and returns if there is
  none. -/
  call : ∀ e rest, A.pending = e :: rest → e.due ≤ A.now →
    s.timein.calls = s.calls ++ [(e.func, e.arg)]
  rest : (∀ e ∈ A.pending, A.now < e.due) → s.timein = s
  /-- `untimeout` removes the first pending timeout with the id, and no other. -/
  remove : ∀ id, (s.untimeout id).callout.map (fun c => (c.id, c.arg, c.func)) =
    (A.pending.eraseP fun e => e.id = id).map fun e => (e.id, e.arg, e.func)
  /-- It is the only one with the id until `2^32` timeouts have been made. -/
  own : A.made ≤ 2 ^ 32 → (A.pending.map Timer.id).Nodup

theorem Callouts.Refines.own (hmade : A.made ≤ 2 ^ 32) :
    (A.pending.map Timer.id).Nodup := by
  have hseqs := h.seqs
  rw [map_append] at hseqs
  have hp : A.pending.Pairwise fun e f => e.seq ≠ f.seq := pairwise_map.mp hseqs.of_append_right
  refine pairwise_map.mpr (hp.imp_of_mem fun {e f} he hf hne heq => hne ?_)
  have h1 := h.made e (mem_append_right _ he)
  have h2 := h.made f (mem_append_right _ hf)
  rw [h1.2, h2.2, ← Nat.cast_succ, ← Nat.cast_succ] at heq
  have := long_inj (by omega) (by omega) (Nat.succ_pos _) (Nat.succ_pos _) heq
  omega

theorem Callouts.Refines.fires : Fires s A := by
  have hin := h.timein
  refine ⟨?_, fun k e hk => ?_, h.order, h.seqs, h.calls, h.elapsed, fun e rest hp hle => ?_,
    fun hnone => ?_, fun id => ?_, h.own⟩
  · rw [h.table]
    exact map_encode _ _ fun _ _ => rfl
  · rw [h.table, sum_encode hk, Timer.due]
    omega
  · have hstep : A.step .timein = { A with pending := rest, called := A.called ++ [e] } := by
      rw [Timers.step, hp]
      exact if_pos hle
    rw [hstep] at hin
    rw [hin.calls, h.calls, map_append]
    rfl
  · unfold Callouts.timein
    have htab := h.table
    cases hp : A.pending with
    | nil => rw [hp, encode] at htab; rw [htab]
    | cons e rest =>
      have := hnone e (hp ▸ mem_cons_self)
      rw [hp, encode] at htab
      rw [htab]
      simp only
      rw [if_neg (by omega)]
  · rw [(h.untimeout id).table]
    exact map_encode _ _ fun _ _ => rfl

end

/-- **Timeouts fire exactly when due**, in every interleaving of `timeout`, `untimeout`,
`clock` and `timein` that starts with an empty table. -/
theorem timeouts_exact {es : List CalloutEvent} {size : ℕ} {last : ℤ}
    (h : exec calloutStep (⟨[], last, size, 0, []⟩, ⟨0, 0, [], []⟩) es = some (t, A)) :
    Fires t A := by
  have h0 : Callouts.Refines ⟨[], last, size, 0, []⟩ ⟨0, 0, [], []⟩ :=
    ⟨rfl, rfl, rfl, List.Pairwise.nil, nofun, nofun, nofun, nodup_nil⟩
  have hrun : t.Refines A := exec_invariant' (P := fun x => x.1.Refines x.2) (fun x ev y hx hstep => by
    obtain ⟨u, hu, rfl⟩ := Option.map_eq_some_iff.mp hstep
    exact hx.step hu) h0 h
  exact hrun.fires

/-- An empty table of four entries. -/
def fresh : Callouts × Timers := (⟨[], 0, 4, 0, []⟩, ⟨0, 0, [], []⟩)

/-- Two timeouts, a clock interrupt between them, one withdrawn, one called. -/
theorem timeouts_exact_two : ∃ t A, exec calloutStep fresh
    [.timeout 1 0 5, .clock 2, .timeout 2 0 3, .clock 4, .timein, .untimeout 2] = some (t, A) ∧
      Fires t A := by
  obtain ⟨t, A, ht⟩ : ∃ t A, exec calloutStep fresh
    [.timeout 1 0 5, .clock 2, .timeout 2 0 3, .clock 4, .timein, .untimeout 2] = some (t, A) :=
    ⟨_, _, rfl⟩
  exact ⟨t, A, ht, timeouts_exact ht⟩

/-- Timeouts of no delay that are called at once, again and again, while one is pending:
only the ids go on. -/
theorem exec_again (n : ℕ) (e : Timer) (c : Callo) (h1 : s.callout = [c]) (hc : 0 < c.time ∧ c.time < 2 ^ 31)
    (h2 : s.vCall = 4) (h3 : A.pending = [e]) (he : A.now < e.due) :
    ∃ t B, exec calloutStep (s, A) (List.replicate n [.timeout 3 0 0, .timein]).flatten = some (t, B) ∧
      t.callout = [c] ∧ t.vCall = 4 ∧ (0 < n → t.timeid = long (s.timeid + n)) ∧ B.pending = [e] ∧
      B.now = A.now ∧ B.made = A.made + n := by
  induction n generalizing s A with
  | zero => exact ⟨s, A, rfl, h1, h2, fun h => absurd h (lt_irrefl 0), h3, rfl, rfl⟩
  | succ n ih =>
    have hins : insertCallo ⟨(0 : ℕ), long (s.timeid + 1), 0, 3⟩ (0 : ℕ) s.callout s.last =
        (⟨0, long (s.timeid + 1), 0, 3⟩ :: [c], s.last) := by
      rw [h1, insertCallo, if_neg (by simpa using hc.1)]
      have : long (c.time - (0 : ℕ)) = c.time := by rw [long_eq] <;> omega
      rw [this]
      rfl
    have hfull : ¬ s.vCall ≤ s.callout.length + 1 := by
      rw [h1, h2, length_singleton]
      omega
    -- the timeout goes to the front and is called at once
    obtain ⟨u, B, hu, u1, u2, u3, b1, b2, b3⟩ : ∃ u B,
        exec calloutStep (s, A) [.timeout 3 0 0, .timein] = some (u, B) ∧ u.callout = [c] ∧ u.vCall = 4 ∧
          u.timeid = long (s.timeid + 1) ∧ B.pending = [e] ∧ B.now = A.now ∧ B.made = A.made + 1 := by
      let f : Timer := ⟨long (A.made + 1), 0, 3, A.now, 0, A.made⟩
      have hstep : s.step (.timeout 3 0 0) = some
          ⟨⟨0, long (s.timeid + 1), 0, 3⟩ :: [c], s.last, s.vCall, long (s.timeid + 1), s.calls⟩ := by
        rw [Callouts.step, if_pos (by decide), Callouts.timeout, if_neg hfull]
        simp only [Callouts.store, hins]
      have hA : A.step (.timeout 3 0 0) = ⟨A.now, A.made + 1, [f, e], A.called⟩ := by
        have hlt : ¬ e.due ≤ f.due := by
          show ¬ e.due ≤ A.now + 0
          omega
        simp only [Timers.step, h3, place]
        rw [if_neg hlt]
      have hB : Timers.step ⟨A.now, A.made + 1, [f, e], A.called⟩ .timein =
          ⟨A.now, A.made + 1, [e], A.called ++ [f]⟩ := by
        have hle : f.due ≤ A.now := le_rfl
        simp only [Timers.step, if_pos hle]
      refine ⟨⟨[c], s.last, s.vCall, long (s.timeid + 1), s.calls ++ [(3, 0)]⟩,
        ⟨A.now, A.made + 1, [e], A.called ++ [f]⟩, exec_cons.mpr ⟨_, by rw [calloutStep, hstep, hA]; rfl,
          exec_cons.mpr ⟨_, by rw [calloutStep, hB]; rfl, rfl⟩⟩, rfl, h2, rfl, rfl, rfl, rfl⟩
    obtain ⟨t, B', ht, t1, t2, t3, t4, t5, t6⟩ := ih u1 u2 b1 (b2 ▸ he)
    refine ⟨t, B', ?_, t1, t2, fun _ => ?_, t4, t5.trans b2, by rw [t6, b3]; omega⟩
    · rw [replicate_succ, flatten_cons]
      exact exec_append.mpr ⟨_, hu, ht⟩
    · by_cases hn : 0 < n
      · rw [t3 hn, u3, long_add]
        congr 1
        push_cast
        ring
      · have : n = 0 := by omega
        subst this
        cases ht
        rw [u3]
        rfl

/-- One timeout is pending while `2^32 - 1` others are made and called; the id of the
next is that of the first, and withdrawing the next removes the first. -/
theorem untimeout_other : ¬ ∀ (es : List CalloutEvent) (s : Callouts) (A : Timers) (k : ℕ) (e : Timer),
    exec calloutStep fresh es = some (s, A) → k < A.made → e ∈ A.pending → e.seq ≠ k →
      (e.func, e.arg) ∈ (s.untimeout (long (k + 1))).callout.map fun c => (c.func, c.arg) := by
  intro h
  obtain ⟨d, hd⟩ : ∃ d, d + 1 = 2 ^ 31 := ⟨2 ^ 31 - 1, rfl⟩
  obtain ⟨n, hn⟩ : ∃ n, n + 1 = 2 ^ 32 := ⟨2 ^ 32 - 1, rfl⟩
  let a : Timer := ⟨1, 0, 1, 0, d, 0⟩
  let c : Callo := ⟨d, 1, 0, 1⟩
  have hlt : d < 2 ^ 31 := by omega
  have hone : long (0 + 1) = 1 := by rw [long_eq] <;> norm_num
  -- the first timeout
  have hfirst : calloutStep fresh (.timeout 1 0 d) =
      some (⟨[c], long (0 - d), 4, 1, []⟩, ⟨0, 1, [a], []⟩) := by
    have hs : fresh.1.step (.timeout 1 0 d) = some ⟨[c], long (0 - d), 4, 1, []⟩ := by
      rw [Callouts.step, if_pos hlt, Callouts.timeout, if_neg (by decide)]
      simp only [fresh, Callouts.store, insertCallo, hone, c]
    have hA : fresh.2.step (.timeout 1 0 d) = ⟨0, 1, [a], []⟩ := by
      simp only [Timers.step, fresh, place, Nat.cast_zero, hone, Nat.zero_add, a]
    rw [calloutStep, hs, hA]
    rfl
  have hdue : a.due = d := Nat.zero_add d
  obtain ⟨u, B, hu, u1, u2, u3, b1, b2, b3⟩ := exec_again n a c
    (s := ⟨[c], long (0 - d), 4, 1, []⟩) (A := ⟨0, 1, [a], []⟩) rfl
    ⟨by show (0 : ℤ) < d; omega, by show (d : ℤ) < 2 ^ 31; omega⟩ rfl rfl (by
      show 0 < a.due
      omega)
  have hid : u.timeid = 0 := by
    have hsum : (1 : ℤ) + n = 0 + 2 ^ 32 := by omega
    rw [u3 (by omega)]
    show long (1 + n) = 0
    rw [hsum, long_period]
    rfl
  -- the next one is due with it and gets its id
  have hins : insertCallo ⟨d, 1, 0, 2⟩ d u.callout u.last =
      (c :: [⟨0, 1, 0, 2⟩], long (u.last - 0)) := by
    have hself : long ((d : ℤ) - d) = 0 := by rw [sub_self]; rfl
    rw [u1, insertCallo, if_pos le_rfl]
    simp only
    rw [hself]
    rfl
  have hnext : u.step (.timeout 2 0 d) = some ⟨c :: [⟨0, 1, 0, 2⟩], long (u.last - 0), 4, 1, u.calls⟩ := by
    have hroom : ¬ u.vCall ≤ u.callout.length + 1 := by
      rw [u1, u2, length_singleton]
      omega
    rw [Callouts.step, if_pos hlt, Callouts.timeout, if_neg hroom, hid, hone]
    simp only [Callouts.store, hins, u2]
  have hrun := exec_cons.mpr ⟨_, hfirst, exec_append.mpr ⟨_, hu,
    exec_cons.mpr ⟨_, by rw [calloutStep, hnext]; rfl, exec_nil⟩⟩⟩
  have hmem : a ∈ (B.step (.timeout 2 0 d)).pending := by
    simp only [Timers.step, b1]
    exact (place_perm _ _).mem_iff.mpr (mem_cons_of_mem _ mem_cons_self)
  have hmade : B.made = 2 ^ 32 := by
    rw [b3]
    show 1 + n = _
    omega
  have hlost := h _ _ _ B.made a hrun (by simp only [Timers.step]; omega) hmem (by
    rw [hmade]
    show 0 ≠ _
    omega)
  have hsum : (B.made : ℤ) + 1 = 0 + 1 + 2 ^ 32 := by omega
  rw [hsum, long_period, hone] at hlost
  exact absurd hlost (by simp [Callouts.untimeout, Callouts.store, removeCallo, c, a])

end Os
