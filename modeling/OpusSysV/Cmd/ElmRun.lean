import OpusSysV.Cmd.ElmFirst

/-!
# The event list of `cron`: whole runs

* `Grown.interval`, `el_init_rep` — what `el_init` builds.
* `Meets` — what the sequence of calls has to do, told by the queue it leads to.
* `el_run` — every such sequence keeps the three levels, and returns what a queue returns.
-/

namespace Cmd.Elm

open Lib Function List

/-! ## What `el_init` builds -/

/-- A list of dummy notices with times `T`, each with its own key. -/
structure Grown (s : El) (B : List Block) (I : List ℕ) (T : List ℤ) : Prop where
  keyed : Keyed s B I
  listed : Listed s (notices B)
  dummy : ∀ n ∈ notices B, s.notice.isdummy n = true
  times : (notices B).map s.notice.time = T

section init

variable {s : El} {B : List Block} {I : List ℕ} {T : List ℤ} {t : ℤ} {nprev kprev : ℕ}
  {indprev : Option ℕ}

theorem filter_tail_eq (h : ∀ n ∈ notices B, s.notice.isdummy n = true) :
    B.tail.filter (dummyBlock s) = B.tail :=
  filter_eq_self.mpr fun _ hb => h _ (last_mem_notices (mem_of_mem_tail hb))

/-- The index with an element behind its last one. -/
theorem newIndex_linked {i k : ℕ} (h : Linked s.ind.right s.index I) (hnd : I.Nodup)
    (hi : ∀ x ∈ I, x ≠ i) :
    Linked (s.newIndex i k I.getLast?).ind.right (s.newIndex i k I.getLast?).index (I ++ [i]) := by
  rcases eq_nil_or_concat' I with rfl | ⟨I, p, rfl⟩
  · exact ⟨rfl, update_self ..⟩
  · have hp : p ≠ i := hi p (by simp)
    have hne : ∀ x ∈ I, x ≠ p := by
      rintro x hx rfl
      exact (nodup_append.mp hnd).2.2 x hx x (by simp) rfl
    rw [List.getLast?_concat, append_assoc]
    refine h.snoc (fun x hx => ?_) ?_ (update_self ..)
    · have hxi : x ≠ i := hi x (by simp [hx])
      show update (update s.ind.right p (some i)) i none x = _
      rw [update_of_ne hxi, update_of_ne (hne x hx)]
    · show update (update s.ind.right p (some i)) i none p = _
      rw [update_of_ne hp, update_self]

/-- One more interval. -/
theorem Grown.interval (h : Grown s B I T) (hn : (notices B).getLast? = some nprev)
    (hk : (keys B).getLast? = some kprev) (hi : I.getLast? = indprev) (hlim : 1 ≤ s.NLIM) :
    Grown (s.interval t nprev kprev indprev) (B ++ [⟨s.avail + 1, [], s.avail⟩])
      (I ++ [s.avail + 2]) (T ++ [t]) := by
  obtain ⟨u, hu⟩ : ∃ u, u = s.interval t nprev kprev indprev := ⟨_, rfl⟩
  obtain ⟨hut, hud, huk, hul, hur, hkt, hkm, hkn, hkl, hkr, hik, hir, hix, hav, hpar⟩ :
      u.notice.time = update s.notice.time s.avail t ∧
      u.notice.isdummy = update s.notice.isdummy s.avail true ∧
      u.notice.key = update s.notice.key s.avail (some (s.avail + 1)) ∧
      u.notice.left = update s.notice.left s.avail (some nprev) ∧
      u.notice.right = update (update s.notice.right nprev (some s.avail)) s.avail none ∧
      u.key.time = update s.key.time (s.avail + 1) t ∧
      u.key.numnote = update s.key.numnote (s.avail + 1) 1 ∧
      u.key.notice = update s.key.notice (s.avail + 1) s.avail ∧
      u.key.left = update s.key.left (s.avail + 1) (some kprev) ∧
      u.key.right = update (update s.key.right kprev (some (s.avail + 1))) (s.avail + 1) none ∧
      u.ind.key = update s.ind.key (s.avail + 2) (s.avail + 1) ∧
      u.ind.right = (s.newIndex (s.avail + 2) (s.avail + 1) indprev).ind.right ∧
      u.index = (s.newIndex (s.avail + 2) (s.avail + 1) indprev).index ∧
      u.avail = s.avail + 3 ∧ params u = params s := by
    subst hu
    exact ⟨rfl, rfl, rfl, rfl, rfl, rfl, rfl, rfl, rfl, rfl, rfl, rfl, rfl, rfl, rfl⟩
  rw [← hu]
  have hkd := h.keyed
  have hNLIM : u.NLIM = s.NLIM := by
    simp only [params, Prod.mk.injEq] at hpar
    exact hpar.2.2.2
  have hnn : ∀ n ∈ notices B, n ≠ s.avail := fun n hn => Nat.ne_of_lt (h.listed.avail n hn)
  have hkk : ∀ k ∈ keys B, k ≠ s.avail + 1 := fun k hk =>
    Nat.ne_of_lt (Nat.lt_succ_of_lt (hkd.avail k hk))
  have hii : ∀ i ∈ I, i ≠ s.avail + 2 := fun i hi =>
    Nat.ne_of_lt (Nat.lt_of_lt_of_le (hkd.indAvail i hi) (by omega))
  have hnot : notices (B ++ [⟨s.avail + 1, [], s.avail⟩]) = notices B ++ [s.avail] := by simp
  have hkeys : keys (B ++ [⟨s.avail + 1, [], s.avail⟩]) = keys B ++ [s.avail + 1] := by simp
  have hdummy : ∀ n ∈ notices B ++ [s.avail], u.notice.isdummy n = true := by
    intro n hm
    rw [hud]
    rcases mem_append.mp hm with hm | hm
    · rw [update_of_ne (hnn n hm)]
      exact h.dummy n hm
    · rw [mem_singleton.mp hm, update_self]
  obtain ⟨b₀, B', hB, hb₀, -⟩ := hkd.first
  constructor
  · constructor
    · intro b hb
      rcases mem_append.mp hb with hb | hb
      · have hk := hkk _ (key_mem_keys hb)
        refine (hkd.block b hb).congr hNLIM ⟨?_, ?_, ?_⟩ fun n hm => ?_
        · rw [hkn, update_of_ne hk]
        · rw [hkt, update_of_ne hk]
        · rw [hkm, update_of_ne hk]
        · have hn := hnn n (mem_flatMap.mpr ⟨b, hb, hm⟩)
          rw [hut, hud, huk, update_of_ne hn, update_of_ne hn,
            update_of_ne hn]
          exact ⟨rfl, rfl, rfl⟩
      · rw [mem_singleton.mp hb]
        refine ⟨?_, ?_, ?_, ?_, ?_, fun n hn => absurd hn not_mem_nil⟩
        · rw [hkn, update_self]
        · rw [hkt, hut, update_self, update_self]
        · rw [hkm, update_self]
          rfl
        · rw [hNLIM]
          exact hlim
        · rw [huk, update_self]
    · have hl := hkd.linked
      rw [hk] at hl
      rw [hkl, hkr, hkeys]
      exact (hl.snoc hkd.nodup fun hm => hkk _ hm rfl).self
    · rw [hkeys]
      exact nodup_append.mpr ⟨hkd.nodup, nodup_singleton _, fun a ha b hb => by
        rw [mem_singleton.mp hb]
        exact hkk a ha⟩
    · rw [hkeys, hav]
      intro k hk
      rcases mem_append.mp hk with hk | hk
      · exact Nat.lt_of_lt_of_le (hkd.avail k hk) (by omega)
      · rw [mem_singleton.mp hk]
        omega
    · rw [hir, hix, ← hi]
      exact newIndex_linked hkd.index hkd.indNodup hii
    · exact nodup_append.mpr ⟨hkd.indNodup, nodup_singleton _, fun a ha b hb => by
        rw [mem_singleton.mp hb]
        exact hii a ha⟩
    · rw [hav]
      intro i hi
      rcases mem_append.mp hi with hi | hi
      · exact Nat.lt_of_lt_of_le (hkd.indAvail i hi) (by omega)
      · rw [mem_singleton.mp hi]
        omega
    · have hold := hkd.indKey
      rw [filter_tail_eq h.dummy, hB, tail_cons] at hold
      rw [filter_tail_eq (hnot ▸ hdummy), hB, cons_append, tail_cons, map_append,
        map_append, ← hold, hik]
      congr 1
      · exact map_congr_left fun i hi => update_of_ne (hii i hi) _ _
      · exact congrArg (fun x => [x]) (update_self ..)
    · refine ⟨b₀, B' ++ [⟨s.avail + 1, [], s.avail⟩], by rw [hB]; rfl, hb₀, ?_⟩
      exact hdummy _ (mem_append_left _ (last_mem_notices (hB ▸ mem_cons_self)))
  · rw [hnot]
    have hl := h.listed.linked
    rw [hn] at hl
    refine ⟨?_, ?_, ?_⟩
    · rw [hul, hur]
      exact (hl.snoc h.listed.nodup fun hm => hnn _ hm rfl).self
    · exact nodup_append.mpr ⟨h.listed.nodup, nodup_singleton _, fun a ha b hb => by
        rw [mem_singleton.mp hb]
        exact hnn a ha⟩
    · rw [hav]
      intro n hn
      rcases mem_append.mp hn with hn | hn
      · exact Nat.lt_of_lt_of_le (h.listed.avail n hn) (by omega)
      · rw [mem_singleton.mp hn]
        omega
  · rw [hnot]
    exact hdummy
  · rw [hnot, map_append, ← h.times, hut]
    congr 1
    · exact map_congr_left fun n hn => update_of_ne (hnn n hn) _ _
    · exact congrArg (fun x => [x]) (update_self ..)

theorem time_t_eq (h : -2 ^ 31 ≤ t) (h' : t ≤ INFINITY) : time_t t = t := by
  unfold time_t
  unfold INFINITY at h'
  omega

/-- The loop: intervals of width `DT` behind time `t`, and the last one. -/
theorem Grown.intervals (i : ℕ) : ∀ {s : El} {B : List Block} {I : List ℕ} {T : List ℤ} {t : ℤ}
    {nprev kprev : ℕ} {indprev : Option ℕ}, Grown s B I T →
    (notices B).getLast? = some nprev → (keys B).getLast? = some kprev → I.getLast? = indprev →
    1 ≤ s.NLIM → -2 ^ 31 ≤ t → 1 ≤ s.DT → t + i * s.DT ≤ INFINITY →
    ∃ B' I', Grown (El.intervals i s t nprev kprev indprev) B' I'
        (T ++ ((List.range i).map (fun x => t + (x + 1 : ℕ) * s.DT) ++ [INFINITY])) ∧
      params (El.intervals i s t nprev kprev indprev) = params s := by
  induction i with
  | zero =>
    intro s B I T t nprev kprev indprev h hn hk hi hlim ht hDT hmax
    exact ⟨_, _, h.interval hn hk hi hlim, rfl⟩
  | succ i ih =>
    intro s B I T t nprev kprev indprev h hn hk hi hlim ht hDT hmax
    have hmul : ((i + 1 : ℕ) : ℤ) * s.DT = i * s.DT + s.DT := by
      rw [Int.natCast_succ, Int.add_mul, Int.one_mul]
    have hpos : 0 ≤ (i : ℤ) * s.DT := Int.mul_nonneg (by omega) (by omega)
    have htime : time_t (t + s.DT) = t + s.DT := time_t_eq (by omega) (by omega)
    rw [El.intervals, htime]
    have hnot : (notices (B ++ [⟨s.avail + 1, [], s.avail⟩])).getLast? = some s.avail := by simp
    have hkeys : (keys (B ++ [⟨s.avail + 1, [], s.avail⟩])).getLast? = some (s.avail + 1) := by simp
    obtain ⟨B', I', hG, hpar⟩ := ih (h.interval (t := t + s.DT) hn hk hi hlim) hnot hkeys
      List.getLast?_concat hlim (by omega) hDT (show t + s.DT + i * s.DT ≤ INFINITY by omega)
    refine ⟨B', I', ?_, hpar⟩
    have hT : (List.range i).map (fun x => t + s.DT + (x + 1 : ℕ) * s.DT) =
        (List.range i).map ((fun x => t + (x + 1 : ℕ) * s.DT) ∘ Nat.succ) := by
      refine map_congr_left fun x _ => ?_
      show _ = t + ((x + 1 + 1 : ℕ) : ℤ) * s.DT
      rw [Int.natCast_succ (x + 1), Int.add_mul _ 1, Int.one_mul]
      omega
    rw [range_succ_eq_map, map_cons, map_map, ← hT]
    have h1 : t + ((0 + 1 : ℕ) : ℤ) * s.DT = t + s.DT := by simp
    rw [h1]
    rw [append_assoc] at hG
    exact hG

end init

section start

variable {lb dt nlim : ℤ}

/-- The list with the first dummy notice. -/
theorem Grown.first (lb dt : ℤ) (hnlim : 1 ≤ nlim) :
    Grown { { El.zero with DU := 9, LB := lb, DT := dt, NLIM := nlim }.dummy lb 0 1 none with
      avail := 2 } [⟨1, [], 0⟩] [] [lb] := by
  have hlink : ∀ k : ℕ, Doubly (update (fun _ => none) k none) (update (fun _ => none) k none)
      (some k) (some k) [k] := fun k => ⟨⟨rfl, update_self ..⟩, rfl, update_self ..⟩
  refine ⟨⟨fun b hb => ?_, hlink 1, nodup_singleton _, fun k hk => ?_, rfl, nodup_nil,
    fun i hi => (nomatch hi), rfl, ⟨_, [], rfl, rfl, rfl⟩⟩, ⟨hlink 0, nodup_singleton _,
    fun n hn => ?_⟩, fun n hn => ?_, rfl⟩
  · rw [mem_singleton.mp hb]
    exact ⟨rfl, rfl, rfl, hnlim, rfl, fun n hn => nomatch hn⟩
  · rw [mem_singleton.mp hk]
    exact Nat.lt_succ_self 1
  · rw [mem_singleton.mp hn]
    exact Nat.zero_lt_two
  · rw [mem_singleton.mp hn]
    rfl

theorem el_init_grown (hlb : -2 ^ 31 ≤ lb) (hdt : 1 ≤ dt) (hnlim : 1 ≤ nlim)
    (hmax : lb + 8 * dt ≤ INFINITY) :
    ∃ u B I, El.zero.el_init 8 lb dt nlim = { u with current := none } ∧
      Grown u B I (lb :: ((List.range 8).map (fun x : ℕ => lb + (x + 1 : ℕ) * dt) ++ [INFINITY])) ∧
      params u = (9, lb, dt, nlim) := by
  obtain ⟨B, I, hG, hpar⟩ := (Grown.first lb dt hnlim).intervals 8 rfl rfl rfl hnlim hlb hdt hmax
  refine ⟨_, B, I, ?_, hG, hpar⟩
  rw [El.el_init, if_neg (by omega)]
  rfl

/-- The ends of the intervals are in order. -/
theorem times_sorted (hdt : 1 ≤ dt) (hmax : lb + 8 * dt ≤ INFINITY) :
    (lb :: ((List.range 8).map (fun x : ℕ => lb + (x + 1 : ℕ) * dt) ++ [INFINITY])).Pairwise
      (· ≤ ·) := by
  simp [range_succ]
  omega

/-- `el_init(8, lb, dt, nlim)` builds an event list with no events. -/
theorem el_init_rep (hlb : -2 ^ 31 ≤ lb) (hdt : 1 ≤ dt) (hnlim : 2 ≤ nlim)
    (hmax : lb + 8 * dt ≤ INFINITY) : ∃ B I, Rep (El.zero.el_init 8 lb dt nlim) B I 1 ∧
      queue (El.zero.el_init 8 lb dt nlim) B = [] ∧
      params (El.zero.el_init 8 lb dt nlim) = (9, lb, dt, nlim) := by
  obtain ⟨u, B, I, hinit, hG, hpar⟩ := el_init_grown hlb hdt (show 1 ≤ nlim by omega) hmax
  rw [hinit]
  obtain ⟨t, ht⟩ : ∃ t : El, t = { u with current := none } := ⟨_, rfl⟩
  have hsame : t.notice = u.notice ∧ t.key = u.key ∧ t.ind = u.ind ∧ t.index = u.index ∧
      t.avail = u.avail ∧ params t = params u ∧ t.current = none := by
    subst ht
    exact ⟨rfl, rfl, rfl, rfl, rfl, rfl, rfl⟩
  obtain ⟨hn, hk, hi, hx, ha, hp, hc⟩ := hsame
  rw [← ht]
  rw [hpar] at hp
  have hp4 : t.DU = 9 ∧ t.LB = lb ∧ t.DT = dt ∧ t.NLIM = nlim := by
    simpa only [params, Prod.mk.injEq] using hp
  have hdummy : ∀ n ∈ notices B, t.notice.isdummy n = true := by
    rw [hn]
    exact hG.dummy
  have hreal : real t (notices B) = [] :=
    filter_eq_nil_iff.mpr fun n hm => by simp [hdummy n hm]
  have hends : (notices B).map t.notice.time = t.LB :: ends t 1 := by
    rw [hn, hG.times, ends, hp4.1, hp4.2.1, hp4.2.2.1]
    simp only [Nat.add_comm 1]
    rfl
  refine ⟨B, I, ⟨⟨hG.keyed.congr (hp.trans hpar.symm) hk hi hx (Nat.le_of_eq ha.symm) fun n _ => by
    rw [hn]; exact ⟨rfl, rfl, rfl⟩, ?_, ⟨?_, ?_, fun n hm hd => ?_⟩, Nat.le_refl 1,
    hp4.2.2.2 ▸ hnlim⟩, ?_⟩, ?_, hp⟩
  · refine ⟨?_, hG.listed.nodup, ?_⟩
    · rw [hn]
      exact hG.listed.linked
    · rw [ha]
      exact hG.listed.avail
  · have hsorted := times_sorted hdt hmax
    rw [← hG.times, pairwise_map, ← hn] at hsorted
    refine hsorted.imp_of_mem fun {x y} hx hy hxy => ⟨hxy, fun _ hx' => ?_⟩
    rw [hdummy x hx] at hx'
    cases hx'
  · rw [filter_eq_self.mpr hdummy, hends]
  · rw [hdummy n hm] at hd
    cases hd
  · rw [hc, hreal]
    rfl
  · rw [queue, hreal]
    rfl

end start

/-! ## Runs -/

/-- What a call has to do, in a queue: a time is in range, `el_remove` does not take the last events
away, and `el_first` needs no interval that ends after `INFINITY`. -/
def Meets (lb dt : ℤ) (q : Queue) : Call → Prop
  | .el_add _ time _ => lb ≤ time ∧ time < INFINITY
  | .el_remove id flag => q.events = [] ∨ Queue.remove id flag q.events ≠ []
  | .el_first => ∀ e ∈ q.events.head?, ∀ j : ℕ, 1 ≤ j → lb + j * dt < e.time →
      lb + (j + 8) * dt ≤ INFINITY

/-- The event list represents a queue. -/
def Represents (lb dt nlim : ℤ) (s : Sys) (q : Queue) : Prop :=
  s.out = q.out ∧ params s.el = (9, lb, dt, nlim) ∧
    ∃ B I j, Rep s.el B I j ∧ queue s.el B = q.events

section run

variable {lb dt nlim : ℤ} {s : Sys} {q : Queue} {es : List Call}

/-- One call. -/
theorem Represents.step (hlb : -2 ^ 31 ≤ lb) (hdt : 1 ≤ dt) (h : Represents lb dt nlim s q)
    (e : Call) (hC : Meets lb dt q e) :
    ∃ t r, s.step e = some t ∧ q.step e = some r ∧ Represents lb dt nlim t r := by
  obtain ⟨hout, hpar, B, I, j, hR, hq⟩ := h
  have hp4 : s.el.DU = 9 ∧ s.el.LB = lb ∧ s.el.DT = dt ∧ s.el.NLIM = nlim := by
    simpa only [params, Prod.mk.injEq] using hpar
  obtain ⟨hDU, hLB, hDT, -⟩ := hp4
  cases e with
  | el_add ev time id =>
    obtain ⟨t, B', ht, hR', hq', hp'⟩ : ∃ t B', s.el.el_add ev time id = some t ∧ Rep t B' I j ∧
        queue t B' = Queue.add ⟨time, id, ev⟩ (queue s.el B) ∧ params t = params s.el :=
      hR.el_add ev (hLB ▸ hC.1) hC.2
    refine ⟨{ s with el := t }, _, ?_, rfl, hout, hp'.trans hpar, B', I, j, hR', ?_⟩
    · rw [Sys.step, ht]
      rfl
    · rw [hq', hq]
  | el_remove id flag =>
    have hleft : queue s.el B = [] ∨ Queue.remove id flag (queue s.el B) ≠ [] := hq ▸ hC
    obtain ⟨t, B', ht, hR', hq', hp'⟩ := hR.el_remove hleft
    refine ⟨{ s with el := t }, _, ?_, rfl, hout, hp'.trans hpar, B', I, j, hR', ?_⟩
    · rw [Sys.step, ht]
      rfl
    · rw [hq', hq]
  | el_first =>
    obtain ⟨t, B', I', j', ht, hR', hq', hp'⟩ := hR.el_first (by omega) (by omega) (by omega) (by
      intro e he i hi hlt
      rw [hLB, hDT] at hlt
      have hmax := hC e (hq ▸ he) i hi hlt
      rw [nextInt, hLB, hDT, hDU]
      exact hmax)
    refine ⟨⟨t, s.out ++ [(queue s.el B).head?.map Event.event]⟩, _, ?_, rfl, ?_, hp'.trans hpar, B',
      I', j', hR', ?_⟩
    · rw [Sys.step, ht]
      rfl
    · rw [hout, hq]
    · rw [hq', hq]

/-- **Calls on the event list.**  After `el_init` the list is what a queue is, no call follows a null
pointer or loops, and all three levels are kept, as long as no `el_remove` takes the last events away
and no interval ends after `INFINITY`. -/
theorem el_run (hlb : -2 ^ 31 ≤ lb) (hdt : 1 ≤ dt) (hnlim : 2 ≤ nlim) (hmax : lb + 8 * dt ≤ INFINITY)
    (hC : StepsMeet (Meets lb dt) Queue.step ⟨[], []⟩ es) :
    ∃ t q, exec Sys.step (Sys.start lb dt nlim) es = some t ∧ exec Queue.step ⟨[], []⟩ es = some q ∧
      t.out = q.out ∧ ∃ B I j, Rep t.el B I j ∧ queue t.el B = q.events := by
  obtain ⟨B, I, hR, hq, hp⟩ := el_init_rep hlb hdt hnlim hmax
  have hstart : Represents lb dt nlim (Sys.start lb dt nlim) ⟨[], []⟩ := ⟨rfl, hp, B, I, 1, hR, hq⟩
  obtain ⟨t, q, ht, hq, hout, -, hRep⟩ := exec_simulation_total (R := Represents lb dt nlim)
    (fun s q e h hC => h.step hlb hdt e hC) hstart hC
  exact ⟨t, q, ht, hq, hout, hRep⟩

end run

/-- A test for `Meets` with lower bound 0 and intervals of 10. -/
def meets (q : Queue) : Call → Bool
  | .el_add _ time _ => 0 ≤ time ∧ time < 1000
  | .el_remove id flag => q.events = [] ∨ Queue.remove id flag q.events ≠ []
  | .el_first => q.events.head?.all fun e => e.time ≤ 1000

theorem meets_sound (q : Queue) (e : Call) (h : meets q e = true) : Meets 0 10 q e := by
  cases e with
  | el_add ev time id =>
    have h := of_decide_eq_true h
    exact ⟨h.1, Int.lt_trans h.2 (by decide)⟩
  | el_remove id flag =>
    have h : q.events = [] ∨ Queue.remove id flag q.events ≠ [] := of_decide_eq_true h
    exact h
  | el_first =>
    intro e he j hj hlt
    have hle : e.time ≤ 1000 := of_decide_eq_true ((Option.all_eq_true _ _).mp h e he)
    unfold INFINITY
    omega

/-- Six events, one of them before the others and one far away; an identifier is removed, and the
first two events are taken. -/
def calls : List Call :=
  [.el_add 1 15 7, .el_add 2 15 8, .el_add 3 4 7, .el_add 4 16 8, .el_add 5 500 9, .el_add 6 12 8,
    .el_remove 8 true, .el_remove 7 false, .el_first, .el_first, .el_first, .el_first]

theorem el_run_calls : ∃ t q, exec Sys.step (Sys.start 0 10 2) calls = some t ∧
    exec Queue.step ⟨[], []⟩ calls = some q ∧ t.out = q.out ∧
      ∃ B I j, Rep t.el B I j ∧ queue t.el B = q.events :=
  el_run (by decide) (by decide) (by decide) (by decide)
    (stepsMeet_of_allSteps meets_sound (by decide +kernel))

/-- **The last event.**  One event is added, and removed: `el_remove` follows a null pointer. -/
theorem el_remove_last : exec Queue.step ⟨[], []⟩ [.el_add 1 15 7, .el_remove 7 false] =
      some ⟨[], []⟩ ∧
    (exec Sys.step (Sys.start 0 10 4) [.el_add 1 15 7]).isSome = true ∧
    (exec Sys.step (Sys.start 0 10 4) [.el_add 1 15 7, .el_remove 7 false]).isNone = true := by
  refine ⟨rfl, by decide +kernel, by decide +kernel⟩

end Cmd.Elm
