import OpusSysV.Cmd.ElmRemove

/-!
# The event list of `cron`: taking the first event

Before the first event is taken the intervals are shifted until it is in the first one: the interval
at the front, which is empty, is cut off the last one.

* `Rep.shift`, `Rep.shifts` — one turn of that loop, and the loop, when no bound exceeds `INFINITY`.
* `Rep.removeFirst`, `Rep.el_first` — taking the event.
-/

namespace Cmd.Elm

open Lib Function List Option

section first

variable {s t : El} {I : List ℕ} {B P Q : List Block} {b d : Block} {j n c fi : ℕ}

/-- Counting back over the notices that are not before `t`. -/
theorem countBack_eq {left : ℕ → Option ℕ} {time : ℕ → ℤ} {τ : ℤ} {l r : List ℕ} {m : ℕ}
    {p : Option ℕ} (h : Linked left p (l ++ m :: r)) (hl : ∀ x ∈ l, τ ≤ time x) (hm : time m < τ) :
    ∀ (k : ℕ) (ctr : ℤ), l.length < k →
      El.countBack left time τ k ctr p = some (ctr + l.length, m) := by
  induction l generalizing p with
  | nil =>
    intro k ctr hk
    obtain ⟨rfl, -⟩ := h
    cases k with
    | zero => exact absurd hk (Nat.not_lt_zero _)
    | succ k =>
      rw [El.countBack, if_neg (by omega)]
      simp
  | cons a l ih =>
    intro k ctr hk
    obtain ⟨rfl, h⟩ := h
    obtain ⟨ha, hl⟩ := forall_mem_cons.mp hl
    cases k with
    | zero => exact absurd hk (Nat.not_lt_zero _)
    | succ k =>
      rw [El.countBack, if_pos ha, ih h hl k _ (by simpa using hk)]
      simp only [length_cons, Option.some.injEq, Prod.mk.injEq, and_true]
      omega

/-- No event is before the first one. -/
theorem Rep.first_le (h : Rep s B I j) (hc : s.current = some c) (hn : n ∈ notices B)
    (hreal : s.notice.isdummy n = false) : s.notice.time c ≤ s.notice.time n := by
  have hcur := h.current
  rw [hc] at hcur
  have hsorted := h.ordered.sorted.sublist (filter_sublist (p := fun n => !s.notice.isdummy n))
  obtain ⟨N, hN⟩ : ∃ N, (notices B).filter (fun n => !s.notice.isdummy n) = c :: N := by
    cases hf : real s (notices B) with
    | nil => rw [hf] at hcur; exact nomatch hcur
    | cons x N =>
      rw [hf] at hcur
      cases hcur
      exact ⟨N, hf⟩
  have hmem : n ∈ (notices B).filter fun n => !s.notice.isdummy n :=
    mem_filter.mpr ⟨hn, by simp [hreal]⟩
  rw [hN] at hsorted hmem
  rcases mem_cons.mp hmem with rfl | hmem
  · exact Int.le_refl _
  · exact ((pairwise_cons.mp hsorted).1 n hmem).1

/-- The first interval is empty when it ends before the first event. -/
theorem Rep.first_interval (h : Rep s B I j) (hc : s.current = some c) (hfi : s.index = some fi)
    (hlt : s.key.time (s.ind.key fi) < s.notice.time c) :
    ∃ b d Q I', B = b :: d :: Q ∧ b.init = [] ∧ s.notice.isdummy b.last = true ∧ d.init = [] ∧
      s.notice.isdummy d.last = true ∧ d.key = s.ind.key fi ∧ I = fi :: I' := by
  obtain ⟨b, B', rfl, hbi, hbd⟩ := h.keyed.first
  obtain ⟨I', rfl⟩ : ∃ I', I = fi :: I' := by
    have hi := h.keyed.index.head?
    rw [hfi] at hi
    cases I with
    | nil => exact nomatch hi
    | cons i I =>
      cases hi
      exact ⟨I, rfl⟩
  have hk := h.keyed.indKey
  rw [map_cons, tail_cons] at hk
  cases hf : B'.filter (dummyBlock s) with
  | nil => rw [hf] at hk; exact nomatch hk
  | cons d D =>
    rw [hf, map_cons] at hk
    obtain ⟨hdk, -⟩ := List.cons.inj hk
    obtain ⟨R, Q, hB', hR, hdd⟩ : ∃ R Q, B' = R ++ d :: Q ∧ (∀ x ∈ R, ¬ dummyBlock s x = true) ∧
        dummyBlock s d = true := by
      obtain ⟨R, Q, hB', hR, hdd, -⟩ := filter_eq_cons_iff.mp hf
      exact ⟨R, Q, hB', hR, hdd⟩
    have hdB : d ∈ b :: B' := by rw [hB']; simp
    have hdtime : s.notice.time d.last < s.notice.time c := by
      rw [← (h.keyed.block d hdB).time, ← hdk]
      exact hlt
    have hsorted := h.ordered.sorted
    -- an event before the end of the interval would be before the first one
    obtain rfl : R = [] := by
      cases R with
      | nil => rfl
      | cons r R =>
        have hr : r ∈ b :: B' := by rw [hB']; simp
        have hle := h.first_le hc (last_mem_notices hr) (by
          simpa [dummyBlock] using hR r mem_cons_self)
        have hbef : s.notice.time r.last ≤ s.notice.time d.last := by
          rw [hB'] at hsorted
          have hp := hsorted.sublist (lasts_sublist _)
          simp only [map_cons, map_append, cons_append, pairwise_cons] at hp
          exact (hp.2.1 d.last (by simp)).1
        omega
    have hdi : d.init = [] := by
      refine eq_nil_iff_forall_not_mem.mpr fun x hx => ?_
      have hle := h.first_le hc (init_mem_notices hdB hx) ((h.keyed.block d hdB).inner x hx).2
      have hbef := (init_before hsorted hdB hx).1
      omega
    exact ⟨b, d, Q, I', by rw [hB']; rfl, hbi, hbd, hdi, hdd, hdk.symm, rfl⟩

/-- The ends behind the first one. -/
theorem ends_cons (hDU : 3 ≤ s.DU) (j : ℕ) : ends s j = (s.LB + (j : ℤ) * s.DT) ::
    ((List.range ((s.DU - 1).toNat - 1)).map (fun i => s.LB + (j + 1 + i : ℕ) * s.DT) ++
      [INFINITY]) := by
  obtain ⟨D, hD⟩ : ∃ D, (s.DU - 1).toNat = D + 1 := ⟨(s.DU - 1).toNat - 1, by omega⟩
  rw [ends, hD, range_succ_eq_map, map_cons, List.map_map, cons_append]
  refine congrArg (_ :: ·) (congrArg (· ++ [INFINITY]) (map_congr_left fun i _ => ?_))
  rw [Function.comp_apply, show j + Nat.succ i = j + 1 + i by omega]

/-- What the dummy notices and the index are behind the first interval: the last two elements of the
index, and the blocks `Y` and `z` of the dummy notices. -/
theorem Rep.last_interval {I' : List ℕ} (h : Rep s (b :: d :: Q) (fi :: I') j) (hDU : 3 ≤ s.DU)
    (hd : s.notice.isdummy d.last = true) :
    ∃ I₀ i last Y z, I' = I₀ ++ [i, last] ∧ Q.filter (dummyBlock s) = Y ++ [z] ∧
      (I₀ ++ [i]).map s.ind.key = Y.map Block.key ∧ s.ind.key last = z.key ∧
      Y.map (fun y => s.notice.time y.last) =
        (List.range ((s.DU - 1).toNat - 1)).map (fun i => s.LB + (j + 1 + i : ℕ) * s.DT) ∧
      s.notice.time z.last = INFINITY ∧ s.notice.time b.last = s.LB := by
  have hd' : dummyBlock s d = true := hd
  have hk := h.keyed.indKey
  obtain ⟨he, hb⟩ := h.ends_tail
  rw [tail_cons, filter_cons, if_pos hd', map_cons] at hk he
  rw [map_cons] at hk
  rw [ends_cons hDU] at he
  obtain ⟨-, hk⟩ := List.cons.inj hk
  obtain ⟨-, he⟩ := List.cons.inj he
  obtain ⟨Y, Z, hYZ, hY, hZ⟩ := map_eq_append_iff.mp he
  obtain ⟨z, Z', rfl, hz, hZ'⟩ := map_eq_cons_iff.mp hZ
  obtain rfl := map_eq_nil_iff.mp hZ'
  rw [hYZ, map_append] at hk
  obtain ⟨I₁, J, hI', hI₁, hJ⟩ := map_eq_append_iff.mp hk
  obtain ⟨last, J', rfl, hlast, hJ'⟩ := map_eq_cons_iff.mp hJ
  obtain rfl := map_eq_nil_iff.mp hJ'
  have hlen : I₁ ≠ [] := by
    rintro rfl
    have hl := congrArg List.length hI₁
    have hl' := congrArg List.length hY
    simp only [length_map, length_nil, length_range] at hl hl'
    omega
  obtain ⟨I₀, i, rfl⟩ := (eq_nil_or_concat' I₁).resolve_left hlen
  exact ⟨I₀, i, last, Y, z, by rw [hI']; simp, hYZ, hI₁, hlast, hY, hz, hb b rfl⟩

/-- Where the new interval is to end. -/
def nextInt (s : El) (j : ℕ) : ℤ := s.LB + (j + (s.DU - 1)) * s.DT

/-- The ends of the normal intervals are before that, the last one by `DT`. -/
theorem ends_lt (hDU : 3 ≤ s.DU) (hDT : 1 ≤ s.DT) {Y : List Block} {y : Block}
    (hY : Y.map (fun y => s.notice.time y.last) =
      (List.range ((s.DU - 1).toNat - 1)).map (fun i => s.LB + (j + 1 + i : ℕ) * s.DT)) :
    (∀ x ∈ Y, s.notice.time x.last < nextInt s j) ∧
      ∀ Y₀, Y = Y₀ ++ [y] → s.notice.time y.last + s.DT = nextInt s j := by
  constructor
  · intro x hx
    have hm : s.notice.time x.last ∈ Y.map fun y => s.notice.time y.last :=
      mem_map_of_mem (f := fun y => s.notice.time y.last) hx
    rw [hY, List.mem_map] at hm
    obtain ⟨i, hi, ht⟩ := hm
    have hi := mem_range.mp hi
    have hmul : ((j + 1 + i : ℕ) : ℤ) * s.DT ≤ (j + (s.DU - 1) - 1) * s.DT :=
      Int.mul_le_mul_of_nonneg_right (by omega) (by omega)
    rw [Int.sub_mul, Int.one_mul] at hmul
    unfold nextInt
    omega
  · rintro Y₀ rfl
    have hlen := congrArg List.length hY
    simp only [length_map, length_append, length_cons, length_nil,
      length_range] at hlen
    obtain ⟨D, hD⟩ : ∃ D, (s.DU - 1).toNat - 1 = D + 1 := ⟨Y₀.length, by omega⟩
    rw [hD, range_succ, map_append, map_append] at hY
    obtain ⟨-, hy⟩ := append_inj' hY rfl
    obtain ⟨hy, -⟩ := List.cons.inj hy
    dsimp only at hy
    rw [hy]
    have hcast : ((j + 1 + D : ℕ) : ℤ) = j + (s.DU - 1) - 1 := by omega
    rw [hcast, Int.sub_mul, Int.one_mul]
    unfold nextInt
    omega

/-- How the event list is cut when the first interval `d` is to end a new one: behind the blocks
`b :: P`, in block `k`, between the parts `l₁` and `l₂` of its sublist.  `i` and `last` end the index;
`Y` and `z` are the blocks of the dummy notices behind `d`. -/
structure Cut (s : El) (j fi : ℕ) (b d : Block) (P : List Block) (k : Block) (K : List Block)
    (l₁ l₂ I₀ : List ℕ) (i last : ℕ) (Y : List Block) (z : Block) : Prop where
  b_init : b.init = []
  b_dummy : s.notice.isdummy b.last = true
  b_time : s.notice.time b.last = s.LB
  d_init : d.init = []
  d_dummy : s.notice.isdummy d.last = true
  d_key : d.key = s.ind.key fi
  k_init : k.init = l₁ ++ l₂
  lo : ∀ x ∈ notices (b :: P) ++ l₁, s.notice.time x < nextInt s j
  hi : ∀ x ∈ l₂ ++ k.last :: notices K, nextInt s j ≤ s.notice.time x
  dummies : P.filter (dummyBlock s) = Y
  infinity : (k :: K).filter (dummyBlock s) = [z]
  indKey : (I₀ ++ [i]).map s.ind.key = Y.map Block.key
  lastKey : s.ind.key last = z.key
  ends : Y.map (fun y => s.notice.time y.last) =
    (List.range ((s.DU - 1).toNat - 1)).map (fun i => s.LB + (j + 1 + i : ℕ) * s.DT)
  z_time : s.notice.time z.last = INFINITY
  next : ∃ y ∈ P, s.ind.key i = y.key ∧ s.notice.time y.last + s.DT = nextInt s j

/-- There is such a cut. -/
theorem Rep.cut (h : Rep s B I j) (hc : s.current = some c) (hfi : s.index = some fi)
    (hlt : s.key.time (s.ind.key fi) < s.notice.time c) (hDU : 3 ≤ s.DU) (hDT : 1 ≤ s.DT)
    (hov : nextInt s j ≤ INFINITY) :
    ∃ b d P k K l₁ l₂ I₀ i last Y z, B = b :: d :: (P ++ k :: K) ∧ I = fi :: (I₀ ++ [i, last]) ∧
      Cut s j fi b d P k K l₁ l₂ I₀ i last Y z := by
  obtain ⟨b, d, Q, I', rfl, hbi, hbd, hdi, hdd, hdk, rfl⟩ := h.first_interval hc hfi hlt
  obtain ⟨I₀, i, last, Y, z, rfl, hYz, hIY, hlz, hY, hz, hb⟩ := h.last_interval hDU hdd
  obtain ⟨Y₀, y, hYy⟩ : ∃ Y₀ y, Y = Y₀ ++ [y] := by
    refine (eq_nil_or_concat' Y).resolve_left ?_
    rintro rfl
    rw [map_append] at hIY
    exact absurd hIY (by simp)
  have hiy : s.ind.key i = y.key := by
    rw [hYy, map_append, map_append] at hIY
    obtain ⟨-, h2⟩ := append_inj' hIY rfl
    exact (List.cons.inj h2).1
  obtain ⟨hYlt, hyt⟩ := ends_lt (y := y) hDU hDT hY
  have hyt := hyt Y₀ hYy
  have hsorted := h.ordered.sorted
  have hlasts := hsorted.sublist (lasts_sublist _)
  rw [pairwise_map] at hlasts
  have hyf : y ∈ Q.filter (dummyBlock s) := by rw [hYz, hYy]; simp
  have hzf : z ∈ Q.filter (dummyBlock s) := by rw [hYz]; simp
  have hyQ := (mem_filter.mp hyf).1
  have hzQ := (mem_filter.mp hzf).1
  -- the blocks before and behind the new bound
  obtain ⟨P, R, hPR, hP, hR⟩ := sorted_split (fun x : Block => s.notice.time x.last)
    (nextInt s j - 1) (l := b :: Q)
    ((hlasts.imp fun hxy => hxy.1).sublist ((sublist_cons_self d Q).cons_cons b))
  have hzR : z ∈ R := by
    have hm : z ∈ P ++ R := by rw [← hPR]; exact mem_cons_of_mem _ hzQ
    rcases mem_append.mp hm with hm | hm
    · have := hP z hm
      omega
    · exact hm
  have hyP : y ∈ P := by
    have hm : y ∈ P ++ R := by rw [← hPR]; exact mem_cons_of_mem _ hyQ
    rcases mem_append.mp hm with hm | hm
    · exact hm
    · have := hR y hm
      omega
  obtain ⟨p, P, rfl⟩ := exists_cons_of_ne_nil (ne_nil_of_mem hyP)
  obtain ⟨k, K, rfl⟩ := exists_cons_of_ne_nil (ne_nil_of_mem hzR)
  obtain ⟨rfl, hQ⟩ : b = p ∧ Q = P ++ k :: K := List.cons.inj hPR
  subst hQ
  have hkm : k ∈ b :: d :: (P ++ k :: K) := by simp
  obtain ⟨l₁, l₂, hkinit, hl₁, hl₂⟩ := sorted_split s.notice.time (nextInt s j - 1) (l := k.init) (by
    have hp := (pairwise_flatMap.mp hsorted).1 k hkm
    exact (pairwise_append.mp hp).1.imp fun hxy => hxy.1)
  have hkν := hR k mem_cons_self
  have hyP : y ∈ P := by
    refine (mem_cons.mp hyP).resolve_left ?_
    rintro rfl
    have hd : y.last ∈ notices (d :: (P ++ k :: K)) := last_mem_notices (mem_cons_of_mem _ hyQ)
    have hnd := h.listed.nodup
    rw [notices_cons, hbi, nil_append] at hnd
    exact (nodup_cons.mp hnd).1 hd
  have hsplit : b :: d :: (P ++ k :: K) = (b :: d :: P) ++ k :: K := by simp
  have hsk := hsorted
  rw [hsplit, notices_append, notices_cons (b := k)] at hsk
  refine ⟨b, d, P, k, K, l₁, l₂, I₀, i, last, Y, z, rfl, rfl, hbi, hbd, hb, hdi, hdd, hdk, hkinit,
    fun x hx => ?_, fun x hx => ?_, ?_, ?_, hIY, hlz, hY, hz, ⟨y, hyP, hiy, hyt⟩⟩
  · rcases mem_append.mp hx with hx | hx
    · refine Int.lt_of_le_sub_one (le_of_lasts (s := s) ?_ hP x hx)
      refine (pairwise_append.mp hsk).1.sublist ?_
      rw [notices_cons, notices_cons, notices_cons]
      exact ((((sublist_cons_self _ _).trans (sublist_append_right _ _))).cons_cons
        _).append_left _
    · have := hl₁ x hx
      omega
  · rcases mem_append.mp hx with hx | hx
    · have := hl₂ x hx
      omega
    · rcases mem_cons.mp hx with rfl | hx
      · omega
      · have hp := (pairwise_append.mp (pairwise_append.mp hsk).2.1).2.1
        have := ((pairwise_cons.mp hp).1 x hx).1
        omega
  all_goals
    have h1 := takeWhile_append_eq
      (c := fun x : Block => decide (s.notice.time x.last < nextInt s j)) Y [z] (fun x hx => by simpa using hYlt x hx) (fun x hx => by
        rw [mem_singleton.mp hx]
        simpa [hz] using hov)
    have h2 := takeWhile_append_eq
      (c := fun x : Block => decide (s.notice.time x.last < nextInt s j))
      (P.filter (dummyBlock s)) ((k :: K).filter (dummyBlock s)) (fun x hx => by
        have := hP x (mem_cons_of_mem _ (mem_filter.mp hx).1)
        simpa using Int.lt_of_le_sub_one this) (fun x hx => by
        have := hR x (mem_filter.mp hx).1
        simpa using Int.le_of_sub_one_lt this)
    rw [← filter_append, hYz] at h2
  · exact h2.1.symm.trans h1.1
  · exact h2.2.symm.trans h1.2

/-- What one turn assigns, when the keys become `K'` and the notices `N'`. -/
structure Shifted (s t : El) (j fi i last : ℕ) (d k : Block) (l₂ K' N' : List ℕ) : Prop where
  indRight : t.ind.right = update (update s.ind.right fi (some last)) i (some fi)
  indKey : t.ind.key = s.ind.key
  index : t.index = s.ind.right fi
  keyTime : t.key.time = update s.key.time d.key (nextInt s j)
  numnote : t.key.numnote = update (update s.key.numnote d.key
    (s.key.numnote k.key - (1 + (l₂.length : ℤ)) + 1)) k.key (1 + (l₂.length : ℤ))
  notice : t.key.notice = s.key.notice
  keys : Doubly t.key.right t.key.left K'.head? K'.getLast? K'
  time : t.notice.time = update s.notice.time d.last (nextInt s j)
  id : t.notice.id = s.notice.id
  event : t.notice.event = s.notice.event
  isdummy : t.notice.isdummy = s.notice.isdummy
  key : t.notice.key = s.notice.key
  notices : Doubly t.notice.right t.notice.left N'.head? N'.getLast? N'
  current : t.current = s.current
  avail : t.avail = s.avail
  params : params t = params s

section shift

variable {P K : List Block} {k z : Block} {l₁ l₂ I₀ : List ℕ} {i last : ℕ} {Y : List Block}

section

variable (h : Cut s j fi b d P k K l₁ l₂ I₀ i last Y z)

include h

/-- The list without the first interval is cut in the same place. -/
theorem Cut.without :
    notices (b :: d :: (P ++ k :: K)) = [b.last] ++ d.last :: notices (P ++ k :: K) ∧
      [b.last] ++ notices (P ++ k :: K) =
        (notices (b :: P) ++ l₁) ++ (l₂ ++ k.last :: notices K) := by
  constructor
  · simp [h.b_init, h.d_init]
  · simp [h.b_init, h.k_init]

/-- The loop over the keys ends at the first one that is not before the new bound. -/
theorem Cut.seek_key
    (hrep : Rep s (b :: d :: (P ++ k :: K)) I j) {next prev : ℕ → Option ℕ} {p q : Option ℕ}
    (hd : Doubly next prev p q (keys (b :: P) ++ k.key :: keys K)) :
    seek next (fun x => s.key.time x < nextInt s j) s.avail (some (s.ind.key i)) = some k.key := by
  obtain ⟨y, hyP, hiy, -⟩ := h.next
  obtain ⟨P₁, P₂, rfl⟩ := append_of_mem hyP
  have hbl := hrep.keyed.block
  have hsplit : keys (b :: (P₁ ++ y :: P₂)) ++ k.key :: keys K =
      keys (b :: P₁) ++ (y.key :: (keys P₂ ++ k.key :: keys K)) := by simp
  have hl := hd.self
  rw [hsplit] at hl
  have hs := hl.suffix
  rw [List.head?_cons] at hs
  have hlen : (y.key :: (keys P₂ ++ k.key :: keys K)).length ≤ s.avail := by
    have hle := hrep.keyed.length_le
    simp only [keys_cons, keys_append, length_append, length_cons, El.cells] at hle ⊢
    omega
  have hbefore : ∀ x ∈ y.key :: keys P₂, s.key.time x < nextInt s j := by
    intro x hx
    rw [← keys_cons] at hx
    obtain ⟨w, hw, rfl⟩ := List.mem_map.mp hx
    rw [(hbl w (by simp only [mem_cons, mem_append] at hw ⊢; tauto)).time]
    refine h.lo _ (mem_append_left _ (last_mem_notices ?_))
    simp only [mem_cons, mem_append] at hw ⊢
    tauto
  have hk : ¬ s.key.time k.key < nextInt s j := by
    rw [(hbl k (by simp)).time]
    exact Int.not_lt.mpr (h.hi _ (by simp))
  rw [hiy, hs.seek_eq hlen, ← cons_append, List.find?_append,
    List.find?_eq_none.mpr fun x hx => by simp [hbefore x hx], none_or, List.find?_cons]
  simp [hk]

/-- The loop over the notices counts those from the new bound on. -/
theorem Cut.countBack
    (hrep : Rep s (b :: d :: (P ++ k :: K)) I j) {next prev : ℕ → Option ℕ} {p q : Option ℕ}
    (hd : Doubly next prev p q ((notices (b :: P) ++ l₁) ++ (l₂ ++ k.last :: notices K))) :
    ∃ m n, El.countBack prev s.notice.time (nextInt s j) s.avail 1 (prev (s.key.notice k.key)) =
      some (1 + (l₂.length : ℤ), m) ∧ next m = some n ∧
      ∃ T, l₂ ++ k.last :: notices K = n :: T := by
  obtain ⟨X', m, hXm⟩ := (eq_nil_or_concat' (notices (b :: P) ++ l₁)).resolve_left (by simp)
  obtain ⟨n, T, hnT⟩ : ∃ n T, l₂ ++ k.last :: notices K = n :: T :=
    exists_cons_of_ne_nil (by simp)
  refine ⟨m, n, ?_, ?_, T, hnT⟩
  · have hl := hd
    rw [← append_assoc] at hl
    have hrev : ((notices (b :: P) ++ l₁) ++ l₂).reverse = l₂.reverse ++ m :: X'.reverse := by
      rw [hXm]; simp
    have hback := hl.back
    have hleft := hl.prev_eq
    rw [← hleft, hrev] at hback
    have hlen : l₂.length < s.avail := by
      have hle := hrep.listed.length_le
      obtain ⟨h1, h2⟩ := h.without
      have h2 := congrArg List.length h2
      rw [h1] at hle
      simp only [length_append, length_cons, El.cells] at h2 hle
      omega
    rw [(hrep.keyed.block k (by simp)).notice,
      countBack_eq hback (fun x hx => ?_) (h.lo m (by rw [hXm]; simp)) _ _ (by simpa)]
    · simp
    · exact h.hi x (mem_append_left _ (by simpa using hx))
  · have hl := hd
    rw [hXm, hnT, append_assoc, singleton_append] at hl
    exact hl.next_eq

/-- What a turn of the loop does. -/
theorem Cut.shift
    (hrep : Rep s (b :: d :: (P ++ k :: K)) (fi :: (I₀ ++ [i, last])) j)
    (hLB : -2 ^ 31 ≤ s.LB) (hDT : 1 ≤ s.DT) (hov : nextInt s j ≤ INFINITY) :
    ∃ t, s.shift fi = some t ∧ Shifted s t j fi i last d k l₂
      (keys (b :: P) ++ d.key :: k.key :: keys K)
      ((notices (b :: P) ++ l₁) ++ d.last :: (l₂ ++ k.last :: notices K)) := by
  have hk := hrep.keyed
  have hN := hrep.listed
  obtain ⟨hNd, hNX⟩ := h.without
  -- the notices
  have hlinkN := hN.linked
  have hndN := hN.nodup
  rw [hNd] at hlinkN hndN
  obtain ⟨r₁, e₁, hun₁, hd₁, -⟩ := hlinkN.unlink hndN (by simp) (by simp)
  -- the keys
  have hKd : keys (b :: d :: (P ++ k :: K)) = [b.key] ++ d.key :: keys (P ++ k :: K) := rfl
  have hKX : [b.key] ++ keys (P ++ k :: K) = keys (b :: P) ++ k.key :: keys K := by simp
  have hlinkK := hk.linked
  have hndK := hk.nodup
  rw [hKd] at hlinkK hndK
  obtain ⟨r₂, e₂, hun₂, hd₂, -⟩ := hlinkK.unlink hndK (by simp) (by simp)
  have hndX := nodup_cons.mp (nodup_middle.mp hndN)
  have hndKX := nodup_cons.mp (nodup_middle.mp hndK)
  rw [hNX] at hd₁ hndX
  rw [hKX] at hd₂ hndKX
  -- the loops
  have hindex := hk.index
  have hseek₁ : seek s.ind.right (fun i => ((s.ind.right i).bind s.ind.right).isSome) s.avail
      (s.ind.right fi) = some i := by
    rw [Linked.seek_eq hindex.2, Linked.penult hindex.2]
    have hle := hk.ind_length_le
    simp only [length_cons] at hle
    exact Nat.le_of_succ_le hle
  have hright : s.ind.right i = some last := by
    have hl := hindex.2
    exact hl.next_eq
  have hnext : time_t (s.key.time (s.ind.key i) + s.DT) = nextInt s j := by
    obtain ⟨y, hyP, hiy, hyt⟩ := h.next
    have hyB : y ∈ b :: d :: (P ++ k :: K) := by simp [hyP]
    have hlo : s.LB ≤ s.notice.time y.last := by
      have hs := hrep.ordered.sorted
      rw [notices_cons, h.b_init, nil_append] at hs
      have := ((pairwise_cons.mp hs).1 y.last (last_mem_notices (by simp [hyP]))).1
      rw [h.b_time] at this
      exact this
    rw [hiy, (hk.block y hyB).time, hyt, time_t]
    unfold INFINITY at hov
    omega
  have hseek₂ := h.seek_key hrep hd₂
  obtain ⟨m, n, hcount, hm, T, hnT⟩ := h.countBack hrep hd₁
  rw [hnT] at hd₁ hndX
  -- the new interval
  obtain ⟨r₃, e₃, hlb₃, hd₃⟩ := hd₂.linkBefore hndKX.2 (by simp) hndKX.1
  obtain ⟨r₄, e₄, hlb₄, hd₄⟩ := hd₁.linkBefore hndX.2 (by simp) hndX.1
  rw [← hnT] at hd₄
  have hbd := hk.block d (by simp)
  have hsh := El.shift.eq_def s fi
  dsimp only at hsh
  rw [← h.d_key, hbd.notice] at hsh
  unfold El.unlinkNotice El.unlinkKey El.newInterval El.cells at hsh
  dsimp only at hsh
  rw [hun₁, map_some, bind_some] at hsh
  dsimp only at hsh
  rw [hun₂, map_some, bind_some] at hsh
  dsimp only at hsh
  rw [hseek₁, bind_some, hright, bind_some, hnext, hseek₂, bind_some, hcount,
    bind_some] at hsh
  dsimp only at hsh
  rw [hm, bind_some, hlb₃, bind_some, hlb₄, map_some] at hsh
  exact ⟨_, hsh, ⟨rfl, rfl, rfl, rfl, rfl, rfl, hd₃.self, rfl, rfl, rfl, rfl, rfl, hd₄.self, rfl, rfl,
    rfl⟩⟩

/-- The blocks after the turn. -/
def cutBlocks (b d : Block) (P : List Block) (k : Block) (K : List Block) (l₁ l₂ : List ℕ) :
    List Block :=
  b :: (P ++ ⟨d.key, l₁, d.last⟩ :: ⟨k.key, l₂, k.last⟩ :: K)

omit h in
theorem notices_cutBlocks (b d : Block) (P : List Block) (k : Block) (K : List Block)
    (l₁ l₂ : List ℕ) : notices (cutBlocks b d P k K l₁ l₂) =
      (notices (b :: P) ++ l₁) ++ d.last :: (l₂ ++ k.last :: notices K) := by
  simp [cutBlocks]

omit h in
theorem keys_cutBlocks (b d : Block) (P : List Block) (k : Block) (K : List Block)
    (l₁ l₂ : List ℕ) : keys (cutBlocks b d P k K l₁ l₂) =
      keys (b :: P) ++ d.key :: k.key :: keys K := by
  simp [cutBlocks]

/-- The notice of the first interval is not among the others. -/
theorem Cut.nodup
    (hrep : Rep s (b :: d :: (P ++ k :: K)) I j) :
    d.last ∉ (notices (b :: P) ++ l₁) ++ (l₂ ++ k.last :: notices K) ∧
      ((notices (b :: P) ++ l₁) ++ (l₂ ++ k.last :: notices K)).Nodup := by
  have hnd := hrep.listed.nodup
  rw [h.without.1] at hnd
  have := nodup_cons.mp (nodup_middle.mp hnd)
  rwa [h.without.2] at this

omit h in
/-- Nor is its key. -/
theorem Cut.keys_nodup (hrep : Rep s (b :: d :: (P ++ k :: K)) I j) :
    d.key ∉ keys (b :: P) ++ k.key :: keys K ∧ (keys (b :: P) ++ k.key :: keys K).Nodup := by
  have hnd := hrep.keyed.nodup
  rw [show keys (b :: d :: (P ++ k :: K)) = [b.key] ++ d.key :: keys (P ++ k :: K) from rfl] at hnd
  have := nodup_cons.mp (nodup_middle.mp hnd)
  rwa [show [b.key] ++ keys (P ++ k :: K) = keys (b :: P) ++ k.key :: keys K by simp] at this

omit h in
theorem Shifted.time_eq {K' N' : List ℕ} (ht : Shifted s t j fi i last d k l₂ K' N') {x : ℕ}
    (hx : x ≠ d.last) : t.notice.time x = s.notice.time x := by
  rw [ht.time, update_of_ne hx]

/-- The blocks are as they should be. -/
theorem Cut.block
    (hrep : Rep s (b :: d :: (P ++ k :: K)) I j) {K' N' : List ℕ}
    (ht : Shifted s t j fi i last d k l₂ K' N') :
    ∀ x ∈ cutBlocks b d P k K l₁ l₂, BlockOk t x := by
  have hk := hrep.keyed
  obtain ⟨hdX, hndX⟩ := h.nodup hrep
  obtain ⟨hdK, hndK⟩ := Cut.keys_nodup hrep
  have hNLIM : t.NLIM = s.NLIM := by
    have hp := ht.params
    simp only [Elm.params, Prod.mk.injEq] at hp
    exact hp.2.2.2
  have hbk := hk.block k (by simp)
  have hbd := hk.block d (by simp)
  have hkd : k.key ≠ d.key := by
    intro he
    exact hdK (by rw [← he]; simp)
  have hlen := congrArg List.length h.k_init
  rw [length_append] at hlen
  have hnum := hbk.numnote
  have hlim := hbk.limit
  have hne : ∀ x, x ∈ (notices (b :: P) ++ l₁) ++ (l₂ ++ k.last :: notices K) → x ≠ d.last := by
    rintro x hx rfl
    exact hdX hx
  have hinner : ∀ x ∈ l₁ ++ l₂, t.notice.key x = none ∧ t.notice.isdummy x = false := by
    intro x hx
    rw [ht.key, ht.isdummy]
    exact hbk.inner x (by rw [h.k_init]; exact hx)
  intro x hx
  have hcase : x ∈ b :: P ++ K ∨ x = ⟨d.key, l₁, d.last⟩ ∨ x = ⟨k.key, l₂, k.last⟩ := by
    unfold cutBlocks at hx
    simp only [mem_append, mem_cons] at hx ⊢
    tauto
  rcases hcase with hx | rfl | rfl
  · have hxm : x ∈ b :: d :: (P ++ k :: K) := by
      simp only [mem_append, mem_cons] at hx ⊢
      tauto
    have hxd : x.key ≠ d.key := by
      intro he
      refine hdK ?_
      rw [← he]
      rcases mem_append.mp hx with hx | hx
      · exact mem_append_left _ (key_mem_keys hx)
      · exact mem_append_right _ (mem_cons_of_mem _ (key_mem_keys hx))
    have hxk : x.key ≠ k.key := key_ne_other (P := b :: P) (Q := K) (by simpa using hndK) hx
    refine (hk.block x hxm).congr hNLIM ⟨by rw [ht.notice], ?_, ?_⟩ fun a ha =>
      ⟨ht.time_eq (hne a ?_), by rw [ht.isdummy], by rw [ht.key]⟩
    · rw [ht.keyTime, update_of_ne hxd]
    · rw [ht.numnote, update_of_ne hxk, update_of_ne hxd]
    · rcases mem_append.mp hx with hx | hx
      · have hm : a ∈ notices (b :: P) := mem_flatMap.mpr ⟨x, hx, ha⟩
        exact mem_append_left _ (mem_append_left _ hm)
      · have hm : a ∈ notices K := mem_flatMap.mpr ⟨x, hx, ha⟩
        exact mem_append_right _ (mem_append_right _ (mem_cons_of_mem _ hm))
  · refine ⟨by rw [ht.notice]; exact hbd.notice, ?_, ?_, ?_, by rw [ht.key]; exact hbd.back,
      fun x hx => hinner x (mem_append_left _ hx)⟩
    · rw [ht.keyTime, ht.time, update_self, update_self]
    · rw [ht.numnote, update_of_ne hkd.symm, update_self]
      dsimp only
      omega
    · rw [hNLIM]
      dsimp only
      omega
  · refine ⟨by rw [ht.notice]; exact hbk.notice, ?_, ?_, ?_, by rw [ht.key]; exact hbk.back,
      fun x hx => hinner x (mem_append_right _ hx)⟩
    · rw [ht.keyTime, update_of_ne hkd, ht.time_eq (hne _ (by simp))]
      exact hbk.time
    · rw [ht.numnote, update_self]
      dsimp only
      omega
    · rw [hNLIM]
      dsimp only
      omega

/-- The dummy notices, with the new bound before the end of time. -/
theorem Cut.filter {K' N' : List ℕ}
    (ht : Shifted s t j fi i last d k l₂ K' N') :
    ∃ Z, (cutBlocks b d P k K l₁ l₂).tail.filter (dummyBlock t) = Y ++ ⟨d.key, l₁, d.last⟩ :: Z ∧
      Z.map Block.key = [z.key] ∧ Z.map Block.last = [z.last] := by
  have hdb : ∀ x, dummyBlock t x = dummyBlock s x := fun x => by
    rw [dummyBlock, ht.isdummy, dummyBlock]
  have hinf := h.infinity
  refine ⟨(⟨k.key, l₂, k.last⟩ :: K : List Block).filter (dummyBlock s), ?_, ?_⟩
  · unfold cutBlocks
    rw [tail_cons, filter_congr fun x _ => hdb x, filter_append, h.dummies,
      filter_cons, if_pos (show dummyBlock s ⟨d.key, l₁, d.last⟩ = true from h.d_dummy)]
  · rw [filter_cons, show dummyBlock s ⟨k.key, l₂, k.last⟩ = dummyBlock s k from rfl]
    rw [filter_cons] at hinf
    split at hinf <;> rename_i hkd
    · obtain ⟨rfl, hK⟩ := List.cons.inj hinf
      simp [hkd, hK]
    · simp [hkd, hinf]

theorem Cut.keyed
    (hrep : Rep s (b :: d :: (P ++ k :: K)) (fi :: (I₀ ++ [i, last])) j) {N' : List ℕ}
    (ht : Shifted s t j fi i last d k l₂ (keys (b :: P) ++ d.key :: k.key :: keys K) N') :
    Keyed t (cutBlocks b d P k K l₁ l₂) (I₀ ++ [i, fi, last]) := by
  have hk := hrep.keyed
  have hindex := hk.index
  obtain ⟨hdK, hndK⟩ := Cut.keys_nodup hrep
  have hndI := nodup_cons.mp hk.indNodup
  have hfi : fi ∉ I₀ ++ [i] ++ [last] := by simpa using hndI.1
  have hndI' : (I₀ ++ [i] ++ [last]).Nodup := by simpa using hndI.2
  have hI : I₀ ++ [i, fi, last] = I₀ ++ [i] ++ fi :: [last] := by simp
  refine ⟨h.block hrep ht, ?_, ?_, ?_, ?_, ?_, ?_, ?_, ?_⟩
  · rw [keys_cutBlocks]
    exact ht.keys
  · rw [keys_cutBlocks]
    exact nodup_middle.mpr (nodup_cons.mpr ⟨hdK, hndK⟩)
  · rw [keys_cutBlocks, ht.avail]
    intro x hx
    refine hk.avail x ?_
    simp only [mem_append, mem_cons, keys_cons, keys_append] at hx ⊢
    tauto
  · rw [ht.indRight, ht.index, hI]
    have hl : Linked s.ind.right (s.ind.right fi) (I₀ ++ [i] ++ [last]) := by
      simpa using hindex.2
    refine hl.insert hndI' ?_ ?_ (fun x hx => ?_) fun x hx hne => ?_
    · rw [hindex.2.head?]
      cases I₀ <;> rfl
    · rw [update_of_ne, update_self]
      · rfl
      · rintro rfl
        exact hfi (by simp)
    · rw [List.getLast?_concat] at hx
      cases hx
      exact update_self ..
    · rw [List.getLast?_concat] at hne
      rw [update_of_ne fun he => hne (by rw [he]), update_of_ne]
      rintro rfl
      exact hfi hx
  · rw [hI]
    exact nodup_middle.mpr (nodup_cons.mpr ⟨hfi, hndI'⟩)
  · rw [ht.avail]
    intro x hx
    refine hk.indAvail x ?_
    simp only [mem_append, mem_cons] at hx ⊢
    tauto
  · obtain ⟨Z, hf, hZk, -⟩ := h.filter ht
    rw [hf, ht.indKey, show I₀ ++ [i, fi, last] = (I₀ ++ [i]) ++ [fi, last] by simp, map_append,
      h.indKey, map_append, map_cons (f := Block.key), hZk, ← h.lastKey, h.d_key]
    rfl
  · exact ⟨b, _, rfl, h.b_init, by rw [ht.isdummy]; exact h.b_dummy⟩

theorem Cut.ordered
    (hrep : Rep s (b :: d :: (P ++ k :: K)) I j) (hDU : 3 ≤ s.DU) {K' N' : List ℕ}
    (ht : Shifted s t j fi i last d k l₂ K' N') :
    Ordered t (notices (cutBlocks b d P k K l₁ l₂)) (j + 1) := by
  obtain ⟨hdX, -⟩ := h.nodup hrep
  have hLB : t.LB = s.LB := by
    have hp := ht.params
    simp only [Elm.params, Prod.mk.injEq] at hp
    exact hp.2.1
  have htime : ∀ x, x ∈ (notices (b :: P) ++ l₁) ++ (l₂ ++ k.last :: notices K) →
      t.notice.time x = s.notice.time x := by
    intro x hx
    refine ht.time_eq ?_
    rintro rfl
    exact hdX hx
  have hsub : ((notices (b :: P) ++ l₁) ++ (l₂ ++ k.last :: notices K)).Sublist
      (notices (b :: d :: (P ++ k :: K))) := by
    rw [h.without.1, ← h.without.2]
    exact (sublist_cons_self _ _).append_left _
  have hd : t.notice.time d.last = nextInt s j := by rw [ht.time, update_self]
  refine ⟨?_, ?_, ?_⟩
  · -- the bound is behind what is before it
    have hs := hrep.ordered.sorted.sublist hsub
    have hst : ((notices (b :: P) ++ l₁) ++ (l₂ ++ k.last :: notices K)).Pairwise (Before t) := by
      refine hs.imp_of_mem fun {x y} hx hy hxy => ?_
      unfold Before
      rw [htime x hx, htime y hy, ht.isdummy]
      exact hxy
    obtain ⟨h1, h2, h3⟩ := pairwise_append.mp hst
    rw [notices_cutBlocks]
    refine pairwise_append.mpr ⟨h1, pairwise_cons.mpr ⟨fun y hy => ?_, h2⟩,
      fun x hx y hy => ?_⟩
    · refine ⟨?_, fun _ hc => ?_⟩
      · rw [hd, htime y (mem_append_right _ hy)]
        exact h.hi y hy
      · rw [ht.isdummy, h.d_dummy] at hc
        cases hc
    · rcases mem_cons.mp hy with rfl | hy
      · have hxν : t.notice.time x < nextInt s j := by
          rw [htime x (mem_append_left _ hx)]
          exact h.lo x hx
        exact ⟨by rw [hd]; exact Int.le_of_lt hxν, fun _ _ => by rw [hd]; exact hxν⟩
      · exact h3 x hx y hy
  · obtain ⟨Z, hf, -, hZl⟩ := h.filter ht
    have hf' : (cutBlocks b d P k K l₁ l₂).filter (dummyBlock t) =
        b :: (Y ++ ⟨d.key, l₁, d.last⟩ :: Z) := by
      have hb : dummyBlock t b = true := by rw [dummyBlock, ht.isdummy]; exact h.b_dummy
      rw [← hf, show cutBlocks b d P k K l₁ l₂ = b :: (cutBlocks b d P k K l₁ l₂).tail from rfl,
        filter_cons, if_pos hb]
      rfl
    have hYt : ∀ x ∈ Y, t.notice.time x.last = s.notice.time x.last := by
      intro x hx
      rw [← h.dummies] at hx
      have hxP : x ∈ b :: P := mem_cons_of_mem _ (mem_filter.mp hx).1
      exact htime _ (mem_append_left _ (mem_append_left _ (last_mem_notices hxP)))
    have hzt : t.notice.time z.last = INFINITY := by
      have hzK : z ∈ (k :: K).filter (dummyBlock s) := by rw [h.infinity]; simp
      rw [htime z.last, h.z_time]
      rcases mem_cons.mp (mem_filter.mp hzK).1 with rfl | hzK
      · simp
      · exact mem_append_right _ (mem_append_right _ (mem_cons_of_mem _
          (last_mem_notices hzK)))
    have hbt : t.notice.time b.last = s.LB := by rw [htime b.last (by simp), h.b_time]
    obtain ⟨D, hD⟩ : ∃ D, (s.DU - 1).toNat = D + 1 := ⟨(s.DU - 1).toNat - 1, by omega⟩
    have hmapY : Y.map (t.notice.time ∘ Block.last) =
        (List.range D).map (fun i => s.LB + (j + 1 + i : ℕ) * s.DT) := by
      rw [show D = (s.DU - 1).toNat - 1 by omega, ← h.ends]
      exact map_congr_left fun x hx => hYt x hx
    have hmapZ : Z.map (t.notice.time ∘ Block.last) = [INFINITY] := by
      rw [← List.map_map, hZl, map_cons, hzt]
      rfl
    have hcast : ((j + 1 + D : ℕ) : ℤ) = j + (s.DU - 1) := by omega
    rw [filter_dummy (h.block hrep ht), hf', List.map_map, hLB, ends_congr ht.params, Elm.ends, hD,
      map_cons, map_append, map_cons, hmapY, hmapZ, range_succ, map_append,
      append_assoc]
    simp only [Function.comp_apply, hbt, hd, map_cons, map_nil, cons_append,
      nil_append]
    rw [nextInt, hcast]
  · rw [notices_cutBlocks]
    intro x hx hxd
    rw [ht.isdummy] at hxd
    have hxX : x ∈ (notices (b :: P) ++ l₁) ++ (l₂ ++ k.last :: notices K) := by
      rcases mem_append.mp hx with hx | hx
      · exact mem_append_left _ hx
      · rcases mem_cons.mp hx with rfl | hx
        · exact absurd (h.d_dummy.symm.trans hxd) (by decide)
        · exact mem_append_right _ hx
    rw [htime x hxX, hLB]
    exact hrep.ordered.real x (hsub.subset hxX) hxd

end

end shift

/-- **One turn of the loop**: the first interval, which is empty, ends a new one. -/
theorem Rep.shift (h : Rep s B I j) (hc : s.current = some c) (hfi : s.index = some fi)
    (hlt : s.key.time (s.ind.key fi) < s.notice.time c) (hDU : 3 ≤ s.DU) (hDT : 1 ≤ s.DT)
    (hLB : -2 ^ 31 ≤ s.LB) (hov : nextInt s j ≤ INFINITY) :
    ∃ t B' I', s.shift fi = some t ∧ Rep t B' I' (j + 1) ∧ queue t B' = queue s B ∧
      params t = params s ∧ t.current = s.current ∧ event t c = event s c := by
  obtain ⟨b, d, P, k, K, l₁, l₂, I₀, i, last, Y, z, rfl, rfl, hcut⟩ :=
    h.cut hc hfi hlt hDU hDT hov
  obtain ⟨t, hsh, ht⟩ := hcut.shift h hLB hDT hov
  obtain ⟨hdX, hndX⟩ := hcut.nodup h
  have hNLIM : t.NLIM = s.NLIM := by
    have hp := ht.params
    simp only [params, Prod.mk.injEq] at hp
    exact hp.2.2.2
  -- the events are those of before
  have hreal : real t (notices (cutBlocks b d P k K l₁ l₂)) =
      real s (notices (b :: d :: (P ++ k :: K))) := by
    have hd : (!s.notice.isdummy d.last) = false := by rw [hcut.d_dummy]; rfl
    have hskip : ∀ N₁ N₂, real s (N₁ ++ d.last :: N₂) = real s (N₁ ++ N₂) := fun N₁ N₂ => by
      simp [real, hd]
    have hrt : ∀ N, real t N = real s N := fun N => real_congr fun n _ => by rw [ht.isdummy]
    rw [notices_cutBlocks, hrt, hcut.without.1, hskip, hskip, hcut.without.2]
  have hevent : ∀ n, s.notice.isdummy n = false → event t n = event s n := by
    intro n hn
    have hne : n ≠ d.last := by
      rintro rfl
      exact absurd (hcut.d_dummy.symm.trans hn) (by decide)
    simp only [event, ht.time_eq hne, ht.id, ht.event]
  have hreals : ∀ n ∈ real s (notices (b :: d :: (P ++ k :: K))), s.notice.isdummy n = false :=
    fun n hn => by simpa using (mem_filter.mp hn).2
  refine ⟨t, _, _, hsh, ⟨⟨hcut.keyed h ht, ⟨?_, ?_, ?_⟩, hcut.ordered h hDU ht, Nat.le_add_left 1 j,
    hNLIM ▸ h.nlim⟩, ?_⟩, ?_, ht.params, ht.current, ?_⟩
  · rw [notices_cutBlocks]
    exact ht.notices
  · rw [notices_cutBlocks]
    exact nodup_middle.mpr (nodup_cons.mpr ⟨hdX, hndX⟩)
  · rw [notices_cutBlocks, ht.avail]
    intro x hx
    refine h.listed.avail x ?_
    rw [hcut.without.1]
    have hx : x = d.last ∨ x ∈ [b.last] ++ notices (P ++ k :: K) := by
      rw [hcut.without.2]
      simp only [mem_append, mem_cons] at hx ⊢
      tauto
    simp only [mem_append, mem_cons] at hx ⊢
    tauto
  · rw [hreal, ht.current]
    exact h.current
  · unfold queue
    rw [hreal]
    exact map_congr_left fun n hn => hevent n (hreals n hn)
  · refine hevent c (hreals c ?_)
    have hcur := h.current
    rw [hc] at hcur
    exact mem_of_head? hcur.symm

/-- Where the first interval ends. -/
theorem Rep.first_end (h : Rep s B I j) (hfi : s.index = some fi) (hDU : 3 ≤ s.DU) :
    s.key.time (s.ind.key fi) = s.LB + (j : ℤ) * s.DT := by
  have hk := h.keyed
  obtain ⟨I', rfl⟩ : ∃ I', I = fi :: I' := by
    have hi := hk.index.head?
    rw [hfi] at hi
    cases I with
    | nil => exact nomatch hi
    | cons i I =>
      cases hi
      exact ⟨I, rfl⟩
  have he := h.ends_tail.1
  have hki := hk.indKey
  rw [ends_cons hDU] at he
  obtain ⟨d, D, hd, hdt, -⟩ := map_eq_cons_iff.mp he
  rw [hd, map_cons, map_cons] at hki
  obtain ⟨hki, -⟩ := List.cons.inj hki
  have hdB : d ∈ B.tail.filter (dummyBlock s) := by rw [hd]; exact mem_cons_self
  rw [hki, (hk.block d (mem_of_mem_tail (mem_filter.mp hdB).1)).time, hdt]

theorem Rep.index_isSome (h : Rep s B I j) : ∃ fi, s.index = some fi := by
  obtain ⟨x, hx, hxd, -⟩ := h.infinity
  have hk := h.keyed.indKey
  have hm : x.key ∈ (B.tail.filter (dummyBlock s)).map Block.key :=
    mem_map_of_mem (mem_filter.mpr ⟨hx, hxd⟩)
  rw [← hk] at hm
  have hi := h.keyed.index.head?
  cases I with
  | nil => exact absurd hm not_mem_nil
  | cons i I => exact ⟨i, hi⟩

/-- **The loop** ends with the first event in the first interval. -/
theorem Rep.shifts (m : ℕ) : ∀ {s : El} {B : List Block} {I : List ℕ} {j : ℕ}, Rep s B I j →
    s.current = some c → 3 ≤ s.DU → 1 ≤ s.DT → -2 ^ 31 ≤ s.LB →
    (∀ j : ℕ, 1 ≤ j → s.LB + j * s.DT < s.notice.time c → nextInt s j ≤ INFINITY) →
    s.notice.time c - (s.LB + j * s.DT) < m → 0 < m →
    ∃ t B' I' j', El.shifts m s c = some t ∧ Rep t B' I' j' ∧ queue t B' = queue s B ∧
      params t = params s ∧ t.current = some c ∧ event t c = event s c := by
  induction m with
  | zero => exact fun _ _ _ _ _ _ _ h => absurd h (Nat.lt_irrefl 0)
  | succ m ih =>
    intro s B I j h hc hDU hDT hLB hov hm _
    obtain ⟨fi, hfi⟩ := h.index_isSome
    have hend := h.first_end hfi hDU
    rw [El.shifts, hfi, bind_some]
    dsimp only
    split
    · rename_i hlt
      rw [if_neg (by omega)]
      obtain ⟨t, B', I', ht, hrep, hq, hp, hcur, hev⟩ :=
        h.shift hc hfi hlt hDU hDT hLB (hov j h.pos (by omega))
      have hp' := hp
      simp only [params, Prod.mk.injEq] at hp'
      obtain ⟨hpDU, hpLB, hpDT, -⟩ := hp'
      have htc : t.notice.time c = s.notice.time c := congrArg Event.time hev
      have hnext : ∀ j, nextInt t j = nextInt s j := fun j => by
        unfold nextInt
        rw [hpDU, hpLB, hpDT]
      have hmul : ((j + 1 : ℕ) : ℤ) * s.DT = j * s.DT + s.DT := by
        rw [Int.natCast_succ, Int.add_mul, Int.one_mul]
      obtain ⟨u, B'', I'', j', hu, hru, hqu, hpu, hcu, heu⟩ := ih hrep (hcur.trans hc) (by omega)
        (by omega) (by omega)
        (fun j hj hlt => by
          rw [hnext]
          rw [htc, hpLB, hpDT] at hlt
          exact hov j hj hlt)
        (by rw [htc, hpLB, hpDT, hmul]; omega) (by omega)
      rw [ht, bind_some]
      exact ⟨u, B'', I'', j', hu, hru, hqu.trans hq, hpu.trans hp, hcu, heu.trans hev⟩
    · exact ⟨s, B, I, j, rfl, h, rfl, rfl, hc, rfl⟩

/-- **The first event is taken.** -/
theorem Rep.removeFirst (h : Rep s B I j) (hc : s.current = some c) :
    ∃ t B', s.removeFirst c = some t ∧ Rep t B' I j ∧ queue s B = event s c :: queue t B' ∧
      params t = params s := by
  have hcur := h.current
  rw [hc] at hcur
  have hcr : c ∈ real s (notices B) := mem_of_head? hcur.symm
  have hcd : s.notice.isdummy c = false := by simpa using (mem_filter.mp hcr).2
  obtain ⟨b, hb, hcb⟩ := mem_flatMap.mp (mem_filter.mp hcr).1
  obtain ⟨P, Q, rfl⟩ := append_of_mem hb
  obtain ⟨A, C, hAC, hcase⟩ : ∃ A C, b.notices = A ++ c :: C ∧
      ((∃ l, b.init = A ++ c :: l ∧ C = l ++ [b.last]) ∨ (c = b.last ∧ A = b.init ∧ C = [])) := by
    rcases mem_append.mp hcb with hci | hcl
    · obtain ⟨l₁, l₂, hinit⟩ := append_of_mem hci
      exact ⟨l₁, l₂ ++ [b.last], by simp [Block.notices, hinit], .inl ⟨l₂, hinit, rfl⟩⟩
    · exact ⟨b.init, [], by rw [mem_singleton.mp hcl]; rfl,
        .inr ⟨mem_singleton.mp hcl, rfl, rfl⟩⟩
  have hP := h.before hcb hcd
  have hN : notices (P ++ b :: Q) = (notices P ++ A) ++ c :: (C ++ notices Q) := by
    rw [notices_append, show notices (b :: Q) = b.notices ++ notices Q from rfl, hAC]
    simp
  have hlink := h.listed.linked
  have hnd := h.listed.nodup
  obtain ⟨h₁, h₂⟩ := h.inside hN hcd
  rw [hN] at hlink hnd
  have hnd' := nodup_cons.mp (nodup_middle.mp hnd)
  -- there is no event before it
  have hrapp : ∀ L M, real s (L ++ M) = real s L ++ real s M := fun L M => filter_append ..
  have hrc : ∀ L, real s (c :: L) = c :: real s L := fun L => by simp [real, hcd]
  have hA : real s (notices P ++ A) = [] := by
    rw [hN, hrapp, hrc] at hcur
    cases hr : real s (notices P ++ A) with
    | nil => rfl
    | cons x xs =>
      rw [hr] at hcur
      cases hcur
      have hm : c ∈ real s (notices P ++ A) := by rw [hr]; exact mem_cons_self
      exact absurd (mem_append_left _ (mem_filter.mp hm).1) hnd'.1
  obtain ⟨r, e, hun, hd, hrn, -⟩ := hlink.unlink hnd h₁ h₂
  have hnext : r c = (C ++ notices Q).head? := hrn.trans hlink.next_eq
  -- its key
  have hbo := h.keyed.block b hb
  have hlen : (c :: (C ++ notices Q)).length ≤ s.avail := by
    have hle := h.listed.length_le
    rw [hN, length_append] at hle
    simp only [length_cons, El.cells] at hle ⊢
    omega
  have hrlink : Linked r (some c) (c :: (C ++ notices Q)) := ⟨rfl, by
    rw [hnext]
    exact hd.suffix⟩
  obtain ⟨s₁, hs₁⟩ : ∃ s₁, s₁ = { s with notice.right := r, notice.left := e } := ⟨_, rfl⟩
  have hun₁ : s.unlinkNotice c = some s₁ := by rw [El.unlinkNotice, hun, hs₁]; rfl
  obtain ⟨hk₁, hnum₁, hs₁r, hs₁l, hs₁k, hse⟩ : Keyed s₁ (P ++ b :: Q) I ∧
      s₁.key.numnote = s.key.numnote ∧ s₁.notice.right = r ∧ s₁.notice.left = e ∧
      s₁.notice.key = s.notice.key ∧ SameEvents s s₁ := by
    subst hs₁
    exact ⟨h.keyed.congr rfl rfl rfl rfl (Nat.le_refl _) fun _ _ => ⟨rfl, rfl, rfl⟩, rfl, rfl, rfl,
      rfl, ⟨rfl, rfl, rfl, rfl, rfl, rfl, rfl, rfl⟩⟩
  -- the keys without it
  obtain ⟨x, t, B', hseek, hxk, ht, hkt, hNt, hko⟩ : ∃ x t B',
      seek s₁.notice.right (fun m => s₁.notice.key m = none) s₁.cells (some c) = some x ∧
      s₁.notice.key x = some b.key ∧
      (if (setNumnote s₁ b.key (s₁.key.numnote b.key - 1)).key.numnote b.key = 0 then
        (setNumnote s₁ b.key (s₁.key.numnote b.key - 1)).unlinkKey b.key
      else some (setNumnote s₁ b.key (s₁.key.numnote b.key - 1))) = some t ∧
      Keyed t B' I ∧ notices B' = (notices P ++ A) ++ (C ++ notices Q) ∧ KeysOnly s₁ t := by
    have hsk := hrlink.seek_eq (c := fun m => s.notice.key m = none) hlen
    have hnum := hbo.numnote
    rw [hs₁r, hs₁k, show s₁.cells = s.avail from hse.avail, hsk, hnum₁]
    have hval : ∀ v, (setNumnote s₁ b.key v).key.numnote b.key = v :=
      fun v => update_self ..
    rw [hval]
    rcases hcase with ⟨l, hinit, rfl⟩ | ⟨rfl, rfl, rfl⟩
    · have hinner : ∀ x ∈ c :: l, s.notice.key x = none := fun x hx =>
        (hbo.inner x (by rw [hinit]; exact mem_append_right _ hx)).1
      have hlen' := congrArg List.length hinit
      rw [length_append, length_cons] at hlen'
      have hkt := hk₁.decrement hP hinit
      rw [hnum₁] at hkt
      refine ⟨b.last, _, _, ?_, hbo.back, if_neg (by omega), hkt, by simp,
        KeysOnly.setNumnote ..⟩
      rw [append_assoc, ← cons_append, List.find?_append,
        List.find?_eq_none.mpr fun x hx => by simp [hinner x hx], none_or,
        singleton_append, List.find?_cons, hbo.back]
      rfl
    · have hinit : b.init = [] := by
        refine eq_nil_iff_forall_not_mem.mpr fun x hx => ?_
        have hxr : x ∈ real s (notices P ++ b.init) :=
          mem_filter.mpr ⟨mem_append_right _ hx, by simp [(hbo.inner x hx).2]⟩
        rw [hA] at hxr
        exact absurd hxr not_mem_nil
      obtain ⟨t, ht, hkt, hko⟩ := hk₁.unlinkKey hP (h.behind hcd) (by rw [hse.isdummy]; exact hcd)
        (s.key.numnote b.key - 1)
      refine ⟨b.last, t, P ++ Q, ?_, hbo.back, ?_, hkt, by simp [hinit], hko⟩
      · rw [List.find?_cons, hbo.back]
        rfl
      · rw [if_pos (by rw [hnum, hinit]; rfl)]
        exact ht
  have hst : SameEvents s t := hse.trans ⟨hko.time, hko.id, hko.event, hko.isdummy, hko.index,
    hko.current, hko.avail, hko.params⟩
  have hright : t.notice.right = r := hko.right.trans hs₁r
  have hleft : t.notice.left = e := hko.left.trans hs₁l
  have hord : Ordered s ((notices P ++ A) ++ (C ++ notices Q)) j := (hN ▸ h.ordered).remove hcd
  have hsub : ∀ x ∈ (notices P ++ A) ++ (C ++ notices Q), x ∈ notices (P ++ b :: Q) := by
    intro x hx
    rw [hN]
    rcases mem_append.mp hx with hx | hx
    · exact mem_append_left _ hx
    · exact mem_append_right _ (mem_cons_of_mem _ hx)
  have hreal : ∀ L, real t L = real s L := fun L => real_congr fun n _ => by rw [hst.isdummy]
  have hevent : event t = event s := by
    funext n
    simp only [event, hst.time, hst.id, hst.event]
  have hlenC : (C ++ notices Q).length ≤ t.cells := by
    rw [El.cells, hst.avail]
    exact Nat.le_of_succ_le hlen
  -- the event behind it
  have hskip : skip t.notice.right t.notice.isdummy t.cells (t.notice.right c) =
      some (real s (C ++ notices Q)).head? := by
    rw [hright, hnext, hd.suffix.skip_eq hlenC, hst.isdummy, ← List.head?_filter]
    rfl
  obtain ⟨u, hu, huc, hun, huk, hui, hux, hua, hup⟩ : ∃ u, s.removeFirst c = some u ∧
      u.current = (real s (C ++ notices Q)).head? ∧ u.notice = t.notice ∧ u.key = t.key ∧
      u.ind = t.ind ∧ u.index = t.index ∧ u.avail = t.avail ∧ params u = params t := by
    have hr := El.removeFirst.eq_def s c
    rw [hun₁, bind_some, hseek, bind_some, hxk, bind_some] at hr
    refine ⟨{ t with current := (real s (C ++ notices Q)).head? }, ?_, rfl, rfl, rfl, rfl, rfl, rfl,
      rfl⟩
    rw [hr]
    refine (congrArg (fun o => Option.bind o _) ht).trans ?_
    rw [bind_some, hskip]
    rfl
  have hNLIM : u.NLIM = s.NLIM := by
    have hp := hup.trans hst.params
    simp only [params, Prod.mk.injEq] at hp
    exact hp.2.2.2
  have hrest : real s ((notices P ++ A) ++ (C ++ notices Q)) = real s (C ++ notices Q) := by
    rw [hrapp, hA]
    rfl
  have hqueue : queue s (P ++ b :: Q) = event s c :: (real s (C ++ notices Q)).map (event s) := by
    rw [queue, hN, hrapp, hrc, hA]
    rfl
  refine ⟨u, B', hu, ⟨⟨hkt.congr hup huk hui hux (Nat.le_of_eq hua.symm) fun n _ => by simp [hun],
    ⟨?_, ?_, ?_⟩, ?_, h.pos, hNLIM ▸ h.nlim⟩, ?_⟩, ?_, hup.trans hst.params⟩
  · rw [hun, hright, hleft, hNt]
    exact hd.self
  · rw [hNt]
    exact hnd'.2
  · rw [hNt, hua, hst.avail]
    exact fun x hx => h.listed.avail x (hsub x hx)
  · rw [hNt]
    exact hord.congr (hup.trans hst.params) fun n _ => by simp [hun, hst.time, hst.isdummy]
  · have hru : ∀ L, real u L = real s L := fun L =>
      (real_congr fun n _ => by rw [hun]).trans (hreal L)
    rw [huc, hNt, hru, hrest]
  · rw [hqueue, queue_congr (t := u) (s := t) (by rw [hun]) (by rw [hun]) (by rw [hun]) (by rw [hun]),
      queue, hreal, hevent, hNt, hrest]

/-- **`el_first` returns the first event and removes it**, when no bound that it needs exceeds
`INFINITY`. -/
theorem Rep.el_first (h : Rep s B I j) (hDU : 3 ≤ s.DU) (hDT : 1 ≤ s.DT) (hLB : -2 ^ 31 ≤ s.LB)
    (hov : ∀ e ∈ (queue s B).head?, ∀ j : ℕ, 1 ≤ j → s.LB + j * s.DT < e.time →
      nextInt s j ≤ INFINITY) :
    ∃ t B' I' j', s.el_first = some ((queue s B).head?.map Event.event, t) ∧ Rep t B' I' j' ∧
      queue t B' = (queue s B).tail ∧ params t = params s := by
  obtain ⟨fi, hfi⟩ := h.index_isSome
  have hcur := h.current
  have hq : (queue s B).head? = s.current.map (event s) := by rw [queue, List.head?_map, hcur]
  cases hc : s.current with
  | none =>
    have hnil : queue s B = [] := by
      rw [hc] at hcur
      have hr : real s (notices B) = [] := List.head?_eq_none_iff.mp hcur.symm
      rw [queue, hr]
      rfl
    refine ⟨s, B, I, j, ?_, h, ?_, rfl⟩
    · rw [El.el_first, hfi, hc, hnil]
      rfl
    · rw [hnil]
      rfl
  | some c =>
    rw [hc] at hq
    have hct : s.notice.time c < INFINITY := by
      rw [hc] at hcur
      have hm := mem_filter.mp (mem_of_head? hcur.symm)
      exact (h.ordered.real c hm.1 (by simpa using hm.2)).2
    have hmul : 0 ≤ (j : ℤ) * s.DT := Int.mul_nonneg (by omega) (by omega)
    obtain ⟨t, B', I', j', ht, hrep, hqt, hpt, htc, hte⟩ := h.shifts
      ((INFINITY - s.LB).toNat + 1) hc hDU hDT hLB (hov (event s c) hq) (by omega) (by omega)
    obtain ⟨u, B'', hu, hru, hqu, hpu⟩ := hrep.removeFirst htc
    refine ⟨u, B'', I', j', ?_, hru, ?_, hpu.trans hpt⟩
    · rw [El.el_first, hfi, hc]
      dsimp only
      rw [ht, bind_some, hu, hq]
      exact congrArg (fun e => some (some (Event.event e), u)) hte
    · rw [← hqt, hqu]
      rfl

end first

end Cmd.Elm
