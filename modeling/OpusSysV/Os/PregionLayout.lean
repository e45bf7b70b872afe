import OpusSysV.Os.RegionMoves

/-!
# Attached regions do not overlap

* `Attached` — a region that is attached at the beginning of a segment and ends below `USRSTACK`.
* `growreg_up_fits`, `growreg_down_fits` — growth stays clear of the neighbour, if the call meets
  `Fits`.
* `Layout` — the invariant: each table is sorted, ends with a null entry and its ranges are
  disjoint, and the use counts are right.
* `regions_disjoint` — what holds after any calls that meet `CallMeets`.
-/

namespace Os

open Lib Function List Option

variable {s t : Vm} {e : GrowEnv} {change : ℤ}

/-! ## Ranges -/

/-- Where the last segment of a region ends. -/
def segEnd (prp : Preg) (rp : Reg) : ℤ := prp.p_regva + stob (ctos (rp.r_pgoff + rp.r_pgsz))

structure Attached (prp : Preg) (rp : Reg) : Prop where
  aligned : prp.p_regva % stob 1 = 0
  nonneg : 0 ≤ prp.p_regva
  bound : segEnd prp rp ≤ USRSTACK
  stack : prp.p_type = .stack → (rp.r_pgoff + rp.r_pgsz) % 1024 = 0
  used : prp.p_type ≠ .unused

variable {prp o : Preg} {rp orp : Reg}

theorem le_segEnd (hz : rp.Sized) : prp.p_regva ≤ segEnd prp rp := by
  obtain ⟨h1, -, h2, -⟩ := hz
  unfold segEnd stob ctos
  omega

/-- A check that finds nothing wrong has passed its first test. -/
theorem not_of_check_ne {c : Prop} [Decidable c] {b : Bool} (h : (if c then true else b) ≠ true) :
    ¬ c ∧ b ≠ true := by
  split at h
  · exact absurd rfl h
  · next hc => exact ⟨hc, h⟩

/-- `chkgrowth` of a region that grows upwards. -/
theorem chkgrowth_up {oprp : Option (Preg × Reg)} (h0 : 0 < change) (hp : Attached prp rp)
    (hz : rp.Sized) (hfit : rp.r_pgsz + change ≤ 32767)
    (h : chkgrowth prp rp oprp change true ≠ true) :
    prp.p_regva + stob (ctos (rp.r_pgoff + (rp.r_pgsz + change))) ≤ USRSTACK ∧
      ∀ o orp, oprp = some (o, orp) → Attached o orp → orp.Sized → prp.p_regva ≤ o.p_regva →
        prp.p_regva + stob (ctos (rp.r_pgoff + (rp.r_pgsz + change))) ≤ o.p_regva := by
  obtain ⟨ha, hn, hb, -, -⟩ := hp
  obtain ⟨hz1, hz2, hz3, hz4⟩ := hz
  unfold segEnd stob ctos USRSTACK at hb
  unfold stob at ha
  obtain ⟨last, hlast⟩ : ∃ last, last = prp.p_regva + ctob (rp.r_pgoff + rp.r_pgsz + change) :=
    ⟨_, rfl⟩
  have hlast' : caddr (caddr (prp.p_regva + ctob (rp.r_pgoff + rp.r_pgsz)) + ctob change) =
      last := by
    rw [hlast]
    unfold caddr ctob
    omega
  unfold chkgrowth at h
  rw [if_neg (by omega)] at h
  dsimp only at h
  rw [if_neg (by simp), if_pos rfl, if_pos rfl, hlast'] at h
  obtain ⟨hin, h⟩ := not_of_check_ne h
  unfold USRSTACK ctob at *
  constructor
  · unfold stob ctos
    omega
  · rintro o orp ho ⟨hoa, hon, hob, -, -⟩ ⟨ho1, ho2, ho3, ho4⟩ hle
    subst ho
    dsimp only at h
    unfold segEnd stob ctos USRSTACK at hob
    unfold stob at hoa
    obtain ⟨heq, h⟩ := not_of_check_ne h
    obtain ⟨hov, -⟩ := not_of_check_ne h
    unfold caddr at hov
    unfold stob ctos
    omega

/-- `chkgrowth` of a stack that grows past its offset. -/
theorem chkgrowth_down {oprp : Option (Preg × Reg)} (h0 : rp.r_pgoff < change)
    (hp : Attached prp rp) (hz : rp.Sized) (hfit : rp.r_pgsz + change ≤ 32767)
    (h : chkgrowth prp rp oprp change false ≠ true) (ho : oprp = some (o, orp))
    (hoa : Attached o orp) (hoz : orp.Sized) :
    segEnd o orp + stob 1 ≤ prp.p_regva - stob (ctos (rp.r_pgsz + change) - ctos change) := by
  obtain ⟨ha, hn, hb, -, -⟩ := hp
  obtain ⟨hz1, hz2, hz3, hz4⟩ := hz
  obtain ⟨hoa, hon, hob, -, -⟩ := hoa
  obtain ⟨ho1, ho2, ho3, ho4⟩ := hoz
  subst ho
  unfold chkgrowth at h
  rw [if_neg (by omega)] at h
  dsimp only at h
  rw [if_neg (by simp; omega), if_neg Bool.false_ne_true, if_neg Bool.false_ne_true] at h
  obtain ⟨start, hstart⟩ : ∃ start,
      start = caddr (prp.p_regva - stob (ctos (rp.r_pgsz + change) - ctos change)) := ⟨_, rfl⟩
  rw [← hstart] at h
  have hend : caddr (roundup (caddr (o.p_regva + ctob (orp.r_pgoff + orp.r_pgsz))) + stob 1) =
      segEnd o orp + stob 1 := by
    unfold segEnd stob ctos USRSTACK at hob
    unfold stob at hoa
    unfold segEnd roundup caddr ctob stob ctos
    omega
  obtain ⟨hin, h⟩ := not_of_check_ne h
  split_ifs at h with h1 h2 h3
  · exact absurd rfl h
  · exact absurd rfl h
  · exact absurd rfl h
  · have h3' : ¬ start < segEnd o orp + stob 1 := fun hlt => h3 ⟨rfl, hend ▸ hlt⟩
    clear h hend h1 h2 h3
    unfold segEnd stob ctos USRSTACK at *
    unfold caddr at hstart
    omega

/-- The size stays a `short`.  A stack that grows has its new segments in the address space, and the
offset fits a `short` even if the page tables cannot be allocated; without a check it does not move,
and with one the increment has at most one segment more than the stack. -/
def Vm.Fits (s : Vm) (e : GrowEnv) (change : ℤ) : Prop :=
  0 < change → s.Refused e change (decide (s.prp.p_type ≠ .stack)) ∨
    (s.prp.p_type ≠ .stack ∧ s.reg.r_pgsz + change ≤ 32767) ∨
    (s.prp.p_type = .stack ∧ (s.NoList e change ∨
      s.reg.r_pgsz + change ≤ 32767 ∧ stob (s.down change) ≤ s.prp.p_regva ∧
      (s.reg.r_pgoff + stoc (s.down change) ≤ 32767 ∨ s.down change ≤ e.tabs.length) ∧
      (change ≤ s.reg.r_pgoff → s.down change = 0) ∧
      (s.reg.r_pgoff < change → e.oprp = none ∨ ctos change ≤ ctos s.reg.r_pgsz + 1)))

/-- The same range and size. -/
theorem Attached.congr (hp : Attached prp rp) (hva : o.p_regva = prp.p_regva)
    (htype : o.p_type = prp.p_type) (hoff : orp.r_pgoff = rp.r_pgoff)
    (hsz : orp.r_pgsz = rp.r_pgsz) : Attached o orp := by
  obtain ⟨h1, h2, h3, h4, h5⟩ := hp
  refine ⟨?_, ?_, ?_, ?_, ?_⟩
  · rwa [hva]
  · rwa [hva]
  · unfold segEnd at h3 ⊢
    rwa [hva, hoff, hsz]
  · rwa [htype, hoff, hsz]
  · rwa [htype]

/-- A call for a region that grows upwards. -/
theorem growreg_up_fits (hp : Attached s.prp s.reg) (hz : s.reg.Sized)
    (hm : s.MovesTo e change t) (htype : s.prp.p_type ≠ .stack) (hC : s.Fits e change) :
    t.prp = s.prp ∧ Attached t.prp t.reg ∧ t.reg.Sized ∧
      (segEnd t.prp t.reg ≤ segEnd s.prp s.reg ∨
        ∀ o orp, e.oprp = some (o, orp) → Attached o orp → orp.Sized →
          s.prp.p_regva ≤ o.p_regva → segEnd t.prp t.reg ≤ o.p_regva) := by
  obtain ⟨-, hfits, hmv, hprp, -⟩ := hm
  obtain ⟨hz1, hz2, hz3, hz4⟩ := hz
  generalize hva : t.prp.p_regva = va at hmv hprp
  generalize hoff : t.reg.r_pgoff = off at hmv
  generalize hsz : t.reg.r_pgsz = sz at hmv
  cases hmv with
  | stay =>
    refine ⟨hprp, hp.congr hva (by rw [hprp]) hoff hsz, ?_, Or.inl ?_⟩
    · unfold Reg.Sized
      rw [hoff, hsz]
      exact ⟨hz1, hz2, hz3, hz4⟩
    · unfold segEnd
      rw [hva, hoff, hsz]
  | up _ h =>
    have hpt : t.prp = s.prp := hprp
    -- the end of the last segment, and the size
    have hend : s.reg.r_pgsz + change ≤ 32767 ∧ 0 ≤ s.reg.r_pgsz + change ∧
        s.prp.p_regva + stob (ctos (s.reg.r_pgoff + (s.reg.r_pgsz + change))) ≤ USRSTACK ∧
        (change < 0 ∨ ∀ o orp, e.oprp = some (o, orp) → Attached o orp → orp.Sized →
          s.prp.p_regva ≤ o.p_regva →
          s.prp.p_regva + stob (ctos (s.reg.r_pgoff + (s.reg.r_pgsz + change))) ≤ o.p_regva) := by
      rcases h with h0 | ⟨h0, href⟩
      · have hb := hp.bound
        unfold segEnd stob ctos at hb
        refine ⟨by omega, by omega, ?_, Or.inl h0⟩
        unfold stob ctos
        omega
      · rcases hC h0 with hC | ⟨-, hC⟩ | ⟨hst, -⟩
        · rw [decide_eq_true htype] at hC
          exact absurd hC href
        · obtain ⟨h1, h2⟩ := chkgrowth_up h0 hp ⟨hz1, hz2, hz3, hz4⟩ hC
            fun hchk => href (Or.inr hchk)
          exact ⟨hC, by omega, h1, Or.inr h2⟩
        · exact absurd hst htype
    obtain ⟨h1, h2, h3, h4⟩ := hend
    rw [short_of (by omega)] at hsz
    have hse : segEnd t.prp t.reg =
        s.prp.p_regva + stob (ctos (s.reg.r_pgoff + (s.reg.r_pgsz + change))) := by
      unfold segEnd
      rw [hva, hoff, hsz]
    refine ⟨hpt, ⟨?_, ?_, ?_, ?_, ?_⟩, ?_, ?_⟩
    · rw [hpt]
      exact hp.aligned
    · rw [hpt]
      exact hp.nonneg
    · rw [hse]
      exact h3
    · rw [hpt]
      exact fun hst => absurd hst htype
    · rw [hpt]
      exact hp.used
    · unfold Reg.Sized
      rw [hoff, hsz]
      exact ⟨h2, h1, hz3, hz4⟩
    · rw [hse]
      rcases h4 with h4 | h4
      · left
        unfold segEnd stob ctos
        omega
      · exact Or.inr h4
  | shrink hst => exact absurd hst htype
  | grow hst => exact absurd hst htype
  | fail hst => exact absurd hst htype

/-- Where a stack is after it has moved by `d` segments and grown by `change` pages, or has not been
given its page tables. -/
theorem attached_down {d : ℤ} (hp : Attached s.prp s.reg) (htype : s.prp.p_type = .stack)
    (hprp : t.prp = { s.prp with p_regva := t.prp.p_regva })
    (hva : t.prp.p_regva = s.prp.p_regva - stob d) (hroom : 0 ≤ s.prp.p_regva - stob d)
    (hend : t.reg.r_pgoff + t.reg.r_pgsz = s.reg.r_pgoff + s.reg.r_pgsz + stoc d) :
    t.prp.p_type = .stack ∧ Attached t.prp t.reg ∧
      segEnd t.prp t.reg = segEnd s.prp s.reg := by
  have ht : t.prp.p_type = .stack := by
    rw [hprp]
    exact htype
  have hse : segEnd t.prp t.reg = segEnd s.prp s.reg := by
    unfold segEnd
    rw [hva, hend]
    unfold stob ctos stoc
    omega
  have hmod := hp.stack htype
  have ha := hp.aligned
  refine ⟨ht, ⟨?_, ?_, ?_, fun _ => ?_, ?_⟩, hse⟩
  · rw [hva]
    unfold stob at ha ⊢
    omega
  · rw [hva]
    exact hroom
  · rw [hse]
    exact hp.bound
  · rw [hend]
    unfold stoc
    omega
  · rw [ht]
    decide

/-- A call for a stack. -/
theorem growreg_down_fits (hp : Attached s.prp s.reg) (hz : s.reg.Sized)
    (hm : s.MovesTo e change t) (htype : s.prp.p_type = .stack) (hC : s.Fits e change) :
    t.prp.p_type = .stack ∧ Attached t.prp t.reg ∧ t.reg.Sized ∧
      segEnd t.prp t.reg = segEnd s.prp s.reg ∧
      (s.prp.p_regva ≤ t.prp.p_regva ∨
        ∀ o orp, e.oprp = some (o, orp) → Attached o orp → orp.Sized →
          segEnd o orp ≤ t.prp.p_regva) := by
  have hz' := hz
  obtain ⟨-, hfits, hmv, hprp, -⟩ := hm
  obtain ⟨hz1, hz2, hz3, hz4⟩ := hz
  have hprp' := hprp
  have hmod := hp.stack htype
  have hn := hp.nonneg
  have hb := hp.bound
  unfold segEnd stob ctos USRSTACK at hb
  -- a stack that grows: what the condition and the check leave
  have hgrow : 0 < change → ¬ s.Refused e change false → ¬ s.NoList e change →
      s.reg.r_pgsz + change ≤ 32767 ∧ stob (s.down change) ≤ s.prp.p_regva ∧
      (s.reg.r_pgoff + stoc (s.down change) ≤ 32767 ∨ s.down change ≤ e.tabs.length) ∧
      (s.prp.p_regva ≤ s.prp.p_regva - stob (s.down change) ∨
        ∀ o orp, e.oprp = some (o, orp) → Attached o orp → orp.Sized →
          segEnd o orp ≤ s.prp.p_regva - stob (s.down change)) := by
    intro h0 href hl
    rcases hC h0 with hC | ⟨hst, -⟩ | ⟨-, hC | ⟨h1, h2, h3, h4, h5⟩⟩
    · rw [decide_eq_false (not_not.mpr htype)] at hC
      exact absurd hC href
    · exact absurd htype hst
    · exact absurd hC hl
    · refine ⟨h1, h2, h3, ?_⟩
      by_cases hoff : change ≤ s.reg.r_pgoff
      · left
        rw [h4 hoff]
        unfold stob
        omega
      · right
        intro o orp ho hoa hoz
        rcases h5 (by omega) with h5 | h5
        · rw [h5] at ho
          cases ho
        · have := chkgrowth_down (by omega) hp hz' h1 (fun hchk => href (Or.inr hchk)) ho hoa hoz
          unfold Vm.down
          unfold stob at this ⊢
          omega
  generalize hva : t.prp.p_regva = va at hmv hprp
  generalize hoff : t.reg.r_pgoff = off at hmv
  generalize hsz : t.reg.r_pgsz = sz at hmv
  unfold Reg.Sized
  cases hmv with
  | stay =>
    obtain ⟨h1, h2, h3⟩ := attached_down (d := 0) hp htype hprp' (by rw [hva]; unfold stob; omega)
      (by unfold stob; omega) (by rw [hoff, hsz]; unfold stoc; omega)
    exact ⟨h1, h2, by omega, h3, Or.inl le_rfl⟩
  | up hst => exact absurd htype hst
  | shrink _ h0 =>
    have hd : s.down change ≤ 0 ∧ -32 ≤ s.down change := by
      unfold Vm.down ctos
      omega
    have hva' : caddr (s.prp.p_regva - stob (s.down change)) =
        s.prp.p_regva - stob (s.down change) := by
      unfold caddr Vm.down stob ctos
      omega
    rw [short_of (by omega)] at hsz
    have ho1 : 0 ≤ s.reg.r_pgoff + stoc (s.down change) - change ∧
        s.reg.r_pgoff + stoc (s.down change) - change ≤ 32767 := by
      unfold Vm.down stoc ctos
      omega
    rw [short_short_sub (by omega)] at hoff
    obtain ⟨h1, h2, h3⟩ := attached_down (d := s.down change) hp htype hprp' (hva.trans hva')
      (by unfold stob; omega) (by rw [hoff, hsz]; omega)
    refine ⟨h1, h2, by omega, h3, Or.inl ?_⟩
    rw [hva']
    unfold stob
    omega
  | grow _ h0 href hl =>
    obtain ⟨h1, h2, -, h4⟩ := hgrow h0 href hl
    have hva' : caddr (s.prp.p_regva - stob (s.down change)) =
        s.prp.p_regva - stob (s.down change) := by
      unfold caddr Vm.down stob ctos at *
      omega
    rw [short_of (by omega)] at hsz
    have ho1 : 0 ≤ s.reg.r_pgoff + stoc (s.down change) - change ∧
        s.reg.r_pgoff + stoc (s.down change) - change ≤ 32767 := by
      unfold Vm.down stoc ctos
      omega
    rw [short_short_sub (by omega)] at hoff
    obtain ⟨h5, h6, h7⟩ := attached_down (d := s.down change) hp htype hprp' (hva.trans hva')
      (by omega) (by rw [hoff, hsz]; omega)
    refine ⟨h5, h6, by omega, h7, ?_⟩
    rw [hva']
    exact h4
  | fail _ h0 href hl ht =>
    obtain ⟨h1, h2, h3, h4⟩ := hgrow h0 href hl
    have hva' : caddr (s.prp.p_regva - stob (s.down change)) =
        s.prp.p_regva - stob (s.down change) := by
      unfold caddr Vm.down stob ctos at *
      omega
    have ho1 : 0 ≤ s.reg.r_pgoff + stoc (s.down change) ∧
        s.reg.r_pgoff + stoc (s.down change) ≤ 32767 := by
      constructor
      · unfold Vm.down stoc ctos
        omega
      · omega
    rw [short_of (by omega)] at hoff
    obtain ⟨h5, h6, h7⟩ := attached_down (d := s.down change) hp htype hprp' (hva.trans hva')
      (by omega) (by rw [hoff, hsz]; omega)
    refine ⟨h5, h6, by omega, h7, ?_⟩
    rw [hva']
    exact h4

/-! ## A table -/

variable {region region' : ℕ → Reg} {tbl us us1 us2 : List Pregion} {u : Pregion} {r : ℕ}

/-- The region of a used entry. -/
def Pregion.reg (u : Pregion) (region : ℕ → Reg) : Reg := region (u.p_reg.getD 0)

/-- The used entries `us` of a table are in order, no two overlap, and null entries follow. -/
structure Table (region : ℕ → Reg) (tbl us : List Pregion) : Prop where
  split : ∃ n, tbl = us ++ List.replicate (n + 1) nullpregion
  used : ∀ u ∈ us, u.p_reg.isSome
  attached : ∀ u ∈ us, Attached u.toPreg (u.reg region)
  sorted : us.Pairwise fun a b => segEnd a.toPreg (a.reg region) ≤ b.p_regva

/-- Only the sizes and offsets of the regions matter. -/
theorem Table.congr (h : Table region tbl us)
    (heq : ∀ u ∈ us, (u.reg region').r_pgsz = (u.reg region).r_pgsz ∧
      (u.reg region').r_pgoff = (u.reg region).r_pgoff) : Table region' tbl us := by
  refine ⟨h.split, h.used, fun u hu => ?_, h.sorted.imp_of_mem fun {a b} ha _ hab => ?_⟩
  · exact (h.attached u hu).congr rfl rfl (heq u hu).2 (heq u hu).1
  · unfold segEnd at hab ⊢
    rwa [(heq a ha).1, (heq a ha).2]

/-- An entry with a region is one of the used ones. -/
theorem Table.getElem? (h : Table region tbl us) {i : ℕ} (hu : tbl[i]? = some u)
    (hr : u.p_reg = some r) : ∃ us1 us2, us = us1 ++ u :: us2 ∧ us1.length = i := by
  obtain ⟨n, rfl⟩ := h.split
  have hi : i < us.length := by
    by_contra hge
    rw [List.getElem?_append_right (by omega)] at hu
    have := eq_of_mem_replicate (mem_of_getElem? hu)
    rw [this] at hr
    exact nomatch hr
  rw [List.getElem?_append_left hi, List.getElem?_eq_getElem hi] at hu
  refine ⟨us.take i, us.drop (i + 1), ?_, length_take_of_le hi.le⟩
  rw [← Option.some.inj hu, getElem_cons_drop, take_append_drop]

/-- `findpreg` passes the used entries. -/
theorem findpreg_unused {i n : ℕ} (hused : ∀ u ∈ us, u.p_reg.isSome)
    (hne : ∀ u ∈ us, u.p_type ≠ .unused) :
    findpreg .unused i (us ++ List.replicate (n + 1) nullpregion) =
      if n = 0 then none else some (i + us.length) := by
  induction us generalizing i with
  | nil =>
    rw [nil_append, replicate_succ]
    unfold findpreg
    cases n <;> rfl
  | cons u us ih =>
    rw [cons_append]
    unfold findpreg
    rw [if_pos (hused u mem_cons_self), if_neg (hne u mem_cons_self),
      ih (fun v hv => hused v (mem_cons_of_mem u hv))
        (fun v hv => hne v (mem_cons_of_mem u hv)), length_cons]
    split_ifs
    · rfl
    · rw [Nat.add_assoc, Nat.add_comm 1]

/-- `insertPreg` puts the new entry where the order says. -/
theorem insertPreg_spec (tmp x : Pregion) (rest : List Pregion)
    (hs : us.Pairwise fun a b => a.p_regva ≤ b.p_regva) :
    ∃ us1 us2, us = us1 ++ us2 ∧
      insertPreg tmp us.length (us ++ x :: rest) = some (us1 ++ tmp :: us2 ++ rest) ∧
      (∀ u ∈ us1, u.p_regva ≤ tmp.p_regva) ∧ ∀ u ∈ us2, tmp.p_regva < u.p_regva := by
  induction us using List.reverseRecOn generalizing x rest with
  | nil => exact ⟨[], [], rfl, rfl, fun _ h => (nomatch h), fun _ h => (nomatch h)⟩
  | append_singleton us q ih =>
    rw [pairwise_append] at hs
    obtain ⟨hs1, -, hs2⟩ := hs
    rw [length_append, length_singleton, append_assoc, singleton_append]
    unfold insertPreg
    rw [List.getElem?_append_right le_rfl, Nat.sub_self, List.getElem?_cons_zero, bind_some]
    have hset : ∀ y, (us ++ q :: x :: rest).set (us.length + 1) y = us ++ q :: y :: rest := by
      intro y
      rw [set_append_right _ _ (by omega), Nat.add_sub_cancel_left]
      rfl
    rw [hset, hset]
    by_cases hlt : tmp.p_regva < q.p_regva
    · rw [if_pos hlt]
      obtain ⟨us1, us2, rfl, heq, h1, h2⟩ := ih q (q :: rest) hs1
      refine ⟨us1, us2 ++ [q], by rw [append_assoc], ?_, h1, fun u hu => ?_⟩
      · rw [heq, append_assoc, append_assoc, cons_append, cons_append,
          append_assoc]
        rfl
      · rcases mem_append.mp hu with hu | hu
        · exact h2 u hu
        · rw [mem_singleton.mp hu]
          exact hlt
    · rw [if_neg hlt]
      refine ⟨us ++ [q], [], by rw [append_nil], ?_, fun u hu => ?_, fun _ h => nomatch h⟩
      · rw [append_assoc, append_assoc]
        rfl
      · rcases mem_append.mp hu with hu | hu
        · have := hs2 u hu q mem_cons_self
          omega
        · rw [mem_singleton.mp hu]
          omega

/-- The check of `chkattach` against the regions of a table. -/
theorem chkRegions_spec {start last : ℤ} {n : ℕ}
    (hused : ∀ u ∈ us, u.p_reg.isSome) (hatt : ∀ u ∈ us, Attached u.toPreg (u.reg region))
    (hsz : ∀ r, (region r).Sized)
    (hs : us.Pairwise fun a b => segEnd a.toPreg (a.reg region) ≤ b.p_regva) (hle : start ≤ last)
    (h : chkRegions region start last (us ++ List.replicate (n + 1) nullpregion) ≠ true) :
    ∀ u ∈ us, u.p_regva < start ∧ u.p_regva + ctob ((u.reg region).r_pgoff +
      (u.reg region).r_pgsz) ≤ start ∨ start < u.p_regva ∧ last ≤ u.p_regva := by
  induction us with
  | nil => exact fun _ h => nomatch h
  | cons v us ih =>
    obtain ⟨hv, hs⟩ := pairwise_cons.mp hs
    obtain ⟨r, hr⟩ := isSome_iff_exists.mp (hused v mem_cons_self)
    obtain ⟨hz1, hz2, hz3, hz4⟩ := hsz r
    have hreg : v.reg region = region r := by
      unfold Pregion.reg
      rw [hr]
      rfl
    have hva := hatt v mem_cons_self
    have hva1 := hva.nonneg
    have hva2 := hva.bound
    rw [cons_append] at h
    unfold chkRegions at h
    rw [hr] at h
    dsimp only at h
    obtain ⟨h1, h⟩ := not_of_check_ne h
    by_cases h2 : last < v.p_regva
    · -- the entries after this one are above it
      intro u hu
      rcases mem_cons.mp hu with rfl | hu
      · exact Or.inr ⟨by omega, h2.le⟩
      · have hle : v.p_regva ≤ segEnd v.toPreg (region r) := le_segEnd (hsz r)
        have hvu := hv u hu
        rw [hreg] at hvu
        exact Or.inr ⟨by omega, by omega⟩
    rw [if_neg h2] at h
    obtain ⟨h3, h⟩ := not_of_check_ne h
    intro u hu
    rcases mem_cons.mp hu with rfl | hu
    · rw [hreg] at hva2 ⊢
      unfold segEnd stob ctos USRSTACK at hva2
      unfold caddr ctob at h3
      unfold ctob
      omega
    · exact ih (fun w hw => hused w (mem_cons_of_mem v hw))
        (fun w hw => hatt w (mem_cons_of_mem v hw)) hs h u hu

/-! ## All tables -/

/-- How many entries of a table a region is attached by. -/
def uses (r : ℕ) (tbl : List Pregion) : ℕ := tbl.countP fun u => decide (u.p_reg = some r)

theorem uses_append {tbl' : List Pregion} : uses r (tbl ++ tbl') = uses r tbl + uses r tbl' :=
  countP_append

theorem uses_cons : uses r (u :: tbl) = uses r tbl + if u.p_reg = some r then 1 else 0 := by
  unfold uses
  rw [countP_cons]
  simp only [decide_eq_true_eq]

theorem uses_null (n : ℕ) : uses r (List.replicate n nullpregion) = 0 := by
  unfold uses
  rw [countP_eq_zero]
  intro u hu
  rw [eq_of_mem_replicate hu]
  exact fun h => nomatch of_decide_eq_true h

theorem uses_pos (hu : u ∈ tbl) (hr : u.p_reg = some r) : 0 < uses r tbl :=
  countP_pos_iff.mpr ⟨u, hu, decide_eq_true hr⟩

/-- **The invariant.**  Every table is in order, every size fits, and the use count of a region is
the number of entries that have it. -/
structure Layout (s : VmSys) : Prop where
  tables : ∀ tbl ∈ s.p_region, ∃ us, Table s.region tbl us
  sized : ∀ r, (s.region r).Sized
  refcnt : ∀ r, (uses r s.p_region.flatten : ℤ) = (s.region r).r_refcnt
  short : ∀ r, (s.region r).r_refcnt ≤ 32767

variable {v w : VmSys} {pi i : ℕ} {mem : Ptmem}

/-- One table changes, and with it regions that only this table has or that keep their size. -/
theorem Layout.update {tbl' us' : List Pregion} (h : Layout v) (hpi : v.p_region[pi]? = some tbl)
    (htab : Table region' tbl' us') (hsz : ∀ r, (region' r).Sized)
    (hother : ∀ r, (region' r).r_pgsz = (v.region r).r_pgsz ∧
      (region' r).r_pgoff = (v.region r).r_pgoff ∨ (v.region r).r_refcnt = uses r tbl)
    (hcount : ∀ r, (uses r tbl' : ℤ) + (v.region r).r_refcnt = uses r tbl + (region' r).r_refcnt)
    (hshort : ∀ r, (region' r).r_refcnt ≤ 32767) :
    Layout ⟨v.p_region.set pi tbl', region', mem⟩ := by
  obtain ⟨hi, hget⟩ := List.getElem?_eq_some_iff.mp hpi
  obtain ⟨A, B, hsplit, hlen⟩ : ∃ A B, v.p_region = A ++ tbl :: B ∧ A.length = pi := by
    refine ⟨v.p_region.take pi, v.p_region.drop (pi + 1), ?_, length_take_of_le hi.le⟩
    rw [← hget, getElem_cons_drop, take_append_drop]
  have hset : v.p_region.set pi tbl' = A ++ tbl' :: B := by
    rw [hsplit, ← hlen, set_append_right _ _ le_rfl, Nat.sub_self]
    rfl
  have huses : ∀ r T, (uses r (A ++ T :: B).flatten : ℤ) =
      uses r A.flatten + uses r T + uses r B.flatten := by
    intro r T
    rw [flatten_append, flatten_cons, uses_append, uses_append]
    push_cast
    omega
  have hcnt : ∀ r, (uses r A.flatten : ℤ) + uses r tbl + uses r B.flatten =
      (v.region r).r_refcnt := by
    intro r
    rw [← h.refcnt r, hsplit, huses]
  -- the other tables
  have hAB : ∀ T, T ∈ A ∨ T ∈ B → ∃ us, Table region' T us := by
    intro T hT
    obtain ⟨us, hus⟩ := h.tables T (by
      rw [hsplit, mem_append, mem_cons]
      tauto)
    refine ⟨us, hus.congr fun u hu => ?_⟩
    obtain ⟨r, hr⟩ := isSome_iff_exists.mp (hus.used u hu)
    unfold Pregion.reg
    rw [hr]
    refine (hother r).resolve_right fun hrc => ?_
    have huT : u ∈ T := by
      obtain ⟨n, rfl⟩ := hus.split
      exact mem_append_left _ hu
    have := hcnt r
    rcases hT with hT | hT
    · have := uses_pos (mem_flatten.mpr ⟨T, hT, huT⟩) hr
      omega
    · have := uses_pos (mem_flatten.mpr ⟨T, hT, huT⟩) hr
      omega
  refine ⟨fun T hT => ?_, hsz, fun r => ?_, hshort⟩
  · dsimp only at hT
    rw [hset, mem_append, mem_cons] at hT
    rcases hT with hT | rfl | hT
    · exact hAB T (Or.inl hT)
    · exact ⟨us', htab⟩
    · exact hAB T (Or.inr hT)
  · dsimp only
    rw [hset, huses]
    have := hcnt r
    have := hcount r
    omega

/-- The entries of a table and the use counts. -/
theorem Layout.uses_le (h : Layout v) (hpi : v.p_region[pi]? = some tbl) (r : ℕ) :
    (uses r tbl : ℤ) ≤ (v.region r).r_refcnt := by
  rw [← h.refcnt r]
  have hmem := mem_of_getElem? hpi
  have : uses r tbl ≤ uses r v.p_region.flatten :=
    (sublist_flatten_of_mem hmem).countP_le
  omega

theorem sized_update (h : ∀ r, (region r).Sized) {rp : Reg} (hrp : rp.Sized) (r' : ℕ) :
    (update region r rp r').Sized := by
  rw [update_apply]
  split_ifs with hr
  · exact hrp
  · exact h r'

/-! ## `attachreg` -/

/-- What `chkattach` leaves. -/
theorem chkattach_spec {n : ℕ} (hus : Table region tbl us) (hn : tbl = us ++ List.replicate (n + 1)
    nullpregion) (hsz : ∀ r, (region r).Sized) (hz : rp.Sized) (h0 : 0 ≤ prp.p_regva)
    (h : chkattach region tbl prp rp ≠ true) :
    prp.p_regva % stob 1 = 0 ∧ segEnd prp rp ≤ USRSTACK ∧
      ∀ u ∈ us, segEnd u.toPreg (u.reg region) ≤ prp.p_regva ∧ u.p_regva < prp.p_regva ∨
        segEnd prp rp ≤ u.p_regva ∧ prp.p_regva < u.p_regva := by
  obtain ⟨hz1, hz2, hz3, hz4⟩ := hz
  unfold chkattach at h
  dsimp only at h
  obtain ⟨hal, h⟩ := not_of_check_ne h
  replace hal := not_not.mp hal
  obtain ⟨last, hlast⟩ : ∃ last, last = caddr (prp.p_regva + ctob (rp.r_pgoff + rp.r_pgsz)) :=
    ⟨_, rfl⟩
  rw [← hlast] at h
  obtain ⟨hin, h⟩ := not_of_check_ne h
  have hlast' : last = prp.p_regva + ctob (rp.r_pgoff + rp.r_pgsz) := by
    rw [hlast]
    unfold USRSTACK at hin
    unfold caddr ctob
    omega
  have hse : segEnd prp rp ≤ USRSTACK ∧
      ∀ x, x % stob 1 = 0 → last ≤ x → segEnd prp rp ≤ x := by
    unfold stob at hal
    unfold segEnd stob ctos
    unfold USRSTACK at hin ⊢
    unfold ctob at hlast'
    exact ⟨by omega, fun x h1 h2 => by omega⟩
  refine ⟨hal, hse.1, fun u hu => ?_⟩
  rw [hn] at h
  have hua := (hus.attached u hu).aligned
  rcases chkRegions_spec hus.used hus.attached hsz hus.sorted (by
    rw [hlast']
    unfold ctob
    omega) h u hu with ⟨h1, h2⟩ | ⟨h1, h2⟩
  · left
    refine ⟨?_, h1⟩
    unfold segEnd stob ctos
    unfold stob at hal hua
    unfold ctob at h2
    omega
  · exact Or.inr ⟨hse.2 _ hua h2, h1⟩

/-- The table with the new entry. -/
theorem insert_table (tmp : Pregion) {n : ℕ} (hus : Table region tbl us)
    (hn : tbl = us ++ List.replicate (n + 2) nullpregion) (hsz : ∀ r, (region r).Sized)
    (hreg : tmp.p_reg.isSome) (hatt : Attached tmp.toPreg (tmp.reg region))
    (hoff : ∀ u ∈ us, segEnd u.toPreg (u.reg region) ≤ tmp.p_regva ∧ u.p_regva < tmp.p_regva ∨
      segEnd tmp.toPreg (tmp.reg region) ≤ u.p_regva ∧ tmp.p_regva < u.p_regva) :
    ∃ tbl' us', insertPreg tmp us.length tbl = some tbl' ∧ Table region tbl' us' ∧
      ∀ r, uses r tbl' = uses r tbl + if tmp.p_reg = some r then 1 else 0 := by
  have hs : us.Pairwise fun a b => a.p_regva ≤ b.p_regva :=
    hus.sorted.imp fun {a b} hab => (le_segEnd (hsz _)).trans hab
  obtain ⟨us1, us2, rfl, heq, h1, h2⟩ :=
    insertPreg_spec tmp nullpregion (List.replicate (n + 1) nullpregion) hs
  rw [hn, replicate_succ]
  have hmem : ∀ u ∈ us1 ++ tmp :: us2, u = tmp ∨ u ∈ us1 ++ us2 := by
    intro u hu
    rw [mem_append, mem_cons] at hu
    rw [mem_append]
    tauto
  obtain ⟨hs1, hs2, hs12⟩ := pairwise_append.mp hus.sorted
  refine ⟨_, us1 ++ tmp :: us2, heq, ⟨⟨n, by rw [append_assoc]⟩, fun u hu => ?_,
    fun u hu => ?_, ?_⟩, fun r => ?_⟩
  · rcases hmem u hu with rfl | hu
    · exact hreg
    · exact hus.used u hu
  · rcases hmem u hu with rfl | hu
    · exact hatt
    · exact hus.attached u hu
  · refine pairwise_append.mpr ⟨hs1, pairwise_cons.mpr ⟨fun u hu => ?_, hs2⟩,
      fun a ha b hb => ?_⟩
    · rcases hoff u (mem_append_right _ hu) with ⟨-, h⟩ | ⟨h, -⟩
      · have := h2 u hu
        omega
      · exact h
    · rcases mem_cons.mp hb with rfl | hb
      · rcases hoff a (mem_append_left _ ha) with ⟨h, -⟩ | ⟨-, h⟩
        · exact h
        · have := h1 a ha
          omega
      · exact hs12 a ha b hb
  · rw [← replicate_succ, uses_append, uses_append, uses_append, uses_append, uses_cons,
      uses_null, uses_null]
    omega

theorem attachreg_layout {vaddr : ℤ} {type : PregType} {rdonly b : Bool} (h : Layout v)
    (hva : 0 ≤ vaddr) (htype : type ≠ .unused) (hrc : (v.region r).r_refcnt < 32767)
    (hst : type = .stack → ((v.region r).r_pgoff + (v.region r).r_pgsz) % 1024 = 0)
    (ha : v.attachreg pi r vaddr type rdonly = some (b, w)) : Layout w := by
  unfold VmSys.attachreg at ha
  obtain ⟨tbl, hpi, ha⟩ := bind_eq_some_iff.mp ha
  obtain ⟨us, hus⟩ := h.tables tbl (mem_of_getElem? hpi)
  obtain ⟨n, hn⟩ := hus.split
  by_cases hal : vaddr % stob 1 ≠ 0
  · rw [if_pos hal] at ha
    cases ha
    exact h
  rw [if_neg hal] at ha
  have hfind := findpreg_unused (i := 0) (n := n) hus.used fun u hu => (hus.attached u hu).used
  rw [← hn] at hfind
  rw [hfind] at ha
  cases n with
  | zero =>
    cases ha
    exact h
  | succ n =>
    rw [if_neg (by omega), Nat.zero_add] at ha
    dsimp only at ha
    by_cases hchk : chkattach v.region tbl ⟨vaddr, type, rdonly⟩ (v.region r) = true
    · rw [if_pos hchk] at ha
      cases ha
      exact h
    rw [if_neg hchk] at ha
    obtain ⟨hal', hend, hoff⟩ := chkattach_spec hus hn h.sized (h.sized r) hva hchk
    obtain ⟨tbl', us', hins, htab, huses⟩ := insert_table ⟨⟨vaddr, type, rdonly⟩, some r⟩
      hus hn h.sized rfl ⟨hal', hva, hend, hst, htype⟩ hoff
    rw [hins] at ha
    cases ha
    have hreg : ∀ r', (update v.region r
        { v.region r with r_refcnt := short ((v.region r).r_refcnt + 1) } r').r_pgsz =
          (v.region r').r_pgsz ∧
        (update v.region r
          { v.region r with r_refcnt := short ((v.region r).r_refcnt + 1) } r').r_pgoff =
          (v.region r').r_pgoff ∧
        (update v.region r
          { v.region r with r_refcnt := short ((v.region r).r_refcnt + 1) } r').r_refcnt =
          (v.region r').r_refcnt + if some r = some r' then 1 else 0 := by
      intro r'
      by_cases hr : r' = r
      · subst hr
        rw [update_self, if_pos rfl]
        have := h.uses_le hpi r'
        exact ⟨rfl, rfl, short_of (by omega)⟩
      · rw [update_of_ne hr, if_neg fun h => hr (Option.some.inj h).symm, add_zero]
        exact ⟨rfl, rfl, rfl⟩
    refine h.update hpi (htab.congr fun u _ => ⟨(hreg _).1, (hreg _).2.1⟩)
      (sized_update h.sized (h.sized r)) (fun r' => Or.inl ⟨(hreg r').1, (hreg r').2.1⟩)
      (fun r' => ?_) fun r' => ?_
    · rw [huses, (hreg r').2.2]
      push_cast
      omega
    · rw [(hreg r').2.2]
      have := h.short r'
      split_ifs with hr
      · rw [← Option.some.inj hr]
        omega
      · omega

/-! ## `detachreg` -/

/-- A region that shrinks, wherever it is attached. -/
theorem growreg_sized (hp : Attached s.prp s.reg) (hz : s.reg.Sized) (hm : s.MovesTo e change t)
    (hC : s.Fits e change) : t.reg.Sized := by
  by_cases htype : s.prp.p_type = .stack
  · exact (growreg_down_fits hp hz hm htype hC).2.2.1
  · exact (growreg_up_fits hp hz hm htype hC).2.2.1

theorem Attached.range (hp : Attached prp rp) (hz : rp.Sized) :
    0 ≤ prp.p_regva ∧ prp.p_regva < 2 ^ 32 := by
  have : prp.p_regva ≤ segEnd prp rp := le_segEnd hz
  have hb := hp.bound
  unfold USRSTACK at hb
  exact ⟨hp.nonneg, by omega⟩

theorem removeData_spec {m m' : Ptmem} {magic407 : Bool} {rp' : Reg} (hp : Attached prp rp)
    (hz : rp.Sized) (h : removeData prp rp m magic407 e = some (rp', m')) :
    rp'.Sized ∧ rp'.r_refcnt = rp.r_refcnt ∧
      (rp'.r_pgsz = rp.r_pgsz ∧ rp'.r_pgoff = rp.r_pgoff ∨ rp.r_refcnt = 1) := by
  unfold removeData at h
  dsimp only at h
  split_ifs at h with h1 h2 h3
  · obtain ⟨⟨ret, x⟩, hx, heq⟩ := map_eq_some_iff.mp h
    cases heq
    have hp' : Attached prp { rp with r_filesz := long (rp.r_filesz - prp.p_regva) } :=
      hp.congr rfl rfl rfl rfl
    have hm := growreg_moved hx (hp.range hz) hz
    exact ⟨growreg_sized (s := ⟨prp, { rp with r_filesz := long (rp.r_filesz - prp.p_regva) }, m⟩)
      hp' hz hm fun h0 => by omega, hm.same, Or.inr hm.refcnt⟩
  · cases h
    exact ⟨hz, rfl, Or.inl ⟨rfl, rfl⟩⟩
  · cases h
    exact ⟨hz, rfl, Or.inl ⟨rfl, rfl⟩⟩

theorem detachreg_layout {magic407 : Bool} (h : Layout v)
    (hd : v.detachreg pi i magic407 e = some w) : Layout w := by
  unfold VmSys.detachreg at hd
  obtain ⟨tbl, hpi, hd⟩ := bind_eq_some_iff.mp hd
  obtain ⟨u, hu, hd⟩ := bind_eq_some_iff.mp hd
  obtain ⟨r, hr, hd⟩ := bind_eq_some_iff.mp hd
  obtain ⟨⟨rp, m⟩, hrem, hd⟩ := bind_eq_some_iff.mp hd
  obtain ⟨⟨rp', m'⟩, hfree, heq⟩ := map_eq_some_iff.mp hd
  cases heq
  dsimp only at hfree
  obtain ⟨us, hus⟩ := h.tables tbl (mem_of_getElem? hpi)
  obtain ⟨us1, us2, rfl, hlen⟩ := hus.getElem? hu hr
  obtain ⟨n, hn⟩ := hus.split
  have hle := h.uses_le hpi r
  have huses : ∀ r', uses r' tbl = uses r' (us1 ++ us2) + if some r = some r' then 1 else 0 := by
    intro r'
    rw [hn, uses_append, uses_append, uses_append, uses_cons, uses_null, hr]
    omega
  have hreg : u.reg v.region = v.region r := by
    unfold Pregion.reg
    rw [hr]
    rfl
  have hatt := hus.attached u (mem_append_right _ mem_cons_self)
  rw [hreg] at hatt
  obtain ⟨hz, hrc, hsame⟩ := removeData_spec hatt (h.sized r) hrem
  have hshort := h.short r
  have huses1 := huses r
  rw [if_pos rfl] at huses1
  have hrc1 : short (rp.r_refcnt - 1) = (v.region r).r_refcnt - 1 := by
    rw [hrc]
    exact short_of (by omega)
  rw [hrc1] at hfree
  -- the region afterwards
  have hafter : rp'.Sized ∧ rp'.r_refcnt = (v.region r).r_refcnt - 1 ∧
      (rp'.r_pgsz = (v.region r).r_pgsz ∧ rp'.r_pgoff = (v.region r).r_pgoff ∨
        (v.region r).r_refcnt = 1) := by
    split_ifs at hfree with hf
    · unfold freereg at hfree
      obtain ⟨⟨l, m2⟩, -, heq⟩ := map_eq_some_iff.mp hfree
      cases heq
      have h0 : (0 : ℤ) ≤ 32767 := by decide
      exact ⟨⟨le_rfl, h0, le_rfl, h0⟩, rfl, Or.inr (by omega)⟩
    · cases hfree
      exact ⟨hz, rfl, hsame⟩
  obtain ⟨hz', hrc', hsame'⟩ := hafter
  have hone : (v.region r).r_refcnt = 1 → uses r (us1 ++ us2) = 0 := fun h1 => by omega
  -- the table without the entry
  have herase : tbl.eraseIdx i ++ [nullpregion] =
      us1 ++ us2 ++ List.replicate (n + 2) nullpregion := by
    rw [hn, ← hlen, append_assoc, eraseIdx_append_of_length_le le_rfl, Nat.sub_self,
      cons_append, eraseIdx_cons_zero, replicate_succ' (n := n + 1)]
    simp only [append_assoc]
  have hsub : (us1 ++ us2).Sublist (us1 ++ u :: us2) :=
    List.Sublist.append_left (sublist_cons_self u us2) us1
  have htab : Table v.region (tbl.eraseIdx i ++ [nullpregion]) (us1 ++ us2) :=
    ⟨⟨n + 1, herase⟩, fun x hx => hus.used x (hsub.subset hx),
      fun x hx => hus.attached x (hsub.subset hx), hus.sorted.sublist hsub⟩
  have hother : ∀ r', (update v.region r rp' r').r_pgsz = (v.region r').r_pgsz ∧
      (update v.region r rp' r').r_pgoff = (v.region r').r_pgoff ∨
      (r' = r ∧ (v.region r').r_refcnt = 1) := by
    intro r'
    by_cases hr' : r' = r
    · subst hr'
      rw [update_self]
      exact hsame'.imp_right fun h1 => ⟨rfl, h1⟩
    · rw [update_of_ne hr']
      exact Or.inl ⟨rfl, rfl⟩
  refine h.update hpi (htab.congr fun x hx => ?_) (sized_update h.sized hz') (fun r' => ?_)
    (fun r' => ?_) fun r' => ?_
  · refine (hother _).resolve_right ?_
    rintro ⟨hxr, h1⟩
    rw [hxr] at h1
    obtain ⟨r'', hr''⟩ := isSome_iff_exists.mp (hus.used x (hsub.subset hx))
    rw [hr''] at hxr
    have := uses_pos hx (hr''.trans (congrArg some hxr))
    have := hone h1
    omega
  · refine (hother r').imp_right ?_
    rintro ⟨rfl, h1⟩
    omega
  · rw [herase, uses_append, uses_null, huses]
    by_cases hr' : r' = r
    · subst hr'
      rw [update_self, hrc', if_pos rfl]
      push_cast
      omega
    · rw [update_of_ne hr', if_neg fun h => hr' (Option.some.inj h).symm]
  · by_cases hr' : r' = r
    · subst hr'
      rw [update_self, hrc']
      omega
    · rw [update_of_ne hr']
      exact h.short r'

/-! ## `growreg` -/

/-- The entry of a region that moved replaces the old one. -/
theorem replace_table {us1 us2 : List Pregion} {u' : Pregion}
    (hus : Table region tbl (us1 ++ u :: us2)) (hsz : ∀ r, (region r).Sized)
    (hsame : ∀ x ∈ us1 ++ us2, x.reg region' = x.reg region) (hreg : u'.p_reg.isSome)
    (hatt : Attached u'.toPreg (u'.reg region'))
    (hlow : u.p_regva ≤ u'.p_regva ∨ ∀ us0 x, us1 = us0 ++ [x] →
      segEnd x.toPreg (x.reg region) ≤ u'.p_regva)
    (hhigh : segEnd u'.toPreg (u'.reg region') ≤ segEnd u.toPreg (u.reg region) ∨
      ∀ x us3, us2 = x :: us3 → segEnd u'.toPreg (u'.reg region') ≤ x.p_regva) :
    Table region' (tbl.set us1.length u') (us1 ++ u' :: us2) := by
  obtain ⟨n, hn⟩ := hus.split
  obtain ⟨hs1, hs2, hs12⟩ := pairwise_append.mp hus.sorted
  obtain ⟨hsu, hs2⟩ := pairwise_cons.mp hs2
  have hmem1 : ∀ x ∈ us1, x ∈ us1 ++ us2 := fun x hx => mem_append_left us2 hx
  have hmem2 : ∀ x ∈ us2, x ∈ us1 ++ us2 := fun x hx => mem_append_right us1 hx
  have hmem : ∀ x ∈ us1 ++ u' :: us2, x = u' ∨ x ∈ us1 ++ us2 ∧ x ∈ us1 ++ u :: us2 := by
    intro x hx
    rw [mem_append, mem_cons] at hx
    rw [mem_append, mem_append, mem_cons]
    tauto
  refine ⟨⟨n, ?_⟩, fun x hx => ?_, fun x hx => ?_, ?_⟩
  · rw [hn, append_assoc, set_append_right _ _ le_rfl, Nat.sub_self, cons_append,
      set_cons_zero, append_assoc, cons_append]
  · rcases hmem x hx with rfl | ⟨-, hx⟩
    · exact hreg
    · exact hus.used x hx
  · rcases hmem x hx with rfl | ⟨hx', hx⟩
    · exact hatt
    · rw [hsame x hx']
      exact hus.attached x hx
  · refine pairwise_append.mpr ⟨hs1.imp_of_mem fun {a b} ha _ hab => ?_,
      pairwise_cons.mpr ⟨fun x hx => ?_, hs2.imp_of_mem fun {a b} ha _ hab => ?_⟩,
      fun a ha b hb => ?_⟩
    · rwa [hsame a (hmem1 a ha)]
    · -- above the entry
      rcases hhigh with hhigh | hhigh
      · exact hhigh.trans (hsu x hx)
      · obtain ⟨y, us3, rfl⟩ := exists_cons_of_ne_nil (ne_nil_of_mem hx)
        have hy := hhigh y us3 rfl
        rcases mem_cons.mp hx with rfl | hx
        · exact hy
        · exact hy.trans ((le_segEnd (hsz _)).trans ((pairwise_cons.mp hs2).1 x hx))
    · rwa [hsame a (hmem2 a ha)]
    · rw [hsame a (hmem1 a ha)]
      rcases mem_cons.mp hb with rfl | hb
      · -- below the entry
        rcases hlow with hlow | hlow
        · exact (hs12 a ha u mem_cons_self).trans hlow
        · obtain ⟨us0, y, rfl⟩ : ∃ us0 y, us1 = us0 ++ [y] :=
            ⟨_, _, (dropLast_append_getLast (ne_nil_of_mem ha)).symm⟩
          have hy := hlow us0 y rfl
          rcases mem_append.mp ha with ha | ha
          · have hay := (pairwise_append.mp hs1).2.2 a ha y mem_cons_self
            exact hay.trans ((le_segEnd (hsz _)).trans hy)
          · rwa [mem_singleton.mp ha]
      · exact hs12 a ha b (mem_cons_of_mem u hb)

/-- The entry below a stack. -/
theorem neighbour_down {us0 : List Pregion} {x : Pregion}
    (hus : Table v.region tbl (us0 ++ [x] ++ u :: us2)) (htype : u.p_type = .stack) :
    v.neighbour tbl (us0.length + 1) u.toPreg = some (x.toPreg, x.reg v.region) := by
  obtain ⟨n, hn⟩ := hus.split
  obtain ⟨rx, hrx⟩ := isSome_iff_exists.mp (hus.used x
    (mem_append_left _ (mem_append_right _ mem_cons_self)))
  have hget : tbl[us0.length]? = some x := by
    rw [hn, append_assoc, append_assoc, List.getElem?_append_right le_rfl, Nat.sub_self]
    rfl
  unfold VmSys.neighbour Pregion.reg
  rw [if_neg (not_not.mpr htype), if_neg (by omega), Nat.add_sub_cancel, hget, bind_some,
    hrx]
  rfl

/-- The entry above another region. -/
theorem neighbour_up {us3 : List Pregion} {x : Pregion}
    (hus : Table v.region tbl (us1 ++ u :: x :: us3)) (htype : u.p_type ≠ .stack) :
    v.neighbour tbl us1.length u.toPreg = some (x.toPreg, x.reg v.region) := by
  obtain ⟨n, hn⟩ := hus.split
  obtain ⟨rx, hrx⟩ := isSome_iff_exists.mp (hus.used x
    (mem_append_right _ (mem_cons_of_mem u mem_cons_self)))
  have hget : tbl[us1.length + 1]? = some x := by
    rw [hn, append_assoc, List.getElem?_append_right (by omega), Nat.add_sub_cancel_left]
    rfl
  unfold VmSys.neighbour Pregion.reg
  rw [if_pos htype, hget, bind_some, hrx]
  rfl

theorem growreg_layout {type : ℕ} {ret : ℤ} (h : Layout v)
    (hC : ∀ x, v.growAt pi i e = some x → x.2.2.1.Fits x.2.2.2 change)
    (hg : v.growreg pi i e change type = some (ret, w)) : Layout w := by
  unfold VmSys.growreg at hg
  obtain ⟨⟨tbl, r, x, e'⟩, hat, hg⟩ := bind_eq_some_iff.mp hg
  obtain ⟨⟨ret', y⟩, hy, heq⟩ := map_eq_some_iff.mp hg
  cases heq
  replace hC := hC _ hat
  unfold VmSys.growAt at hat
  obtain ⟨tbl', hpi, hat⟩ := bind_eq_some_iff.mp hat
  obtain ⟨u, hu, hat⟩ := bind_eq_some_iff.mp hat
  obtain ⟨r', hr, heq⟩ := map_eq_some_iff.mp hat
  cases heq
  dsimp only at hC
  obtain ⟨us, hus⟩ := h.tables tbl (mem_of_getElem? hpi)
  obtain ⟨us1, us2, rfl, hlen⟩ := hus.getElem? hu hr
  obtain ⟨n, hn⟩ := hus.split
  have hreg : u.reg v.region = v.region r := by
    unfold Pregion.reg
    rw [hr]
    rfl
  have hatt := hus.attached u (mem_append_right _ mem_cons_self)
  rw [hreg] at hatt
  have hm := growreg_moved hy (hatt.range (h.sized r)) (h.sized r)
  have hrc := hm.refcnt
  dsimp only at hrc
  have hle := h.uses_le hpi r
  have huses : ∀ u', uses r (us1 ++ u' :: us2 ++ List.replicate (n + 1) nullpregion) =
      uses r (us1 ++ us2) + if u'.p_reg = some r then 1 else 0 := by
    intro u'
    rw [uses_append, uses_append, uses_append, uses_cons, uses_null]
    omega
  have hone := huses u
  rw [← hn, if_pos hr] at hone
  -- the other entries have other regions
  have hsame : ∀ x ∈ us1 ++ us2, x.reg (update v.region r y.reg) = x.reg v.region := by
    intro x hx
    unfold Pregion.reg
    refine update_of_ne (fun hxr => ?_) _ _
    obtain ⟨r'', hr''⟩ := isSome_iff_exists.mp (hus.used x (by
      rw [mem_append] at hx
      rw [mem_append, mem_cons]
      tauto))
    rw [hr''] at hxr
    have := uses_pos hx (hr''.trans (congrArg some hxr))
    omega
  have hnew : (⟨y.prp, some r⟩ : Pregion).reg (update v.region r y.reg) = y.reg :=
    update_self ..
  have hsz : y.reg.Sized := growreg_sized hatt (h.sized r) hm hC
  have htab : Table (update v.region r y.reg) (tbl.set i ⟨y.prp, some r⟩)
      (us1 ++ ⟨y.prp, some r⟩ :: us2) := by
    rw [← hlen]
    by_cases htype : u.p_type = .stack
    · obtain ⟨-, hy1, -, hy2, hy3⟩ := growreg_down_fits hatt (h.sized r) hm htype hC
      refine replace_table hus h.sized hsame rfl (by rwa [hnew]) ?_ ?_
      · refine hy3.imp_right fun hy3 us0 x hx => ?_
        subst hx
        refine hy3 x.toPreg (x.reg v.region) ?_ (hus.attached x ?_) (h.sized _)
        · rw [← hlen, length_append, length_singleton]
          exact neighbour_down hus htype
        · exact mem_append_left _ (mem_append_right _ mem_cons_self)
      · rw [hnew, hreg]
        exact Or.inl hy2.le
    · obtain ⟨hyp, hy1, -, hy2⟩ := growreg_up_fits hatt (h.sized r) hm htype hC
      dsimp only at hyp
      refine replace_table hus h.sized hsame rfl (by rwa [hnew]) (Or.inl ?_) ?_
      · rw [hyp]
      · rw [hnew, hreg]
        refine hy2.imp_right fun hy2 x us3 hx => ?_
        subst hx
        have hux := (pairwise_append.mp hus.sorted).2.1
        refine hy2 x.toPreg (x.reg v.region) ?_ (hus.attached x ?_) (h.sized _) ?_
        · rw [← hlen]
          exact neighbour_up hus htype
        · exact mem_append_right _ (mem_cons_of_mem u mem_cons_self)
        · exact (le_segEnd (h.sized r)).trans
            (hreg ▸ (pairwise_cons.mp hux).1 x mem_cons_self)
  refine h.update hpi htab (sized_update h.sized hsz) (fun r' => ?_) (fun r' => ?_) fun r' => ?_
  · by_cases hr' : r' = r
    · subst hr'
      exact Or.inr (by omega)
    · rw [update_of_ne hr']
      exact Or.inl ⟨rfl, rfl⟩
  · have hset : tbl.set i ⟨y.prp, some r⟩ =
        us1 ++ ⟨y.prp, some r⟩ :: us2 ++ List.replicate (n + 1) nullpregion := by
      rw [hn, ← hlen, append_assoc, set_append_right _ _ le_rfl, Nat.sub_self,
        cons_append, set_cons_zero, append_assoc, cons_append]
    rw [hset, hn]
    simp only [uses_append, uses_cons, uses_null, hr]
    by_cases hr' : r' = r
    · subst hr'
      rw [update_self, hm.same]
    · rw [update_of_ne hr']
  · by_cases hr' : r' = r
    · subst hr'
      rw [update_self, hm.same]
      exact h.short r'
    · rw [update_of_ne hr']
      exact h.short r'

/-! ## Runs -/

theorem other_layout {rp : Reg} (h : Layout v) (ho : (v.region r).OtherChange rp) :
    Layout { v with region := update v.region r rp, mem := mem } := by
  obtain ⟨hrc, ho⟩ := ho
  have hrefcnt : ∀ r', (update v.region r rp r').r_refcnt = (v.region r').r_refcnt := by
    intro r'
    rw [update_apply]
    split_ifs with hr
    · rw [hr, hrc]
    · rfl
  refine ⟨fun tbl htbl => ?_, sized_update h.sized ?_, fun r' => ?_, fun r' => ?_⟩
  · obtain ⟨us, hus⟩ := h.tables tbl htbl
    refine ⟨us, hus.congr fun u hu => ?_⟩
    obtain ⟨r', hr'⟩ := isSome_iff_exists.mp (hus.used u hu)
    unfold Pregion.reg
    rw [hr']
    by_cases hr : r' = r
    · subst hr
      show (update v.region r' rp r').r_pgsz = _ ∧
        (update v.region r' rp r').r_pgoff = _
      rw [update_self]
      refine ho.resolve_right fun h0 => ?_
      have hmem : u ∈ v.p_region.flatten := by
        obtain ⟨n, hn⟩ := hus.split
        exact mem_flatten.mpr ⟨tbl, htbl, hn ▸ mem_append_left _ hu⟩
      have := uses_pos hmem hr'
      have := h.refcnt r'
      omega
    · show (update v.region r rp r').r_pgsz = _ ∧
        (update v.region r rp r').r_pgoff = _
      rw [update_of_ne hr]
      exact ⟨rfl, rfl⟩
  · rcases ho with ⟨h1, h2⟩ | ⟨-, h1⟩
    · unfold Reg.Sized
      rw [h1, h2]
      exact h.sized r
    · exact h1
  · rw [hrefcnt]
    exact h.refcnt r'
  · rw [hrefcnt]
    exact h.short r'

/-- A region is attached under a type, as a stack only if it ends at the end of a segment, and its
use count fits a `short`; growth meets `Fits`. -/
def VmSys.CallMeets (s : VmSys) : ℕ × VmCall → Prop
  | (_, .attach r _ type _) => type ≠ .unused ∧ (s.region r).r_refcnt < 32767 ∧
      (type = .stack → ((s.region r).r_pgoff + (s.region r).r_pgsz) % 1024 = 0)
  | (pi, .grow i e change _) => ∀ x ∈ s.growAt pi i e, x.2.2.1.Fits x.2.2.2 change
  | _ => True

/-- One call keeps the layout. -/
theorem vmStep_layout {c : ℕ × VmCall} (h : Layout v) (hC : v.CallMeets c)
    (hstep : vmStep v c = some w) : Layout w := by
  obtain ⟨pi, call⟩ := c
  unfold vmStep at hstep
  cases call with
  | attach r vaddr type rdonly =>
    dsimp only at hstep
    split_ifs at hstep with hva
    obtain ⟨⟨b, x⟩, hx, rfl⟩ := map_eq_some_iff.mp hstep
    obtain ⟨h1, h2, h3⟩ := hC
    exact attachreg_layout h hva.1 h1 h2 h3 hx
  | detach i magic407 e => exact detachreg_layout h hstep
  | grow i e change type =>
    obtain ⟨⟨ret, x⟩, hx, rfl⟩ := map_eq_some_iff.mp hstep
    exact growreg_layout h hC hx
  | other r rp m =>
    dsimp only at hstep
    split_ifs at hstep with ho
    cases hstep
    exact other_layout h ho

/-- No process has attached anything. -/
structure VmSys.Start (s : VmSys) : Prop where
  tables : ∀ tbl ∈ s.p_region, ∃ n, tbl = List.replicate (n + 1) nullpregion
  sized : ∀ r, (s.region r).Sized
  refcnt : ∀ r, (s.region r).r_refcnt = 0

theorem VmSys.Start.layout (h : v.Start) : Layout v where
  tables tbl htbl := by
    obtain ⟨n, hn⟩ := h.tables tbl htbl
    exact ⟨[], ⟨n, hn⟩, fun _ h => (nomatch h), fun _ h => (nomatch h), .nil⟩
  sized := h.sized
  refcnt r := by
    rw [h.refcnt, Int.natCast_eq_zero]
    unfold uses
    rw [countP_eq_zero]
    intro u hu
    obtain ⟨tbl, htbl, hu⟩ := mem_flatten.mp hu
    obtain ⟨n, rfl⟩ := h.tables tbl htbl
    rw [eq_of_mem_replicate hu]
    exact fun h => nomatch of_decide_eq_true h
  short r := by
    rw [h.refcnt]
    decide

/-- The table of a process, of which the first `k` entries are used: sorted, terminated by a null
entry, and its ranges, rounded to segments, are disjoint and end at or below `USRSTACK`. -/
structure VmSys.InOrder (s : VmSys) (tbl : List Pregion) (k : ℕ) : Prop where
  terminated : k < tbl.length
  used : ∀ i u, tbl[i]? = some u → (u.p_reg.isSome ↔ i < k)
  sorted : ∀ i j u w, i < j → j < k → tbl[i]? = some u → tbl[j]? = some w →
    u.p_regva ≤ w.p_regva
  disjoint : ∀ i j u w, i ≠ j → i < k → j < k → tbl[i]? = some u → tbl[j]? = some w →
    ∀ a, ¬ ((u.p_regva ≤ a ∧ a < segEnd u.toPreg (u.reg s.region)) ∧
      w.p_regva ≤ a ∧ a < segEnd w.toPreg (w.reg s.region))
  inside : ∀ i u, i < k → tbl[i]? = some u →
    0 ≤ u.p_regva ∧ segEnd u.toPreg (u.reg s.region) ≤ USRSTACK

theorem Layout.inOrder (h : Layout v) (htbl : tbl ∈ v.p_region) : ∃ k, v.InOrder tbl k := by
  obtain ⟨us, hus⟩ := h.tables tbl htbl
  obtain ⟨n, hn⟩ := hus.split
  have hget : ∀ i u, i < us.length → tbl[i]? = some u → us[i]? = some u := by
    intro i u hi hu
    rwa [hn, List.getElem?_append_left hi] at hu
  have hpair : ∀ i j u w, i < j → j < us.length → tbl[i]? = some u → tbl[j]? = some w →
      segEnd u.toPreg (u.reg v.region) ≤ w.p_regva := by
    intro i j u w hij hj hu hw
    obtain ⟨hi', rfl⟩ := List.getElem?_eq_some_iff.mp (hget i u (by omega) hu)
    obtain ⟨hj', rfl⟩ := List.getElem?_eq_some_iff.mp (hget j w hj hw)
    exact pairwise_iff_getElem.mp hus.sorted i j hi' hj' hij
  refine ⟨us.length, ?_, fun i u hu => ⟨fun hr => ?_, fun hi => ?_⟩, fun i j u w hij hj hu hw => ?_,
    fun i j u w hij hi hj hu hw a ha => ?_, fun i u hi hu => ?_⟩
  · rw [hn, length_append, length_replicate]
    omega
  · obtain ⟨r, hr⟩ := isSome_iff_exists.mp hr
    obtain ⟨us1, us2, hsplit, rfl⟩ := hus.getElem? hu hr
    rw [hsplit, length_append, length_cons]
    omega
  · exact hus.used u (mem_of_getElem? (hget i u hi hu))
  · exact (le_segEnd (h.sized _)).trans (hpair i j u w hij hj hu hw)
  · rcases Nat.lt_or_gt_of_ne hij with hij | hij
    · have := hpair i j u w hij hj hu hw
      omega
    · have := hpair j i w u hij hi hw hu
      omega
  · have := hus.attached u (mem_of_getElem? (hget i u hi hu))
    exact ⟨this.nonneg, this.bound⟩

/-- **Attached regions do not overlap.**  After any calls that meet `CallMeets`, by any processes,
every pregion table is sorted and ends with a null entry, and the segments of different pregions are
disjoint and end at or below `USRSTACK`. -/
theorem regions_disjoint (hs : v.Start) {cs : List (ℕ × VmCall)}
    (hC : StepsMeet VmSys.CallMeets vmStep v cs) (h : exec vmStep v cs = some w) :
    ∀ tbl ∈ w.p_region, ∃ k, w.InOrder tbl k := by
  have hl : Layout w :=
    exec_invariant (fun s c t hs hC h => vmStep_layout hs hC h) hs.layout hC h
  exact fun tbl htbl => hl.inOrder htbl

/-- Two processes with tables of four entries. -/
def newVmSys : VmSys where
  p_region := List.replicate 2 (List.replicate 4 nullpregion)
  region := fun _ => ⟨.priv, false, false, 0, 0, 0, 0, 0, 0, 0, []⟩
  mem := ⟨[], false, fun _ _ => .zero⟩

theorem newVmSys_start : newVmSys.Start where
  tables tbl htbl := ⟨3, eq_of_mem_replicate htbl⟩
  sized _ := by
    show Reg.Sized ⟨.priv, false, false, 0, 0, 0, 0, 0, 0, 0, []⟩
    decide
  refcnt _ := rfl

/-- Growth with enough memory, and the table pairs `tabs`. -/
def roomyEnv (tabs : List ℕ) : GrowEnv :=
  ⟨100000, 100000, 25, 25, none, true, tabs, fun _ => (false, false)⟩

instance : Decidable (s.Fits e change) := inferInstanceAs (Decidable (_ → _))

instance (s : VmSys) : (c : ℕ × VmCall) → Decidable (s.CallMeets c)
  | (_, .attach ..) => inferInstanceAs (Decidable (_ ∧ _))
  | (pi, .grow i e change _) =>
    inferInstanceAs (Decidable (∀ x ∈ s.growAt pi i e, x.2.2.1.Fits x.2.2.2 change))
  | (_, .detach ..) => inferInstanceAs (Decidable True)
  | (_, .other ..) => inferInstanceAs (Decidable True)

/-- A process with a data region and a stack that grows twice; the data region goes again. -/
theorem regions_disjoint_run : ∃ w, exec vmStep newVmSys
      [(0, .attach 0 0 .data false), (0, .grow 0 (roomyEnv [1]) 10 DBD_DZERO),
        (0, .attach 1 USRSTACK .stack false), (0, .grow 1 (roomyEnv [2]) 20 DBD_DZERO),
        (0, .grow 1 (roomyEnv [3, 4]) 2000 DBD_DZERO),
        (0, .detach 0 false (roomyEnv []))] = some w ∧
    ∀ tbl ∈ w.p_region, ∃ k, w.InOrder tbl k := by
  obtain ⟨w, hw⟩ := isSome_iff_exists.mp (show (exec vmStep newVmSys
      [(0, .attach 0 0 .data false), (0, .grow 0 (roomyEnv [1]) 10 DBD_DZERO),
        (0, .attach 1 USRSTACK .stack false), (0, .grow 1 (roomyEnv [2]) 20 DBD_DZERO),
        (0, .grow 1 (roomyEnv [3, 4]) 2000 DBD_DZERO),
        (0, .detach 0 false (roomyEnv []))]).isSome by decide +kernel)
  exact ⟨w, hw, regions_disjoint newVmSys_start
    (stepsMeet_of_allSteps (c := fun s c => decide (s.CallMeets c))
      (fun s c h => of_decide_eq_true h) (by decide +kernel)) hw⟩

/-- A stack of one page grows by three segments, over a region that ends two segments below it. -/
theorem stack_over_region : (exec vmStep newVmSys
      [(0, .attach 1 USRSTACK .stack false), (0, .grow 0 (roomyEnv [1]) 1 DBD_DZERO),
        (0, .attach 0 (USRSTACK - stob 4) .shmem false),
        (0, .grow 0 (roomyEnv [2]) 1 DBD_DZERO),
        (0, .grow 1 (roomyEnv [3, 4, 5]) 3072 DBD_DZERO)]).map
      (fun w => w.p_region.map fun tbl => (tbl.filter fun u => u.p_reg.isSome).map fun u =>
        (u.p_regva, segEnd u.toPreg (u.reg w.region))) =
    some [[(USRSTACK - stob 4, USRSTACK - stob 3), (USRSTACK - stob 4, USRSTACK)], []] := by
  decide +kernel

end Os
