import OpusSysV.Cmd.SccsApply

/-!
# The table as it is used

* `IsDelta`, `idel_of_mem`, `idel_of_not_mem` — what is known of a serial number.
* `setup_isSome` — `setup` works for each delta of a well-formed file.
* `setupLoop_fixed` — what is set once stays.
* `setupLoop_skip`, `setupLoop_chain` — new deltas in front of the table.
-/

namespace Cmd.Sccs

open Function List Option

variable {idel : ℕ → Idel} {ap ap' : ℕ → Apply} {f : SFile} {m n : ℕ} {c : Int32}
  {table : List Deltab} {dt : Deltab}

/-- There is a delta with this serial number. -/
def IsDelta (f : SFile) (n : ℕ) : Prop := ∃ dt ∈ f.table, dt.d_type = 'D' ∧ dt.d_serial = n

/-- What `dodelt` keeps of an entry that it enters. -/
def Deltab.kept (dt : Deltab) : Idel := ⟨dt.d_sid, dt.ixg, dt.d_pred, dt.d_datetime⟩

/-! ## `dodelt` -/

theorem foldl_enterDelta_of_ne (h : ∀ dt ∈ table, dt.d_type = 'D' → dt.d_serial ≠ n) (idel : ℕ → Idel) :
    table.foldl SFile.enterDelta idel n = idel n := by
  induction table generalizing idel with
  | nil => rfl
  | cons dt table ih =>
    rw [foldl_cons, ih fun x hx => h x (mem_cons_of_mem _ hx)]
    unfold SFile.enterDelta
    split
    next hd => simp [(h dt mem_cons_self hd).symm]
    next => rfl

theorem foldl_enterDelta_of_mem (hp : table.Pairwise fun a b => b.d_serial < a.d_serial)
    (hdt : dt ∈ table) (hd : dt.d_type = 'D') :
    ∀ idel : ℕ → Idel, (idel dt.d_serial).i_ixg = [] →
      table.foldl SFile.enterDelta idel dt.d_serial = dt.kept := by
  induction table with
  | nil => cases hdt
  | cons x table ih =>
    intro idel hz
    obtain ⟨hx, hp'⟩ := pairwise_cons.mp hp
    rw [foldl_cons]
    rcases mem_cons.mp hdt with rfl | hdt
    · rw [foldl_enterDelta_of_ne fun y hy _ => (hx y hy).ne]
      unfold SFile.enterDelta
      rw [if_pos hd, update_self, hz]
      rfl
    · refine ih hp' hdt _ ?_
      unfold SFile.enterDelta
      split
      · simpa [(hx dt hdt).ne] using hz
      · exact hz

theorem idel_of_mem (hp : f.table.Pairwise fun a b => b.d_serial < a.d_serial) (hdt : dt ∈ f.table)
    (hd : dt.d_type = 'D') : f.idel dt.d_serial = dt.kept :=
  foldl_enterDelta_of_mem hp hdt hd _ rfl

theorem idel_of_not_mem (h : ¬ IsDelta f n) : f.idel n = Idel.zero :=
  foldl_enterDelta_of_ne (fun dt hdt hd hn => h ⟨dt, hdt, hd, hn⟩) _

/-- Two tables with the same deltas are used in the same way. -/
theorem idel_congr {g : SFile} (hf : f.table.Pairwise fun a b => b.d_serial < a.d_serial)
    (hg : g.table.Pairwise fun a b => b.d_serial < a.d_serial)
    (h : ∀ dt : Deltab, dt.d_serial = n → dt.d_type = 'D' → (dt ∈ f.table ↔ dt ∈ g.table)) :
    f.idel n = g.idel n := by
  by_cases hn : IsDelta f n
  · obtain ⟨dt, hdt, hd, rfl⟩ := hn
    rw [idel_of_mem hf hdt hd, idel_of_mem hg ((h dt rfl hd).mp hdt) hd]
  · rw [idel_of_not_mem hn, idel_of_not_mem]
    rintro ⟨dt, hdt, hd, rfl⟩
    exact hn ⟨dt, (h dt rfl hd).mpr hdt, hd, rfl⟩

theorem le_maxser (hf : WF f) (hdt : dt ∈ f.table) : dt.d_serial ≤ f.maxser := by
  have hp := hf.serials
  unfold SFile.maxser
  cases ht : f.table with
  | nil =>
    rw [ht] at hdt
    cases hdt
  | cons x table =>
    rw [ht] at hdt hp
    rcases mem_cons.mp hdt with rfl | hdt
    · exact le_rfl
    · exact ((pairwise_cons.mp hp).1 dt hdt).le

theorem IsDelta.le (hf : WF f) (h : IsDelta f n) : n ≤ f.maxser := by
  obtain ⟨dt, hdt, _, rfl⟩ := h
  exact le_maxser hf hdt

theorem IsDelta.pos (hf : WF f) (h : IsDelta f n) : 0 < n := by
  obtain ⟨dt, hdt, _, rfl⟩ := h
  exact hf.positive dt hdt

/-- The predecessor of a delta is one, unless it is the first. -/
theorem IsDelta.pred (hf : WF f) (h : IsDelta f n) (hn : n ≠ 1) :
    IsDelta f (f.idel n).i_pred ∧ (f.idel n).i_pred < n := by
  obtain ⟨dt, hdt, hd, rfl⟩ := h
  obtain ⟨p, hp, hpd, hser, hlt⟩ := hf.pred dt hdt hd hn
  rw [idel_of_mem hf.serials hdt hd]
  exact ⟨⟨p, hp, hpd, hser⟩, hlt⟩

/-! ## `setup` -/

/-- The setting with which `setup` begins. -/
def startAt (serial : ℕ) : ℕ → Apply :=
  update (fun _ => ⟨false, .SX_EMPTY, 0⟩) serial ⟨true, .SX_EMPTY, 0⟩

theorem setup_eq (f : SFile) (serial : ℕ) (c : Int32) :
    setup f serial c = setupLoop f.idel c f.maxser (startAt serial) := rfl

theorem startAt_inline {serial i : ℕ} : (startAt serial i).a_inline = true ↔ i = serial := by
  unfold startAt
  by_cases h : i = serial
  · subst h
    simp
  · simp [h]

theorem setupLoop_isSome (hf : WF f) (k : ℕ) :
    ∀ {ap}, (∀ i, 0 < i → i ≤ k → (ap i).a_inline = true → IsDelta f i) →
      (setupLoop f.idel c k ap).isSome := by
  induction k with
  | zero => exact fun _ => rfl
  | succ k ih =>
    intro ap hap
    have hself : (ap (k + 1)).a_inline = true → IsDelta f (k + 1) :=
      hap (k + 1) (Nat.succ_pos k) le_rfl
    have hone : ∃ u, setupOne f.idel c (k + 1) ap = some u := by
      unfold setupOne
      dsimp only
      split
      next hin =>
        rw [if_neg]
        · split <;> exact ⟨_, rfl⟩
        · rintro ⟨hne, hzero⟩
          have := ((hself hin).pred hf hne).1.pos hf
          omega
      next => exact ⟨_, rfl⟩
    obtain ⟨u, hu⟩ := hone
    unfold setupLoop
    rw [hu]
    refine ih fun i hpos hle hi => ?_
    rcases setupOne_inline hu i hi with h | ⟨h, rfl⟩
    · exact hap i hpos (Nat.le_succ_of_le hle) h
    · exact ((hself h).pred hf (by omega)).1

/-- `setup` works for each delta. -/
theorem setup_isSome (hf : WF f) (h : IsDelta f n) (c : Int32) : (setup f n c).isSome := by
  rw [setup_eq]
  refine setupLoop_isSome hf _ fun i _ _ hi => ?_
  rwa [startAt_inline.mp hi]

theorem condset_fixed {x : Apply} (h : x.a_code ≠ .SX_EMPTY) (code : Code) (reason : ℕ) :
    (condset x code reason).a_code = x.a_code := by
  unfold condset
  split
  · rfl
  · rfl

theorem ixgsetup_fixed {i : ℕ} (ixg : List Ixg) (h : (ap i).a_code ≠ .SX_EMPTY) :
    (ixgsetup ap ixg i).a_code = (ap i).a_code := by
  unfold ixgsetup
  induction ixg generalizing ap with
  | nil => rfl
  | cons cur ixg ih =>
    have hone : (ixgOne ap cur i).a_code = (ap i).a_code := by
      obtain ⟨code, reason, heq⟩ := ixgOne_eq cur
      rw [heq]
      generalize cur.i_ser = ns
      induction ns generalizing ap with
      | nil => rfl
      | cons n ns ihn =>
        rw [foldl_cons]
        have hset : (update ap n (condset (ap n) code reason) i).a_code = (ap i).a_code := by
          by_cases hn : i = n
          · subst hn
            rw [update_self, condset_fixed h]
          · rw [update_of_ne hn]
        rw [ihn (by rwa [hset]), hset]
    rw [foldl_cons, ih (by rwa [hone]), hone]

/-- A code that is set does not change any more. -/
theorem setupOne_fixed {i : ℕ} (h : setupOne idel c n ap = some ap') (hi : (ap i).a_code ≠ .SX_EMPTY) :
    (ap' i).a_code = (ap i).a_code := by
  have hlists : ∀ u : ℕ → Apply, (u i).a_code = (ap i).a_code →
      ((if (u n).a_code = .APPLY then ixgsetup u (idel n).i_ixg else u) i).a_code = (ap i).a_code := by
    intro u hu
    split
    · rw [ixgsetup_fixed _ (by rwa [hu]), hu]
    · exact hu
  have hupd : ∀ (u : ℕ → Apply) code reason, (u i).a_code = (ap i).a_code →
      (update u n (condset (u n) code reason) i).a_code = (ap i).a_code := by
    intro u code reason hu
    rw [update_apply]
    split_ifs with hin
    · subst hin
      rw [condset_fixed (by rwa [hu]), hu]
    · rw [hu]
  have hpred : ∀ p : ℕ, (update ap p { ap p with a_inline := true } i).a_code = (ap i).a_code := by
    intro p
    rw [update_apply]
    split_ifs with hip
    · rw [hip]
    · rfl
  unfold setupOne at h
  dsimp only at h
  split at h
  · split at h
    · cases h
    · split at h
      all_goals
        cases h
        exact hlists _ (hupd _ _ _ (hpred _))
  · cases h
    exact hlists _ (hupd _ _ _ rfl)

theorem setupLoop_fixed {i : ℕ} (k : ℕ) :
    ∀ {ap}, setupLoop idel c k ap = some ap' → (ap i).a_code ≠ .SX_EMPTY →
      (ap' i).a_code = (ap i).a_code := by
  induction k with
  | zero =>
    intro ap h _
    cases h
    rfl
  | succ k ih =>
    intro ap h hi
    obtain ⟨u, hu, h⟩ := bind_eq_some_iff.mp h
    have hone := setupOne_fixed hu hi
    rw [ih h (by rwa [hone]), hone]

/-! ## New deltas -/

/-- The deltas `m + 1`, `m + 2` and so on, the newest first, without lists; the predecessor of the first
is `opred`. -/
def Chain (m opred : ℕ) : List Deltab → Prop
  | [] => True
  | dt :: rest => dt.d_serial = m + rest.length + 1 ∧ dt.d_type = 'D' ∧ dt.ixg = [] ∧
      dt.d_pred = (if rest = [] then opred else m + rest.length) ∧ Chain m opred rest

variable {opred serial : ℕ} {l : List Deltab}

theorem Chain.mem (h : Chain m opred l) (hdt : dt ∈ l) :
    m < dt.d_serial ∧ dt.d_serial ≤ m + l.length ∧ dt.d_type = 'D' ∧ dt.ixg = [] ∧
      (dt.d_pred = opred ∨ ∃ p ∈ l, p.d_serial = dt.d_pred ∧ dt.d_pred < dt.d_serial) := by
  induction l with
  | nil => cases hdt
  | cons x rest ih =>
    obtain ⟨hser, hd, hixg, hpred, hrest⟩ := h
    rcases mem_cons.mp hdt with rfl | hdt
    · refine ⟨by omega, by rw [hser, length_cons]; omega, hd, hixg, ?_⟩
      cases hr : rest with
      | nil => exact .inl (by rw [hpred, if_pos hr])
      | cons y ys =>
        have hy : y.d_serial = m + rest.length := by
          rw [hr] at hrest ⊢
          rw [hrest.1, length_cons]
          rfl
        have hp : dt.d_pred = m + rest.length := by rw [hpred, if_neg (by rw [hr]; simp)]
        exact .inr ⟨y, by simp, by rw [hy, hp], by omega⟩
    · obtain ⟨h1, h2, h3, h4, h5⟩ := ih hrest hdt
      refine ⟨h1, by rw [length_cons]; omega, h3, h4, h5.imp_right ?_⟩
      rintro ⟨p, hp, hlt⟩
      exact ⟨p, mem_cons_of_mem _ hp, hlt⟩

theorem Chain.pairwise (h : Chain m opred l) : l.Pairwise fun a b => b.d_serial < a.d_serial := by
  induction l with
  | nil => exact List.Pairwise.nil
  | cons x rest ih =>
    obtain ⟨hser, _, _, _, hrest⟩ := h
    refine pairwise_cons.mpr ⟨fun y hy => ?_, ih hrest⟩
    have := (hrest.mem hy).2.1
    omega

end Cmd.Sccs
