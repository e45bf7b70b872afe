import OpusSysV.Cmd.SccsRmdel
import OpusSysV.Cmd.SccsWoven

/-!
# The texts of the file that `rmdel` writes

* `viewIn` — the lines that are kept, with those between the insert brackets of a delta told apart.
* `view_strip` — what is kept of the new body.
* `setupLoop_without` — what applies when the delta is removed.
* `rmdel_text` — **which texts stay**.
-/

namespace Cmd.Sccs

open Function List Option

variable {code : ℕ → Code} {f g : SFile} {s m : ℕ} {b : Bool} {q u : List Queue} {ls : List Str}
  {sid : Sid} {c : Int32}

/-! ## The body -/

/-- Whether an insert bracket of delta `s` is open behind the line. -/
def inside (s : ℕ) (b : Bool) (line : Str) : Bool :=
  match parse line with
  | some (iord, n) => if n = s then iord = INS else b
  | none => b

/-- The lines that are kept, each with whether an insert bracket of delta `s` is open there. -/
def viewIn (code : ℕ → Code) (s : ℕ) : Bool → List Queue → List Str → Option (List (Bool × Str))
  | _, q, [] => if q = [] then some [] else none
  | b, q, l :: ls =>
    if IsCtl l then (ctl code q l).bind fun q => viewIn code s (inside s b l) q ls
    else if setkeep q then (viewIn code s b q ls).map ((b, l) :: ·) else viewIn code s b q ls

theorem viewIn_view (ls : List Str) : ∀ b q, (viewIn code s b q ls).map (List.map Prod.snd) = view code q ls := by
  induction ls with
  | nil =>
    intro b q
    unfold viewIn view
    split <;> rfl
  | cons l ls ih =>
    intro b q
    unfold viewIn view
    split
    · rw [Option.map_bind]
      exact Option.bind_congr fun u _ => ih _ u
    · split
      · rw [Option.map_map, ← ih b q, Option.map_map]
        rfl
      · exact ih b q

/-- The queue without delta `s`. -/
def without (s : ℕ) (q : List Queue) : List Queue := q.filter fun x => x.q_sernum ≠ s

theorem without_cons {x : Queue} (h : x.q_sernum ≠ s) : without s (x :: q) = x :: without s q :=
  filter_cons_of_pos (by simpa using h)

theorem without_self {x : Queue} (h : x.q_sernum = s) : without s (x :: q) = without s q :=
  filter_cons_of_neg (by simpa using h)

theorem addq_without {e : Queue} (hq : Sorted q) (he : e.q_sernum ≠ s) (h : addq q e = some u) :
    addq (without s q) e = some (without s u) := by
  induction q generalizing u with
  | nil =>
    cases h
    simp [without, addq, he]
  | cons x q ih =>
    obtain ⟨hx, hq'⟩ := pairwise_cons.mp hq
    unfold addq at h
    split at h
    next hle =>
      split at h
      next => cases h
      next hne =>
        cases h
        have hlt : x.q_sernum < e.q_sernum := Nat.lt_of_le_of_ne hle hne
        have hall : ∀ y ∈ without s (x :: q), y.q_sernum < e.q_sernum := by
          intro y hy
          rcases mem_cons.mp (mem_of_mem_filter hy) with rfl | hy
          · exact hlt
          · exact (hx y hy).trans hlt
        rw [without_cons he]
        cases hw : without s (x :: q) with
        | nil => rfl
        | cons y ys =>
          have hy := hall y (by rw [hw]; exact mem_cons_self)
          rw [addq, if_pos hy.le, if_neg hy.ne]
    next hgt =>
      obtain ⟨v, hv, rfl⟩ := map_eq_some_iff.mp h
      have hrec := ih hq' hv
      by_cases hxs : x.q_sernum = s
      · rw [without_self hxs, without_self hxs, hrec]
      · rw [without_cons hxs, without_cons hxs, addq, if_neg hgt, hrec]
        rfl

theorem addq_self {e : Queue} (he : e.q_sernum = s) (h : addq q e = some u) : without s u = without s q := by
  induction q generalizing u with
  | nil =>
    cases h
    simp [without, he]
  | cons x q ih =>
    unfold addq at h
    split at h
    · split at h
      · cases h
      · cases h
        exact without_self he
    · obtain ⟨v, hv, rfl⟩ := map_eq_some_iff.mp h
      have := ih hv
      unfold without at this ⊢
      rw [filter_cons, filter_cons, this]

theorem remq_without {ser : ℕ} (hs : ser ≠ s) (h : remq q ser = some u) :
    remq (without s q) ser = some (without s u) := by
  induction q generalizing u with
  | nil => cases h
  | cons x q ih =>
    unfold remq at h
    split at h
    next hx =>
      cases h
      rw [without_cons (hx ▸ hs), remq, if_pos hx]
    next hx =>
      obtain ⟨v, hv, rfl⟩ := map_eq_some_iff.mp h
      have hrec := ih hv
      by_cases hxs : x.q_sernum = s
      · rw [without_self hxs, without_self hxs, hrec]
      · rw [without_cons hxs, without_cons hxs, remq, if_neg hx, hrec]
        rfl

theorem remq_self (h : remq q s = some u) : without s u = without s q := by
  induction q generalizing u with
  | nil => cases h
  | cons x q ih =>
    unfold remq at h
    split at h
    next hx =>
      cases h
      exact (without_self hx).symm
    next hx =>
      obtain ⟨v, hv, rfl⟩ := map_eq_some_iff.mp h
      have := ih hv
      unfold without at this ⊢
      rw [filter_cons, filter_cons, this]

theorem notMem_of_addq {e : Queue} (hq : Sorted q) (h : addq q e = some u) : e.q_sernum ∉ sers q := by
  induction q generalizing u with
  | nil => exact nofun
  | cons x q ih =>
    obtain ⟨hx, hq'⟩ := pairwise_cons.mp hq
    unfold addq at h
    intro hmem
    split at h
    next hle =>
      split at h
      next => cases h
      next hne =>
        rcases mem_cons.mp hmem with heq | hmem
        · exact hne heq.symm
        · obtain ⟨y, hy, heq⟩ := mem_sers.mp hmem
          have := hx y hy
          omega
    next hgt =>
      obtain ⟨v, hv, rfl⟩ := map_eq_some_iff.mp h
      rcases mem_cons.mp hmem with heq | hmem
      · exact hgt heq.ge
      · exact ih hq' hv hmem

theorem notMem_of_remq {ser : ℕ} (hq : Sorted q) (h : remq q ser = some u) : ser ∉ sers u := by
  induction q generalizing u with
  | nil => cases h
  | cons x q ih =>
    obtain ⟨hx, hq'⟩ := pairwise_cons.mp hq
    unfold remq at h
    split at h
    next hxs =>
      cases h
      intro hmem
      obtain ⟨y, hy, heq⟩ := mem_sers.mp hmem
      have := hx y hy
      omega
    next hxs =>
      obtain ⟨v, hv, rfl⟩ := map_eq_some_iff.mp h
      intro hmem
      rcases mem_cons.mp hmem with heq | hmem
      · exact hxs heq.symm
      · exact ih hq' hv hmem

theorem setkeep_without (h : ∀ x ∈ q, x.q_sernum = s → x.q_keep = .NULL) :
    setkeep (without s q) = setkeep q := by
  induction q with
  | nil => rfl
  | cons x q ih =>
    obtain ⟨hx, hrest⟩ := forall_mem_cons.mp h
    by_cases hxs : x.q_sernum = s
    · rw [without_self hxs, ih hrest, setkeep, if_pos (hx hxs)]
    · rw [without_cons hxs, setkeep, setkeep, ih hrest]

/-- A bracket of another delta. -/
theorem bracket_without {iord : Char} {n : ℕ} (hq : Sorted q) (hn : n ≠ s)
    (h : bracket code q iord n = some u) : bracket code (without s q) iord n = some (without s u) := by
  unfold bracket at h ⊢
  split at h
  next hend =>
    rw [if_pos hend]
    exact remq_without hn h
  next hend =>
    rw [if_neg hend]
    exact addq_without hq hn h

/-- A bracket of delta `s`, which does not apply. -/
theorem bracket_self {iord : Char} (hs : code s ≠ .APPLY) (hq : Sorted q)
    (h : bracket code q iord s = some u) : without s u = without s q ∧
      (iord ≠ INS → ∀ x ∈ u, x.q_sernum = s → x.q_keep = .NULL) := by
  unfold bracket at h
  split at h
  next hend =>
    refine ⟨remq_self h, fun _ x hx hxs => ?_⟩
    exact absurd (hxs ▸ sernum_mem_sers hx) (notMem_of_remq hq h)
  next hend =>
    refine ⟨addq_self rfl h, fun hins x hx hxs => ?_⟩
    rcases mem_of_addq h hx with hx | rfl
    · have hmem : s ∈ sers q := hxs ▸ sernum_mem_sers hx
      exact absurd hmem (notMem_of_addq hq h)
    · show keepOf code iord s = .NULL
      unfold keepOf
      rw [if_neg hs, if_neg hins]

/-- A bracket of another delta leaves delta `s` alone. -/
theorem mem_of_bracket {iord : Char} {n : ℕ} (hn : n ≠ s) (h : bracket code q iord n = some u)
    {x : Queue} (hx : x ∈ u) (hxs : x.q_sernum = s) : x ∈ q := by
  unfold bracket at h
  split at h
  · exact mem_of_remq h hx
  · rcases mem_of_addq h hx with hx | rfl
    · exact hx
    · exact absurd hxs hn

/-- What is left when the lines in the insert brackets of delta `s` are dropped. -/
def outside (vs : List (Bool × Str)) : List Str := (vs.filter fun v => !v.1).map Prod.snd

/-- **What is kept of the new body**, when the removed delta does not apply: the lines that were kept
before, but not those between its insert brackets. -/
theorem view_strip (hs : code s ≠ .APPLY) : ∀ {ls : List Str} {b : Bool} {q : List Queue} {o : Finset ℕ},
    brackets o ls = true → Sorted q → (∀ n, n ∈ sers q ↔ n ∈ o) →
      (b = false → ∀ x ∈ q, x.q_sernum = s → x.q_keep = .NULL) →
      view code (without s q) (strip s (!b) ls) = (viewIn code s b q ls).map outside := by
  intro ls
  induction ls with
  | nil =>
    intro b q o hb _ hso _
    have ho : o = ∅ := of_decide_eq_true hb
    have hq : q = [] := by
      refine eq_nil_iff_forall_not_mem.mpr fun x hx => ?_
      have := (hso x.q_sernum).mp (sernum_mem_sers hx)
      rw [ho] at this
      exact Finset.notMem_empty _ this
    rw [hq]
    rfl
  | cons l ls ih =>
    intro b q o hb hq hso hnull
    unfold viewIn strip
    by_cases hl : IsCtl l
    · obtain ⟨u, o', hu, hsu, hso', hb'⟩ := @ctl_spec code _ _ _ _ hb hl hq hso
      obtain ⟨⟨iord, n⟩, hp, hbr⟩ := bind_eq_some_iff.mp hu
      rw [if_pos hl, if_pos hl, hu, hp, bind_some]
      dsimp only at hbr ⊢
      by_cases hn : n = s
      · subst hn
        obtain ⟨hsame, hself⟩ := bracket_self hs hq hbr
        have hin : inside n b l = decide (iord = INS) := by
          unfold inside
          rw [hp]
          exact if_pos rfl
        have hrec := ih (b := decide (iord = INS)) hb' hsu hso' fun hf => hself (of_decide_eq_false hf)
        rw [if_pos rfl, hin, ← hrec, hsame, decide_not]
      · have hin : inside s b l = b := by
          unfold inside
          rw [hp]
          exact if_neg hn
        have hrec := ih (b := b) hb' hsu hso' fun hf x hx hxs =>
          hnull hf x (mem_of_bracket hn hbr hx hxs) hxs
        have hctl : ctl code (without s q) l = some (without s u) := by
          unfold ctl
          rw [hp, bind_some]
          exact bracket_without hq hn hbr
        rw [if_neg hn, hin, ← hrec, view, if_pos hl, hctl, bind_some]
    · unfold brackets at hb
      rw [if_neg hl] at hb ⊢
      rw [if_neg hl]
      have hrec := ih hb hq hso hnull
      cases b with
      | true =>
        rw [show (!true) = false from rfl] at hrec ⊢
        rw [if_neg Bool.false_ne_true, hrec]
        split
        · rw [Option.map_map]
          rfl
        · rfl
      | false =>
        rw [show (!false) = true from rfl] at hrec ⊢
        rw [if_pos rfl, view, if_neg hl, setkeep_without (hnull rfl), hrec]
        split
        · rw [Option.map_map, Option.map_map]
          rfl
        · rfl

theorem outside_eq {vs : List (Bool × Str)} : outside vs = vs.map Prod.snd ↔ ∀ v ∈ vs, v.1 = false := by
  unfold outside
  constructor
  · intro h
    have hlen := congrArg List.length h
    rw [length_map, length_map, length_filter_eq_length_iff] at hlen
    exact fun v hv => by simpa using hlen v hv
  · intro h
    rw [filter_eq_self.mpr fun v hv => by simpa using h v hv]

/-! ## What applies -/

theorem setupOne_congr {idel idel' : ℕ → Idel} {n : ℕ} (h : idel n = idel' n) (ap : ℕ → Apply) :
    setupOne idel c n ap = setupOne idel' c n ap := by
  unfold setupOne
  rw [h]

/-- The same deltas apply when one is removed that does not, and that nothing has as its predecessor. -/
theorem setupLoop_without {idel : ℕ → Idel} (hleaf : ∀ n, s < n → n ≤ m → (idel n).i_pred ≠ s) (k : ℕ) :
    ∀ {ap ap' : ℕ → Apply}, k ≤ m → (s ≤ k → (ap s).a_inline = false) →
      setupLoop idel c k ap = some ap' → (ap' s).a_code ≠ .APPLY →
        setupLoop (update idel s Idel.zero) c k ap = some ap' := by
  induction k with
  | zero => exact fun _ _ h _ => h
  | succ k ih =>
    intro ap ap' hk hin h hcode
    obtain ⟨u, hu, h⟩ := bind_eq_some_iff.mp h
    by_cases hks : k + 1 = s
    · have hoff : (ap s).a_inline = false := hin hks.ge
      obtain ⟨v, hv⟩ : ∃ v, v = update ap s (condset (ap s) .NOAPPLY 0) := ⟨_, rfl⟩
      have hstep : ∀ idel : ℕ → Idel, setupOne idel c s ap =
          some (if (v s).a_code = .APPLY then ixgsetup v (idel s).i_ixg else v) := by
        intro idel
        unfold setupOne
        dsimp only
        rw [hoff, if_neg nofun, ← hv]
      rw [hks, hstep] at hu
      have hvs : (v s).a_code ≠ .APPLY := by
        intro happly
        rw [if_pos happly] at hu
        cases hu
        have hfix : (ixgsetup v (idel s).i_ixg s).a_code = .APPLY := by
          rw [ixgsetup_fixed _ (by rw [happly]; nofun), happly]
        exact hcode (by rw [setupLoop_fixed k h (by rw [hfix]; nofun), hfix])
      rw [if_neg hvs] at hu
      cases hu
      have hrec := ih (by omega) (fun hle => by omega) h hcode
      rw [setupLoop, hks, hstep, if_neg hvs]
      exact hrec
    · have hrec := ih (by omega) (fun hle => ?_) h hcode
      · rw [setupLoop, ← @setupOne_congr _ idel _ _ (update_of_ne hks _ _).symm, hu]
        exact hrec
      · refine Bool.eq_false_iff.mpr fun hon => ?_
        rcases setupOne_inline hu s hon with h' | ⟨_, h'⟩
        · rw [hin (by omega)] at h'
          cases h'
        · exact hleaf (k + 1) (by omega) hk h'.symm

/-! ## The new file -/

/-- Delta `s` applies to delta `t`. -/
def Applies (f : SFile) (s t : ℕ) (c : Int32) : Prop :=
  ∃ ap, setup f t c = some ap ∧ (ap s).a_code = .APPLY

/-- The text of delta `t` has a line between insert brackets of delta `s`. -/
def KeepsInside (f : SFile) (s t : ℕ) (c : Int32) : Prop :=
  ∃ ap vs, setup f t c = some ap ∧
    viewIn (fun n => (ap n).a_code) s false [] f.body = some vs ∧ ∃ v ∈ vs, v.1 = true

/-- **Which texts stay.**  The new file is well formed.  A delta to which the removed one does not apply
keeps its text exactly when no line of it is between the insert brackets of the removed one. -/
theorem rmdel_text (hf : WF f) (hr : Released f.table) (hs : IsDelta f (f.sidtoser sid))
    (h : rmdel f sid = some g) :
    WF g ∧ ∀ t, IsDelta f t → t ≠ f.sidtoser sid → ∀ c, ¬ Applies f (f.sidtoser sid) t c →
      (g.text t c = f.text t c ↔ ¬ KeepsInside f (f.sidtoser sid) t c) := by
  have hwf := rmdel_wf hf hr hs h
  refine ⟨hwf, fun t ht hne c hno => ?_⟩
  obtain ⟨rfl, hleaf⟩ := rmdel_spec hf hr hs h
  obtain ⟨s, hser⟩ : ∃ s, s = f.sidtoser sid := ⟨_, rfl⟩
  rw [← hser] at hleaf hno hwf hne ⊢
  obtain ⟨ap, hap⟩ := isSome_iff_exists.mp (setup_isSome hf ht c)
  have hcode : (ap s).a_code ≠ .APPLY := fun hs => hno ⟨ap, hap, hs⟩
  have hsetup : setup ⟨f.table.map (mark s), strip s true f.body⟩ t c = some ap := by
    rw [setup_eq, marked_idel hf, marked_maxser]
    refine setupLoop_without hleaf f.maxser le_rfl (fun _ => Bool.eq_false_iff.mpr fun hon => ?_) hap hcode
    exact hne (startAt_inline.mp hon).symm
  have hstrip := @view_strip (fun n => (ap n).a_code) s hcode _ false [] _
    hf.brackets List.Pairwise.nil (fun n => by simp [sers]) nofun
  have hview := @viewIn_view (fun n => (ap n).a_code) s f.body false []
  obtain ⟨old, hold⟩ := isSome_iff_exists.mp (@view_isSome (fun n => (ap n).a_code) _ _
    hf.brackets [] List.Pairwise.nil (fun n => by simp [sers]))
  obtain ⟨vs, hvs, hsnd⟩ := map_eq_some_iff.mp (hview.trans hold)
  have hnew : SFile.text ⟨f.table.map (mark s), strip s true f.body⟩ t c = some (outside vs) := by
    rw [hwf.text_eq, hsetup, bind_some]
    rw [hvs] at hstrip
    exact hstrip
  rw [hnew, hf.text_eq, hap, bind_some, hold, ← hsnd, some_inj, outside_eq]
  constructor
  · rintro hall ⟨ap', vs', hap', hvs', v, hv, htrue⟩
    cases hap.symm.trans hap'
    cases hvs.symm.trans hvs'
    rw [hall v hv] at htrue
    cases htrue
  · exact fun hnone v hv => Bool.eq_false_iff.mpr fun htrue => hnone ⟨ap, vs, hap, hvs, v, hv, htrue⟩

/-! ### Runs -/

/-- Delta 1.2 is made with 1.1.1.1 included, and has a line behind the one of 1.1.1.1; delta 1.3 excludes
1.1.1.1. -/
def included : SFile where
  table := [
    ⟨⟨1, 3, 0, 0⟩, 4, 3, 0, 'D', [⟨.EXCLUDE, [2]⟩]⟩,
    ⟨⟨1, 2, 0, 0⟩, 3, 1, 0, 'D', [⟨.INCLUDE, [2]⟩]⟩,
    ⟨⟨1, 1, 1, 1⟩, 2, 1, 0, 'D', []⟩,
    ⟨⟨1, 1, 0, 0⟩, 1, 0, 0, 'D', []⟩]
  body := [ctlline INS 1, ['a', '\n'], ctlline INS 2, ['b', '\n'], ctlline INS 3, ['c', '\n'],
    ctlline END 3, ctlline END 2, ctlline END 1]

theorem included_wf : WF included := by
  refine ⟨by decide, by decide, by decide, by decide +kernel, by decide +kernel, fun l hl hctl => ?_⟩
  simp only [included, mem_cons, not_mem_nil, or_false] at hl
  rcases hl with rfl | rfl | rfl | rfl | rfl | rfl | rfl | rfl | rfl
  all_goals first | exact absurd (isCtl_ctlline _ _) hctl | exact textLine_short _ (by decide)

/-- The newest delta is removed. -/
theorem included_newest : ∃ g, rmdel included ⟨1, 3, 0, 0⟩ = some g ∧ WF g ∧
    g.text 3 Int32.maxValue = included.text 3 Int32.maxValue := by
  obtain ⟨g, hg⟩ := isSome_iff_exists.mp
    (show (rmdel included ⟨1, 3, 0, 0⟩).isSome = true by decide +kernel)
  have hser : included.sidtoser ⟨1, 3, 0, 0⟩ = 4 := by decide +kernel
  have htexts := rmdel_text (f := included) included_wf (by decide)
    (by rw [hser]; exact ⟨_, mem_cons_self, rfl, rfl⟩) hg
  rw [hser] at htexts
  have hcode : (setup included 3 Int32.maxValue).map (fun ap => (ap 4).a_code) = some .NOAPPLY := by
    decide +kernel
  have hlines : ((setup included 3 Int32.maxValue).bind fun ap =>
      (viewIn (fun n => (ap n).a_code) 4 false [] included.body).map fun vs => vs.any (·.1)) =
        some false := by decide +kernel
  refine ⟨g, hg, htexts.1, (htexts.2 3 ⟨_, mem_cons_of_mem _ mem_cons_self, rfl, rfl⟩
    (by decide) _ ?_).mpr ?_⟩
  · rintro ⟨ap, hap, happly⟩
    rw [hap, map_some, happly] at hcode
    cases hcode
  · rintro ⟨ap, vs, hap, hvs, v, hv, htrue⟩
    rw [hap, bind_some, hvs, map_some, some_inj] at hlines
    rw [List.any_eq_false] at hlines
    exact hlines v hv htrue

/-- **A leaf that others use.**  Delta 1.1.1.1 is removed: 1.2 loses its own line with it, and so does 1.3,
to which 1.1.1.1 does not apply. -/
theorem included_leaf : ∃ g, WF included ∧ Released included.table ∧
    IsDelta included (included.sidtoser ⟨1, 1, 1, 1⟩) ∧ rmdel included ⟨1, 1, 1, 1⟩ = some g ∧
    included.text 3 Int32.maxValue = some [['a', '\n'], ['b', '\n'], ['c', '\n']] ∧
    g.text 3 Int32.maxValue = some [['a', '\n']] ∧
    included.text 4 Int32.maxValue = some [['a', '\n'], ['c', '\n']] ∧
    g.text 4 Int32.maxValue = some [['a', '\n']] := by
  obtain ⟨g, hg⟩ := isSome_iff_exists.mp
    (show (rmdel included ⟨1, 1, 1, 1⟩).isSome = true by decide +kernel)
  have hser : included.sidtoser ⟨1, 1, 1, 1⟩ = 2 := by decide +kernel
  have htext : ∀ t ∈ [3, 4], (rmdel included ⟨1, 1, 1, 1⟩).bind (·.text t Int32.maxValue) =
      some [['a', '\n']] := by decide +kernel
  rw [hg] at htext
  refine ⟨g, included_wf, by decide, ?_, hg, by decide +kernel, htext 3 (by simp), by decide +kernel,
    htext 4 (by simp)⟩
  rw [hser]
  exact ⟨⟨⟨1, 1, 1, 1⟩, 2, 1, 0, 'D', []⟩, by decide, rfl, rfl⟩

end Cmd.Sccs
