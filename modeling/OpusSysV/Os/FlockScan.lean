import OpusSysV.Os.Flock

/-!
# The scan of `flckadj`

* `LockList` — the shape of a lock list: ordered by start, the locks of one owner
  disjoint, and not touching when they have the same type.
* `WithRequest` — the bytes locked by a list together with a request not inserted yet.
  No turn of the scan changes it, whether it releases, trims, splits or absorbs a lock:
  `turn_cases` sorts the cases of the switch by what they do, and `scan_spec` follows the
  scan.
-/

namespace Os

open List

/-! ## Lock lists -/

/-- The order of two locks of a list. -/
def Sep (f g : Filock) : Prop :=
  f.set.lStart ≤ g.set.lStart ∧ (f.owner = g.owner → f.set.lEnd < g.set.lStart ∧
    (f.set.lType = g.set.lType → f.set.lEnd + 1 < g.set.lStart))

/-- A lock that may stand in a list. -/
def Filock.Valid (f : Filock) : Prop :=
  f.set.lStart ≤ f.set.lEnd ∧ (f.set.lType = .rdlck ∨ f.set.lType = .wrlck)

/-- Sorted by start; the locks of one owner disjoint, those of one owner and type not
touching. -/
structure LockList (l : List Filock) : Prop where
  valid : ∀ f ∈ l, f.Valid
  sep : l.Pairwise Sep

/-- The owner holds a lock of the type on byte `b`. -/
def Holds (l : List Filock) (o : Owner) (b : ℤ) (ty : LockType) : Prop :=
  ∃ f ∈ l, f.owner = o ∧ f.set.lType = ty ∧ f.set.lStart ≤ b ∧ b ≤ f.set.lEnd

variable {me o : Owner} {b : ℤ} {ty : LockType} {l l' front rest : List Filock} {f g flp : Filock}
  {ld : Flock} {sc : Scan} {idx : ℕ}

theorem holds_append : Holds (l ++ l') o b ty ↔ Holds l o b ty ∨ Holds l' o b ty := by
  simp only [Holds, mem_append, or_and_right, exists_or]

theorem holds_cons : Holds (f :: l) o b ty ↔
    (f.owner = o ∧ f.set.lType = ty ∧ f.set.lStart ≤ b ∧ b ≤ f.set.lEnd) ∨ Holds l o b ty := by
  simp only [Holds, mem_cons, or_and_right, exists_or, exists_eq_left]

theorem lockList_append : LockList (l ++ l') ↔
    LockList l ∧ LockList l' ∧ ∀ f ∈ l, ∀ g ∈ l', Sep f g := by
  constructor
  · rintro ⟨hv, hs⟩
    obtain ⟨h1, h2, h3⟩ := pairwise_append.mp hs
    exact ⟨⟨fun f hf => hv f (mem_append_left _ hf), h1⟩,
      ⟨fun f hf => hv f (mem_append_right _ hf), h2⟩, h3⟩
  · rintro ⟨⟨v1, s1⟩, ⟨v2, s2⟩, h⟩
    refine ⟨fun f hf => ?_, pairwise_append.mpr ⟨s1, s2, h⟩⟩
    rcases mem_append.mp hf with hf | hf
    · exact v1 f hf
    · exact v2 f hf

theorem lockList_cons : LockList (f :: l) ↔ f.Valid ∧ (∀ g ∈ l, Sep f g) ∧ LockList l := by
  constructor
  · rintro ⟨hv, hs⟩
    obtain ⟨h1, h2⟩ := pairwise_cons.mp hs
    exact ⟨hv f mem_cons_self, h1, fun g hg => hv g (mem_cons_of_mem _ hg), h2⟩
  · rintro ⟨hf, h, hv, hs⟩
    exact ⟨forall_mem_cons.mpr ⟨hf, hv⟩, pairwise_cons.mpr ⟨h, hs⟩⟩

/-- A list without one of its locks. -/
theorem LockList.delete (h : LockList (front ++ flp :: rest)) : LockList (front ++ rest) := by
  obtain ⟨h1, h2, h3⟩ := lockList_append.mp h
  exact lockList_append.mpr ⟨h1, (lockList_cons.mp h2).2.2,
    fun f hf g hg => h3 f hf g (mem_cons_of_mem _ hg)⟩

/-- A byte is held by an owner in one way only. -/
theorem LockList.unique (h : LockList l) (hf : f ∈ l) (h1 : f.set.lStart ≤ b)
    (h2 : b ≤ f.set.lEnd) (hh : Holds l f.owner b ty) : ty = f.set.lType := by
  obtain ⟨g, hg, hown, hty, h3, h4⟩ := hh
  obtain ⟨l₁, l₂, rfl⟩ := append_of_mem hf
  obtain ⟨-, h', hcross⟩ := lockList_append.mp h
  rcases mem_append.mp hg with hg | hg
  · have := ((hcross g hg f mem_cons_self).2 hown).1
    omega
  rcases mem_cons.mp hg with rfl | hg
  · exact hty.symm
  · have := (((lockList_cons.mp h').2.1 g hg).2 hown.symm).1
    omega

/-! ## The bytes of a list and a pending request -/

/-- What a list locks once the request `ld` of `me` is put into it. -/
def WithRequest (me : Owner) (ld : Flock) (l : List Filock) (o : Owner) (b : ℤ) (ty : LockType) :
    Prop :=
  if o = me ∧ ld.lStart ≤ b ∧ b ≤ ld.lEnd then ty = ld.lType ∧ ty ≠ .unlck else Holds l o b ty

/-- Lists that agree outside the request agree with it. -/
theorem withRequest_congr
    (h : ∀ o b ty, ¬ (o = me ∧ ld.lStart ≤ b ∧ b ≤ ld.lEnd) → (Holds l o b ty ↔ Holds l' o b ty))
    (o : Owner) (b : ℤ) (ty : LockType) :
    WithRequest me ld l o b ty ↔ WithRequest me ld l' o b ty := by
  rw [WithRequest, WithRequest]
  split_ifs with hc
  · rfl
  · exact h o b ty hc

/-- What a turn of the scan does, by the position of the request and the lock. -/
inductive TurnCases (sc : Scan) (idx : ℕ) (flp : Filock) (rest : List Filock) : Turn → Prop
  /-- The request overlays the lock, which is deleted. -/
  | drop (sc' : Scan) (hs : sc.ld.lStart ≤ flp.set.lStart) (he : flp.set.lEnd ≤ sc.ld.lEnd)
      (hld : sc'.ld = sc.ld) (hins : sc'.insrtp = sc.insrtp ∧ sc.ld.lStart < flp.set.lStart ∨
        sc'.insrtp = idx ∧ sc.ld.lStart = flp.set.lStart) :
      TurnCases sc idx flp rest (.goOn none sc')
  /-- The request overlays the end of a lock of another type, which is released. -/
  | trim (sc' : Scan) (cut : Filock) (hs : flp.set.lStart < sc.ld.lStart)
      (hm : sc.ld.lStart ≤ flp.set.lEnd) (he : flp.set.lEnd ≤ sc.ld.lEnd)
      (hty : sc.ld.lType ≠ flp.set.lType) (hld : sc'.ld = sc.ld) (hins : sc'.insrtp = idx + 1)
      (hcut : cut.set = { flp.set with lEnd := sc.ld.lStart - 1 } ∧ cut.owner = flp.owner) :
      TurnCases sc idx flp rest (.goOn (some cut) sc')
  /-- A lock of the same type reaches up to the request or into it. -/
  | absorbLeft (sc' : Scan) (hs : flp.set.lStart < sc.ld.lStart)
      (hm : sc.ld.lStart ≤ flp.set.lEnd + 1) (he : flp.set.lEnd ≤ sc.ld.lEnd)
      (hty : sc.ld.lType = flp.set.lType) (hld : sc'.ld = { sc.ld with lStart := flp.set.lStart })
      (hins : sc'.insrtp = idx) : TurnCases sc idx flp rest (.goOn none sc')
  /-- The lock ends before the request. -/
  | keep (sc' : Scan) (he : flp.set.lEnd < sc.ld.lStart)
      (hty : sc.ld.lType = flp.set.lType → flp.set.lEnd + 1 < sc.ld.lStart)
      (hld : sc'.ld = sc.ld) (hins : sc'.insrtp = sc.insrtp ∨ sc'.insrtp = idx + 1) :
      TurnCases sc idx flp rest (.goOn (some flp) sc')
  /-- The lock starts after the request. -/
  | beyond (hs : sc.ld.lEnd < flp.set.lStart)
      (hty : sc.ld.lType = flp.set.lType → sc.ld.lEnd + 1 < flp.set.lStart) :
      TurnCases sc idx flp rest (.stop (flp :: rest) sc)
  /-- A lock of the same type goes on where the request ends. -/
  | absorbRight (sc' : Scan) (hs : sc.ld.lStart < flp.set.lStart)
      (hm : flp.set.lStart ≤ sc.ld.lEnd + 1) (he : sc.ld.lEnd ≤ flp.set.lEnd)
      (hty : sc.ld.lType = flp.set.lType) (hld : sc'.ld = { sc.ld with lEnd := flp.set.lEnd })
      (hins : sc'.insrtp = sc.insrtp) : TurnCases sc idx flp rest (.stop rest sc')
  /-- The request overlays the beginning of a lock of another type. -/
  | splitOff (sc' : Scan) (hs : sc.ld.lStart ≤ flp.set.lStart) (hm : flp.set.lStart ≤ sc.ld.lEnd)
      (he : sc.ld.lEnd < flp.set.lEnd) (hty : sc.ld.lType ≠ flp.set.lType) (hld : sc'.ld = sc.ld)
      (hins : sc'.insrtp = sc.insrtp ∧ sc.ld.lStart < flp.set.lStart ∨
        sc'.insrtp = idx ∧ sc.ld.lStart = flp.set.lStart) :
      TurnCases sc idx flp rest (.stop
        (insertWalk (newLock flp.owner { flp.set with lStart := sc.ld.lEnd + 1 }) rest) sc')
  /-- The request lies inside a lock of another type. -/
  | splitBoth (sc' : Scan) (cut : Filock) (hs : flp.set.lStart < sc.ld.lStart)
      (he : sc.ld.lEnd < flp.set.lEnd) (hty : sc.ld.lType ≠ flp.set.lType) (hld : sc'.ld = sc.ld)
      (hins : sc'.insrtp = idx + 1)
      (hcut : cut.set = { flp.set with lEnd := sc.ld.lStart - 1 } ∧ cut.owner = flp.owner) :
      TurnCases sc idx flp rest (.stop (cut ::
        insertWalk (newLock flp.owner { flp.set with lStart := sc.ld.lEnd + 1 }) rest) sc')
  /-- The request lies inside a lock of the same type. -/
  | inside (hs : flp.set.lStart ≤ sc.ld.lStart) (he : sc.ld.lEnd ≤ flp.set.lEnd)
      (hty : sc.ld.lType = flp.set.lType) : TurnCases sc idx flp rest .ret0
  | enolck : TurnCases sc idx flp rest .enolck

/-- How a request and a lock may lie, by the answer of `regflck`. -/
inductive Meets (ld : Flock) (flp : Filock) : Region × Region → Prop
  | beforeBefore (h : ld.lEnd + 1 < flp.set.lStart) : Meets ld flp (.before, .before)
  | beforeStart (h : ld.lEnd + 1 = flp.set.lStart) : Meets ld flp (.before, .start)
  | beforeMiddle (h : ld.lStart < flp.set.lStart ∧ flp.set.lStart ≤ ld.lEnd ∧
      ld.lEnd < flp.set.lEnd) : Meets ld flp (.before, .middle)
  | beforeEnd (h : ld.lStart < flp.set.lStart ∧ ld.lEnd = flp.set.lEnd) :
      Meets ld flp (.before, .atEnd)
  | beforeAfter (h : ld.lStart < flp.set.lStart ∧ flp.set.lEnd < ld.lEnd) :
      Meets ld flp (.before, .after)
  | startMiddle (h : ld.lStart = flp.set.lStart ∧ ld.lEnd < flp.set.lEnd) :
      Meets ld flp (.start, .middle)
  | startEnd (h : ld.lStart = flp.set.lStart ∧ ld.lEnd = flp.set.lEnd) : Meets ld flp (.start, .atEnd)
  | startAfter (h : ld.lStart = flp.set.lStart ∧ flp.set.lEnd < ld.lEnd) :
      Meets ld flp (.start, .after)
  | middleMiddle (h : flp.set.lStart < ld.lStart ∧ ld.lEnd < flp.set.lEnd) :
      Meets ld flp (.middle, .middle)
  | middleEnd (h : flp.set.lStart < ld.lStart ∧ ld.lEnd = flp.set.lEnd) :
      Meets ld flp (.middle, .atEnd)
  | middleAfter (h : flp.set.lStart < ld.lStart ∧ ld.lStart ≤ flp.set.lEnd ∧
      flp.set.lEnd < ld.lEnd) : Meets ld flp (.middle, .after)
  | endAfter (h : flp.set.lEnd + 1 = ld.lStart) : Meets ld flp (.atEnd, .after)
  | afterAfter (h : flp.set.lEnd + 1 < ld.lStart) : Meets ld flp (.after, .after)

theorem regflck_meets (hld : ld.lStart ≤ ld.lEnd) : Meets ld flp (regflck ld flp) := by
  rw [regflck]
  split_ifs with h1 h2 h3 h4
  · exact .endAfter (by omega)
  · exact .afterAfter (by omega)
  · rw [regflckEnd]
    split_ifs with e1 e2 e3 e4
    · exact absurd e2 (by omega)
    · exact absurd e3 (by omega)
    · exact .middleMiddle (by omega)
    · exact .middleEnd (by omega)
    · exact .middleAfter (by omega)
  · rw [regflckEnd]
    split_ifs with e1 e2 e3 e4
    · exact absurd e2 (by omega)
    · exact absurd e3 (by omega)
    · exact .startMiddle (by omega)
    · exact .startEnd (by omega)
    · exact .startAfter (by omega)
  · rw [regflckEnd]
    split_ifs with e1 e2 e3 e4
    · exact .beforeStart (by omega)
    · exact .beforeBefore (by omega)
    · exact .beforeMiddle (by omega)
    · exact .beforeEnd (by omega)
    · exact .beforeAfter (by omega)

theorem turn_cases (hown : flp.owner = me) (hld : sc.ld.lStart ≤ sc.ld.lEnd)
    (hflp : flp.set.lStart ≤ flp.set.lEnd) (idx : ℕ) (rest : List Filock) :
    TurnCases sc idx flp rest (turn me sc idx flp rest) := by
  subst hown
  have hmeets : Meets sc.ld flp (regflck sc.ld flp) := regflck_meets hld
  rw [turn]
  generalize regflck sc.ld flp = r at hmeets
  by_cases hty : sc.ld.lType = flp.set.lType
  · cases hmeets with
    | beforeBefore h => exact .beyond (by omega) fun _ => h
    | beforeStart h =>
      simp only [if_pos hty]
      exact .absorbRight _ (by omega) (by omega) (by omega) hty rfl rfl
    | beforeMiddle h =>
      simp only [if_pos hty]
      exact .absorbRight _ (by omega) (by omega) (by omega) hty rfl rfl
    | beforeEnd h =>
      simp only [if_pos hty]
      exact .absorbRight _ (by omega) (by omega) (by omega) hty (by rw [← h.2]) rfl
    | beforeAfter h => exact .drop _ (by omega) (by omega) rfl (Or.inl ⟨rfl, h.1⟩)
    | startMiddle h =>
      simp only [if_pos hty]
      exact .inside (by omega) (by omega) hty
    | startEnd h =>
      simp only [if_pos hty]
      exact .inside (by omega) (by omega) hty
    | startAfter h => exact .drop _ (by omega) (by omega) rfl (Or.inr ⟨rfl, h.1⟩)
    | middleMiddle h =>
      simp only [if_pos hty]
      exact .inside (by omega) (by omega) hty
    | middleEnd h =>
      simp only [if_pos hty]
      exact .inside (by omega) (by omega) hty
    | middleAfter h =>
      simp only [if_pos hty]
      exact .absorbLeft _ (by omega) (by omega) (by omega) hty rfl rfl
    | endAfter h =>
      simp only [if_pos hty]
      exact .absorbLeft _ (by omega) (by omega) (by omega) hty rfl rfl
    | afterAfter h => exact .keep _ (by omega) (fun _ => h) rfl (Or.inr rfl)
  · cases hmeets with
    | beforeBefore h => exact .beyond (by omega) fun _ => h
    | beforeStart h =>
      simp only [if_neg hty]
      exact .beyond (by omega) fun h => absurd h hty
    | beforeMiddle h =>
      simp only [if_neg hty]
      split_ifs
      · exact .enolck
      · exact .splitOff _ (by omega) (by omega) (by omega) hty rfl (Or.inl ⟨rfl, h.1⟩)
    | beforeEnd h =>
      simp only [if_neg hty]
      exact .drop _ (by omega) (by omega) rfl (Or.inl ⟨rfl, h.1⟩)
    | beforeAfter h => exact .drop _ (by omega) (by omega) rfl (Or.inl ⟨rfl, h.1⟩)
    | startMiddle h =>
      simp only [if_neg hty]
      split_ifs
      · exact .enolck
      · exact .splitOff _ (by omega) (by omega) (by omega) hty rfl (Or.inr ⟨rfl, h.1⟩)
    | startEnd h =>
      simp only [if_neg hty]
      exact .drop _ (by omega) (by omega) rfl (Or.inr ⟨rfl, h.1⟩)
    | startAfter h => exact .drop _ (by omega) (by omega) rfl (Or.inr ⟨rfl, h.1⟩)
    | middleMiddle h =>
      simp only [if_neg hty]
      split_ifs
      · exact .enolck
      · exact .splitBoth _ _ (by omega) (by omega) hty rfl rfl ⟨rfl, rfl⟩
    | middleEnd h =>
      simp only [if_neg hty]
      exact .trim _ _ (by omega) (by omega) (by omega) hty rfl rfl ⟨rfl, rfl⟩
    | middleAfter h =>
      simp only [if_neg hty]
      exact .trim _ _ (by omega) (by omega) (by omega) hty rfl rfl ⟨rfl, rfl⟩
    | endAfter h =>
      simp only [if_neg hty]
      exact .keep _ (by omega) (fun h => absurd h hty) rfl (Or.inl rfl)
    | afterAfter h => exact .keep _ (by omega) (fun _ => h) rfl (Or.inr rfl)

/-! ## What the turns do to the bytes -/

/-- Deleting, trimming or splitting a lock under the request. -/
theorem withRequest_replace {repl : List Filock}
    (h : ∀ o b ty, ¬ (o = me ∧ ld.lStart ≤ b ∧ b ≤ ld.lEnd) →
      (Holds (flp :: rest) o b ty ↔ Holds repl o b ty)) (o : Owner) (b : ℤ) (ty : LockType) :
    WithRequest me ld (front ++ repl) o b ty ↔ WithRequest me ld (front ++ flp :: rest) o b ty :=
  withRequest_congr (fun o b ty hc => by rw [holds_append, holds_append, h o b ty hc]) o b ty

/-- The request takes over a lock of its type. -/
theorem withRequest_absorb {ld' : Flock} (hl : LockList (front ++ flp :: rest))
    (hown : flp.owner = me) (hty : ld.lType = flp.set.lType) (hty' : ld'.lType = ld.lType)
    (hunion : ∀ b, (ld'.lStart ≤ b ∧ b ≤ ld'.lEnd) ↔
      (ld.lStart ≤ b ∧ b ≤ ld.lEnd) ∨ (flp.set.lStart ≤ b ∧ b ≤ flp.set.lEnd))
    (o : Owner) (b : ℤ) (ty : LockType) :
    WithRequest me ld' (front ++ rest) o b ty ↔ WithRequest me ld (front ++ flp :: rest) o b ty := by
  have hmem : flp ∈ front ++ flp :: rest := by simp
  have hdel : Holds (front ++ flp :: rest) o b ty ↔ Holds (front ++ rest) o b ty ∨
      (flp.owner = o ∧ flp.set.lType = ty ∧ flp.set.lStart ≤ b ∧ b ≤ flp.set.lEnd) := by
    rw [holds_append, holds_cons, holds_append, or_left_comm, or_comm]
  simp only [WithRequest, hty', hunion]
  by_cases ho : o = me
  · by_cases hin : ld.lStart ≤ b ∧ b ≤ ld.lEnd
    · rw [if_pos ⟨ho, Or.inl hin⟩, if_pos ⟨ho, hin⟩]
    · by_cases hf : flp.set.lStart ≤ b ∧ b ≤ flp.set.lEnd
      · -- a byte of the lock outside the request: held with the type of both
        rw [if_pos ⟨ho, Or.inr hf⟩, if_neg fun hc => hin hc.2, hty]
        constructor
        · rintro ⟨rfl, -⟩
          exact ⟨flp, hmem, hown.trans ho.symm, rfl, hf⟩
        · intro hh
          have heq := hl.unique hmem hf.1 hf.2 (hown.trans ho.symm ▸ hh)
          refine ⟨heq, ?_⟩
          rw [heq]
          rcases (hl.valid flp hmem).2 with h | h <;> rw [h] <;> simp
      · rw [if_neg fun hc => hc.2.elim hin hf, if_neg fun hc => hin hc.2, hdel]
        exact ⟨Or.inl, fun h => h.resolve_right fun hc => hf hc.2.2⟩
  · rw [if_neg fun hc => ho hc.1, if_neg fun hc => ho hc.1, hdel]
    exact ⟨Or.inl, fun h => h.resolve_right fun hc => ho (hc.1.symm.trans hown)⟩

/-- The request asks for what a lock of its type already holds. -/
theorem withRequest_inside (hl : LockList l) (hmem : flp ∈ l) (hown : flp.owner = me)
    (hty : ld.lType = flp.set.lType) (hs : flp.set.lStart ≤ ld.lStart)
    (he : ld.lEnd ≤ flp.set.lEnd) (o : Owner) (b : ℤ) (ty : LockType) :
    Holds l o b ty ↔ WithRequest me ld l o b ty := by
  rw [WithRequest]
  split_ifs with hc
  · obtain ⟨rfl, h1, h2⟩ := hc
    constructor
    · intro hh
      have heq := hl.unique hmem (by omega) (by omega) (hown ▸ hh)
      refine ⟨heq.trans hty.symm, ?_⟩
      rw [heq]
      rcases (hl.valid flp hmem).2 with h | h <;> rw [h] <;> simp
    · rintro ⟨rfl, -⟩
      exact ⟨flp, hmem, hown, hty.symm, by omega, by omega⟩
  · rfl

/-! ## Inserting a lock in order -/

theorem mem_insertWalk {new : Filock} : f ∈ insertWalk new l ↔ f = new ∨ f ∈ l := by
  induction l with
  | nil => simp [insertWalk]
  | cons g l ih =>
    rw [insertWalk]
    split_ifs
    · rw [mem_cons, ih, mem_cons]
      tauto
    · exact mem_cons

theorem holds_insertWalk {new : Filock} :
    Holds (insertWalk new l) o b ty ↔ Holds (new :: l) o b ty := by
  simp only [Holds, mem_insertWalk, mem_cons]

theorem lockList_insertWalk {new : Filock} (hl : LockList l) (hv : new.Valid)
    (hlow : ∀ f ∈ l, f.set.lStart < new.set.lStart → Sep f new)
    (hhigh : ∀ f ∈ l, new.set.lStart ≤ f.set.lStart → Sep new f) : LockList (insertWalk new l) := by
  induction l with
  | nil => exact lockList_cons.mpr ⟨hv, by simp, hl⟩
  | cons g l ih =>
    obtain ⟨hg, hsep, hl'⟩ := lockList_cons.mp hl
    rw [insertWalk]
    split_ifs with h
    · refine lockList_cons.mpr ⟨hg, fun f hf => ?_, ih hl'
        (fun f hf => hlow f (mem_cons_of_mem _ hf))
        fun f hf => hhigh f (mem_cons_of_mem _ hf)⟩
      rcases mem_insertWalk.mp hf with rfl | hf
      · exact hlow g mem_cons_self h
      · exact hsep f hf
    · refine lockList_cons.mpr ⟨hv, fun f hf => ?_, hl⟩
      refine hhigh f hf ?_
      rcases mem_cons.mp hf with rfl | hf
      · omega
      · have := (hsep f hf).1; omega

/-- A lock that starts later within the span of another takes its place before a third. -/
theorem Sep.right {new : Filock} (h : Sep f g) (hs : g.set.lStart ≤ new.set.lStart)
    (hown : new.owner = g.owner) (hty : new.set.lType = g.set.lType) : Sep f new := by
  refine ⟨h.1.trans hs, fun ho => ?_⟩
  obtain ⟨h1, h2⟩ := h.2 (ho.trans hown)
  exact ⟨by omega, fun ht => by have := h2 (ht.trans hty); omega⟩

/-- A lock that ends within the span of another takes its place after a third. -/
theorem Sep.left {new : Filock} (h : Sep f g) (hs : new.set.lStart ≤ g.set.lStart)
    (he : new.set.lEnd ≤ f.set.lEnd) (hown : new.owner = f.owner)
    (hty : new.set.lType = f.set.lType) : Sep new g := by
  refine ⟨hs, fun ho => ?_⟩
  obtain ⟨h1, h2⟩ := h.2 (hown.symm.trans ho)
  exact ⟨by omega, fun ht => by have := h2 (hty.symm.trans ht); omega⟩

/-- The piece after the request is put in its place behind the lock it is cut from. -/
theorem lockList_splitOff {t : ℤ} (hl : LockList (flp :: rest))
    (he : t < flp.set.lEnd) :
    LockList (insertWalk (newLock flp.owner { flp.set with lStart := t + 1 }) rest) := by
  obtain ⟨hv, hsep, hl'⟩ := lockList_cons.mp hl
  refine lockList_insertWalk hl' ⟨?_, hv.2⟩ (fun f hf h => ?_) fun f hf h => ?_
  · simp only [newLock]; omega
  · -- a lock before the piece starts under the one cut, so it is another owner's
    simp only [newLock] at h ⊢
    refine ⟨by simp only; omega, fun ho => ?_⟩
    have := ((hsep f hf).2 ho.symm).1
    omega
  · exact (hsep f hf).left h le_rfl rfl rfl

/-! ## Where the request goes -/

/-- The place `k` suits a lock starting at `s`: those up to it start no later, and if it
is the head, all start no earlier. -/
def Place (l : List Filock) (k : ℕ) (s : ℤ) : Prop :=
  (∀ f ∈ l.take k, f.set.lStart ≤ s) ∧ (k = 0 → ∀ f ∈ l, s ≤ f.set.lStart)

theorem place_length {s : ℤ} (h1 : ∀ f ∈ front, f.set.lStart ≤ s)
    (h2 : ∀ f ∈ rest, s ≤ f.set.lStart) : Place (front ++ rest) front.length s := by
  refine ⟨by rwa [take_left], fun h0 => ?_⟩
  rw [length_eq_zero_iff.mp h0]
  exact h2

theorem place_succ {s : ℤ} (h1 : ∀ f ∈ front, f.set.lStart ≤ s) (hf : f.set.lStart ≤ s) :
    Place (front ++ f :: rest) (front.length + 1) s := by
  refine ⟨fun g hg => ?_, fun h0 => absurd h0 (by omega)⟩
  rw [take_length_add_append, mem_append] at hg
  rcases hg with hg | hg
  · exact h1 g hg
  · simp only [take_succ_cons, take_zero, mem_singleton] at hg
    rw [hg]
    exact hf

/-- A place before the scan stays right when the scan changes what comes after it. -/
theorem Place.keep {s : ℤ} {k : ℕ} (h : Place (front ++ l) k s) (hk : k ≤ front.length)
    (hrest : (∀ f ∈ l, s ≤ f.set.lStart) → ∀ f ∈ l', s ≤ f.set.lStart) :
    Place (front ++ l') k s := by
  refine ⟨?_, fun h0 f hf => ?_⟩
  · have h1 := h.1
    rwa [take_append_of_le_length hk] at h1 ⊢
  · have hall := h.2 h0
    rcases mem_append.mp hf with hf | hf
    · exact hall f (mem_append_left _ hf)
    · exact hrest (fun f hf => hall f (mem_append_right _ hf)) f hf

/-- A place that suits an earlier start than that of a lock lies before it. -/
theorem Place.le_length {s : ℤ} {k : ℕ} (h : Place (front ++ flp :: rest) k s)
    (hlt : s < flp.set.lStart) (hk : k ≤ front.length + 1) : k ≤ front.length := by
  by_contra hgt
  have hk' : k = front.length + 1 := by omega
  have := h.1 flp (by rw [hk', take_length_add_append]; simp)
  omega

/-! ## The scan -/

/-- The state of the scan between `front` and `rest`. -/
structure Scanning (me : Owner) (front rest : List Filock) (sc : Scan) : Prop where
  list : LockList (front ++ rest)
  range : sc.ld.lStart ≤ sc.ld.lEnd
  /-- The caller's locks passed end before the request, and do not adjoin it if they have
  its type. -/
  behind : ∀ f ∈ front, f.owner = me → f.set.lEnd < sc.ld.lStart ∧
    (sc.ld.lType = f.set.lType → f.set.lEnd + 1 < sc.ld.lStart)
  place : sc.ld.lType ≠ .unlck → Place (front ++ rest) sc.insrtp sc.ld.lStart ∧
    sc.insrtp ≤ front.length + 1

/-- The state when the scan has fallen out of its loop. -/
structure Ready (me : Owner) (l : List Filock) (sc : Scan) : Prop where
  list : LockList l
  range : sc.ld.lStart ≤ sc.ld.lEnd
  /-- No lock of the caller meets the request, nor adjoins it if it has its type. -/
  clear : ∀ f ∈ l, f.owner = me →
    (f.set.lEnd < sc.ld.lStart ∧ (sc.ld.lType = f.set.lType → f.set.lEnd + 1 < sc.ld.lStart)) ∨
    (sc.ld.lEnd < f.set.lStart ∧ (sc.ld.lType = f.set.lType → sc.ld.lEnd + 1 < f.set.lStart))
  place : sc.ld.lType ≠ .unlck → Place l sc.insrtp sc.ld.lStart

/-- A turn does its part: the list stays in order, and with the request it locks the same
bytes as before. -/
def TurnOk (me : Owner) (front : List Filock) (flp : Filock) (rest : List Filock) (sc : Scan) :
    Turn → Prop
  | .goOn kept sc' => Scanning me (front ++ kept.toList) rest sc' ∧ sc'.ld.lType = sc.ld.lType ∧
      ∀ o b ty, WithRequest me sc'.ld (front ++ kept.toList ++ rest) o b ty ↔
        WithRequest me sc.ld (front ++ flp :: rest) o b ty
  | .stop locks sc' => Ready me (front ++ locks) sc' ∧ sc'.ld.lType = sc.ld.lType ∧
      ∀ o b ty, WithRequest me sc'.ld (front ++ locks) o b ty ↔
        WithRequest me sc.ld (front ++ flp :: rest) o b ty
  | .ret0 => ∀ o b ty, Holds (front ++ flp :: rest) o b ty ↔
      WithRequest me sc.ld (front ++ flp :: rest) o b ty
  | .enolck => True

/-- A lock trimmed at its end. -/
theorem LockList.trim {cut : Filock} (h : LockList (front ++ flp :: rest))
    (hv : cut.set.lStart ≤ cut.set.lEnd) (hs : cut.set.lStart = flp.set.lStart)
    (he : cut.set.lEnd ≤ flp.set.lEnd) (hown : cut.owner = flp.owner)
    (hty : cut.set.lType = flp.set.lType) : LockList (front ++ cut :: rest) := by
  obtain ⟨hfront, hrest, hcross⟩ := lockList_append.mp h
  obtain ⟨hv', hsep, hrest'⟩ := lockList_cons.mp hrest
  refine lockList_append.mpr ⟨hfront, lockList_cons.mpr ⟨⟨hv, by rw [hty]; exact hv'.2⟩,
    fun g hg => ?_, hrest'⟩, fun f hf g hg => ?_⟩
  · exact (hsep g hg).left (hs ▸ (hsep g hg).1) he hown hty
  · rcases mem_cons.mp hg with rfl | hg
    · exact (hcross f hf flp mem_cons_self).right hs.ge hown hty
    · exact hcross f hf g (mem_cons_of_mem _ hg)

/-- **One turn of the scan.** -/
theorem turn_spec (h : Scanning me front (flp :: rest) sc) (hown : flp.owner = me) :
    TurnOk me front flp rest sc (turn me sc front.length flp rest) := by
  obtain ⟨hfront, hrest, hcross⟩ := lockList_append.mp h.list
  obtain ⟨hv, hsep, hrest'⟩ := lockList_cons.mp hrest
  have hstart : ∀ f ∈ front, f.set.lStart ≤ flp.set.lStart := fun f hf =>
    (hcross f hf flp mem_cons_self).1
  have hlater : ∀ f ∈ rest, flp.set.lStart ≤ f.set.lStart := fun f hf => (hsep f hf).1
  have hafter : ∀ f ∈ rest, f.owner = me → flp.set.lEnd < f.set.lStart := fun f hf ho =>
    ((hsep f hf).2 (hown.trans ho.symm)).1
  have hrange := h.range
  have hcases := turn_cases hown h.range hv.1 front.length rest
  generalize turn me sc front.length flp rest = r at hcases
  cases hcases with
  | drop sc' hs he hld hins =>
    simp only [TurnOk, Option.toList_none, append_nil, hld]
    refine ⟨⟨h.list.delete, by rw [hld]; exact h.range, by rw [hld]; exact h.behind, fun hty => ?_⟩,
      trivial, withRequest_replace fun o b ty hc => ?_⟩
    · rw [hld] at hty ⊢
      obtain ⟨hp, hk⟩ := h.place hty
      rcases hins with ⟨hins, hlt⟩ | ⟨hins, heq⟩
      · rw [hins]
        exact ⟨hp.keep (hp.le_length hlt hk) fun hall f hf => hall f (mem_cons_of_mem _ hf), hk⟩
      · rw [hins, heq]
        exact ⟨place_length hstart hlater, by omega⟩
    · rw [holds_cons]
      refine ⟨fun hh => hh.resolve_left fun hf => hc ⟨hf.1.symm.trans hown, by omega, by omega⟩,
        Or.inr⟩
  | trim sc' cut hs hm he hty hld hins hcut =>
    obtain ⟨hset, howner⟩ := hcut
    have hlist : LockList (front ++ cut :: rest) := by
      refine h.list.trim ?_ ?_ ?_ howner ?_ <;> simp only [hset] <;> omega
    simp only [TurnOk, Option.toList_some, append_assoc, singleton_append, hld]
    refine ⟨⟨by simpa using hlist, by rw [hld]; exact h.range, fun f hf ho => ?_, fun hne => ?_⟩,
      trivial, withRequest_replace fun o b ty hc => ?_⟩
    · rw [hld]
      rcases mem_append.mp hf with hf | hf
      · exact h.behind f hf ho
      · rw [mem_singleton.mp hf, hset]
        exact ⟨by simp only; omega, fun heq => absurd heq hty⟩
    · rw [hld, hins, append_assoc, singleton_append]
      refine ⟨place_succ (fun f hf => (hstart f hf).trans hs.le) ?_, by simp⟩
      rw [hset]
      exact hs.le
    · rw [holds_cons, holds_cons, howner, hset, hown]
      refine or_congr_left (and_congr_right fun ho => and_congr_right fun _ => ?_)
      have hout : ¬ (sc.ld.lStart ≤ b ∧ b ≤ sc.ld.lEnd) := fun hb => hc ⟨ho.symm, hb⟩
      simp only
      omega
  | absorbLeft sc' hs hm he hty hld hins =>
    simp only [TurnOk, Option.toList_none, append_nil, hld]
    refine ⟨⟨h.list.delete, by rw [hld]; simp only; omega, fun f hf ho => ?_, fun hne => ?_⟩,
      trivial, withRequest_absorb h.list hown hty rfl fun b => ?_⟩
    · rw [hld]
      simp only [hty]
      obtain ⟨h1, h2⟩ := (hcross f hf flp mem_cons_self).2 (ho.trans hown.symm)
      exact ⟨h1, fun heq => h2 heq.symm⟩
    · rw [hld, hins]
      exact ⟨place_length hstart hlater, by omega⟩
    · simp only
      omega
  | keep sc' he hty hld hins =>
    simp only [TurnOk, Option.toList_some, append_assoc, singleton_append, hld]
    refine ⟨⟨by simpa using h.list, by rw [hld]; exact h.range, fun f hf ho => ?_, fun hne => ?_⟩,
      trivial, fun _ _ _ => trivial⟩
    · rw [hld]
      rcases mem_append.mp hf with hf | hf
      · exact h.behind f hf ho
      · rw [mem_singleton.mp hf]
        exact ⟨he, hty⟩
    · rw [hld] at hne ⊢
      rw [append_assoc, singleton_append]
      obtain ⟨hp, hk⟩ := h.place hne
      have hlen : (front ++ [flp]).length = front.length + 1 := by simp
      rcases hins with hins | hins
      · rw [hins]
        exact ⟨hp, by omega⟩
      · have hle : flp.set.lStart ≤ sc.ld.lStart := by have := hv.1; omega
        rw [hins]
        exact ⟨place_succ (fun f hf => (hstart f hf).trans hle) hle, by omega⟩
  | beyond hs hty =>
    refine ⟨⟨h.list, h.range, fun f hf ho => ?_, fun hne => (h.place hne).1⟩, rfl,
      fun o b ty => Iff.rfl⟩
    rcases mem_append.mp hf with hf | hf
    · exact Or.inl (h.behind f hf ho)
    rcases mem_cons.mp hf with rfl | hf
    · exact Or.inr ⟨hs, hty⟩
    · have h1 := hafter f hf ho
      have h2 := hv.1
      exact Or.inr ⟨by omega, fun _ => by omega⟩
  | absorbRight sc' hs hm he hty hld hins =>
    simp only [TurnOk, hld]
    refine ⟨⟨h.list.delete, by rw [hld]; simp only; omega, fun f hf ho => ?_, fun hne => ?_⟩,
      trivial, withRequest_absorb h.list hown hty rfl fun b => ?_⟩
    · rw [hld]
      rcases mem_append.mp hf with hf | hf
      · exact Or.inl (h.behind f hf ho)
      · obtain ⟨h1, h2⟩ := (hsep f hf).2 (hown.trans ho.symm)
        exact Or.inr ⟨h1, fun heq => h2 (hty.symm.trans heq)⟩
    · rw [hld] at hne ⊢
      obtain ⟨hp, hk⟩ := h.place hne
      rw [hins]
      exact hp.keep (hp.le_length hs hk) fun hall f hf => hall f (mem_cons_of_mem _ hf)
    · simp only
      omega
  | splitOff sc' hs hm he hty hld hins =>
    simp only [TurnOk, hld]
    refine ⟨⟨lockList_append.mpr ⟨hfront, lockList_splitOff hrest he, fun f hf g hg => ?_⟩,
      by rw [hld]; exact h.range, fun f hf ho => ?_, fun hne => ?_⟩, trivial,
      withRequest_replace fun o b ty hc => ?_⟩
    · rcases mem_insertWalk.mp hg with rfl | hg
      · exact (hcross f hf flp mem_cons_self).right (by simp only [newLock]; omega) rfl rfl
      · exact hcross f hf g (mem_cons_of_mem _ hg)
    · rw [hld]
      rcases mem_append.mp hf with hf | hf
      · exact Or.inl (h.behind f hf ho)
      refine Or.inr ?_
      rcases mem_insertWalk.mp hf with rfl | hf
      · exact ⟨by simp only [newLock]; omega, fun heq => absurd heq hty⟩
      · have h1 := hafter f hf ho
        exact ⟨by omega, fun _ => by omega⟩
    · rw [hld] at hne ⊢
      obtain ⟨hp, hk⟩ := h.place hne
      rcases hins with ⟨hins, hlt⟩ | ⟨hins, heq⟩
      · rw [hins]
        refine hp.keep (hp.le_length hlt hk) fun hall f hf => ?_
        rcases mem_insertWalk.mp hf with rfl | hf
        · simp only [newLock]; omega
        · exact hall f (mem_cons_of_mem _ hf)
      · rw [hins, heq]
        refine place_length hstart fun f hf => ?_
        rcases mem_insertWalk.mp hf with rfl | hf
        · simp only [newLock]; omega
        · exact hlater f hf
    · rw [holds_insertWalk, holds_cons, holds_cons, hown]
      refine or_congr_left (and_congr_right fun ho => and_congr_right fun _ => ?_)
      have hout : ¬ (sc.ld.lStart ≤ b ∧ b ≤ sc.ld.lEnd) := fun hb => hc ⟨ho.symm, hb⟩
      simp only [newLock]
      omega
  | splitBoth sc' cut hs he hty hld hins hcut =>
    obtain ⟨hset, howner⟩ := hcut
    have hlist : LockList (front ++ cut :: rest) := by
      refine h.list.trim ?_ ?_ ?_ howner ?_ <;> simp only [hset] <;> omega
    obtain ⟨-, hrest'', hcross'⟩ := lockList_append.mp hlist
    obtain ⟨hvcut, hsep', -⟩ := lockList_cons.mp hrest''
    simp only [TurnOk, hld]
    refine ⟨⟨lockList_append.mpr ⟨hfront, lockList_cons.mpr ⟨hvcut, fun g hg => ?_,
      lockList_splitOff hrest he⟩, fun f hf g hg => ?_⟩, by rw [hld]; exact h.range,
      fun f hf ho => ?_, fun hne => ?_⟩, trivial, withRequest_replace fun o b ty hc => ?_⟩
    · rcases mem_insertWalk.mp hg with rfl | hg
      · refine ⟨?_, fun _ => ⟨?_, fun _ => ?_⟩⟩ <;> simp only [newLock, hset] <;> omega
      · exact hsep' g hg
    · rcases mem_cons.mp hg with rfl | hg
      · exact hcross' f hf g mem_cons_self
      rcases mem_insertWalk.mp hg with rfl | hg
      · exact (hcross f hf flp mem_cons_self).right (by simp only [newLock]; omega) rfl rfl
      · exact hcross f hf g (mem_cons_of_mem _ hg)
    · rw [hld]
      rcases mem_append.mp hf with hf | hf
      · exact Or.inl (h.behind f hf ho)
      rcases mem_cons.mp hf with rfl | hf
      · rw [hset]
        exact Or.inl ⟨by simp only; omega, fun heq => absurd heq hty⟩
      refine Or.inr ?_
      rcases mem_insertWalk.mp hf with rfl | hf
      · exact ⟨by simp only [newLock]; omega, fun heq => absurd heq hty⟩
      · have h1 := hafter f hf ho
        exact ⟨by omega, fun _ => by omega⟩
    · rw [hld, hins]
      refine place_succ (fun f hf => (hstart f hf).trans hs.le) ?_
      rw [hset]
      exact hs.le
    · rw [holds_cons, holds_cons, holds_insertWalk, holds_cons, howner, hset, hown, ← or_assoc]
      refine or_congr_left ?_
      simp only [newLock, ← and_or_left]
      refine and_congr_right fun ho => and_congr_right fun _ => ?_
      have hout : ¬ (sc.ld.lStart ≤ b ∧ b ≤ sc.ld.lEnd) := fun hb => hc ⟨ho.symm, hb⟩
      omega
  | inside hs he hty => exact withRequest_inside h.list (by simp) hown hty hs he
  | enolck => trivial

/-- The end of the scan does its part: the locks found are in order, and with the request
they lock the same bytes as the list did. -/
def ScannedOk (me : Owner) (l : List Filock) (sc : Scan) : Scanned → Prop
  | .fell locks sc' => Ready me locks sc' ∧ sc'.ld.lType = sc.ld.lType ∧
      ∀ o b ty, WithRequest me sc'.ld locks o b ty ↔ WithRequest me sc.ld l o b ty
  | .ret0 locks => LockList locks ∧ ∀ o b ty, Holds locks o b ty ↔ WithRequest me sc.ld l o b ty
  | .enolck => True

theorem ScannedOk.trans {sc' : Scan} {r : Scanned} (h : ScannedOk me l' sc' r)
    (hty : sc'.ld.lType = sc.ld.lType)
    (hb : ∀ o b ty, WithRequest me sc'.ld l' o b ty ↔ WithRequest me sc.ld l o b ty) :
    ScannedOk me l sc r := by
  cases r with
  | fell locks sc'' =>
    obtain ⟨h1, h2, h3⟩ := h
    exact ⟨h1, h2.trans hty, fun o b ty => (h3 o b ty).trans (hb o b ty)⟩
  | ret0 locks => exact ⟨h.1, fun o b ty => (h.2 o b ty).trans (hb o b ty)⟩
  | enolck => trivial

theorem Scanned.push_push (k₁ k₂ : List Filock) (r : Scanned) :
    (r.push k₂).push k₁ = r.push (k₁ ++ k₂) := by
  cases r <;> simp [Scanned.push]

/-- The scan passes a lock of another owner. -/
theorem Scanning.pass (h : Scanning me front (flp :: rest) sc) (hown : flp.owner ≠ me) :
    Scanning me (front ++ [flp]) rest sc := by
  refine ⟨by simpa using h.list, h.range, fun f hf ho => ?_, fun hty => ?_⟩
  · rcases mem_append.mp hf with hf | hf
    · exact h.behind f hf ho
    · rw [mem_singleton.mp hf] at ho
      exact absurd ho hown
  · obtain ⟨hp, hk⟩ := h.place hty
    rw [append_assoc, singleton_append, length_append]
    exact ⟨hp, hk.trans (by omega)⟩

/-- **The scan.** -/
theorem scan_spec (h : Scanning me front rest sc) :
    ScannedOk me (front ++ rest) sc ((scan me sc front.length rest).push front) := by
  induction rest generalizing front sc with
  | nil =>
    rw [scan, Scanned.push, append_nil]
    have hlist := h.list
    have hplace := h.place
    rw [append_nil] at hlist hplace
    exact ⟨⟨hlist, h.range, fun f hf ho => Or.inl (h.behind f hf ho), fun hty => (hplace hty).1⟩,
      rfl, fun _ _ _ => Iff.rfl⟩
  | cons flp rest ih =>
    rw [scan]
    split_ifs with hown
    · have hturn := turn_spec h hown
      cases hr : turn me sc front.length flp rest with
      | goOn kept sc' =>
        rw [hr] at hturn
        obtain ⟨hsc, hty, hb⟩ := hturn
        have := ih hsc
        rw [length_append] at this
        simp only [Scanned.push_push]
        exact this.trans hty hb
      | stop locks sc' =>
        rw [hr] at hturn
        exact hturn
      | ret0 =>
        rw [hr] at hturn
        exact ⟨h.list, hturn⟩
      | enolck => trivial
    · rw [Scanned.push_push]
      have := ih (h.pass hown)
      rwa [length_append, length_singleton, append_assoc,
        singleton_append] at this

/-! ## The insertion of the request -/

theorem mem_insertFrom {new : Filock} {k : ℕ} : f ∈ insertFrom new k l ↔ f = new ∨ f ∈ l := by
  induction k, l using insertFrom.induct new with
  | case1 l => rw [insertFrom, mem_cons]
  | case2 k => simp [insertFrom]
  | case3 g rest hlt =>
    rw [insertFrom, if_pos hlt, mem_cons, mem_insertWalk, mem_cons]
    tauto
  | case4 g rest hlt =>
    rw [insertFrom, if_neg hlt]
    simp only [mem_cons]
    tauto
  | case5 k g rest ih =>
    rw [insertFrom, mem_cons, ih, mem_cons]
    tauto

/-- From a place that suits it, the request goes in in order. -/
theorem lockList_insertFrom {new : Filock} {k : ℕ} (hl : LockList l) (hv : new.Valid)
    (hp : Place l k new.set.lStart) (hlow : ∀ f ∈ l, f.set.lStart ≤ new.set.lStart → Sep f new)
    (hhigh : ∀ f ∈ l, new.set.lStart ≤ f.set.lStart → Sep new f) :
    LockList (insertFrom new k l) := by
  induction k, l using insertFrom.induct new with
  | case1 l =>
    rw [insertFrom]
    exact lockList_cons.mpr ⟨hv, fun f hf => hhigh f hf (hp.2 rfl f hf), hl⟩
  | case2 k =>
    rw [insertFrom]
    exact lockList_cons.mpr ⟨hv, by simp, hl⟩
  | case3 g rest hlt =>
    rw [insertFrom, if_pos hlt]
    have := lockList_insertWalk hl hv (fun f hf h => hlow f hf h.le) hhigh
    rwa [insertWalk, if_pos hlt] at this
  | case4 g rest hlt =>
    rw [insertFrom, if_neg hlt]
    obtain ⟨hg, hsep, hl'⟩ := lockList_cons.mp hl
    have hle : g.set.lStart ≤ new.set.lStart := hp.1 g (by simp)
    have hrest : ∀ f ∈ rest, Sep new f := fun f hf =>
      hhigh f (mem_cons_of_mem _ hf) (by have := (hsep f hf).1; omega)
    refine lockList_cons.mpr ⟨hg, fun f hf => ?_, lockList_cons.mpr ⟨hv, hrest, hl'⟩⟩
    rcases mem_cons.mp hf with rfl | hf
    · exact hlow g mem_cons_self hle
    · exact hsep f hf
  | case5 k g rest ih =>
    rw [insertFrom]
    obtain ⟨hg, hsep, hl'⟩ := lockList_cons.mp hl
    have hle : g.set.lStart ≤ new.set.lStart := hp.1 g (by simp)
    refine lockList_cons.mpr ⟨hg, fun f hf => ?_, ih hl' ⟨fun f hf => hp.1 f ?_, by simp⟩
      (fun f hf => hlow f (mem_cons_of_mem _ hf))
      fun f hf => hhigh f (mem_cons_of_mem _ hf)⟩
    · rcases mem_insertFrom.mp hf with rfl | hf
      · exact hlow g mem_cons_self hle
      · exact hsep f hf
    · rw [take_succ_cons]
      exact mem_cons_of_mem _ hf

/-- The request is inserted: the list stays in order and locks the bytes of the request. -/
theorem Ready.insert (h : Ready me l sc) (hty : sc.ld.lType = .rdlck ∨ sc.ld.lType = .wrlck) :
    LockList (insertFrom (newLock me sc.ld) sc.insrtp l) ∧
      ∀ o b ty, Holds (insertFrom (newLock me sc.ld) sc.insrtp l) o b ty ↔
        WithRequest me sc.ld l o b ty := by
  have hrange := h.range
  have hunlck : sc.ld.lType ≠ .unlck := by rcases hty with hty | hty <;> rw [hty] <;> simp
  constructor
  · refine lockList_insertFrom h.list ⟨h.range, hty⟩ (h.place hunlck) (fun f hf hle => ?_)
      fun f hf hle => ?_
    · have hle' : f.set.lStart ≤ sc.ld.lStart := hle
      refine ⟨hle, fun ho => ?_⟩
      rcases h.clear f hf ho with hc | hc
      · exact ⟨hc.1, fun heq => hc.2 heq.symm⟩
      · omega
    · have hle' : sc.ld.lStart ≤ f.set.lStart := hle
      refine ⟨hle, fun ho => ?_⟩
      rcases h.clear f hf ho.symm with hc | hc
      · have := (h.list.valid f hf).1
        omega
      · exact hc
  · intro o b ty
    have hmem : Holds (insertFrom (newLock me sc.ld) sc.insrtp l) o b ty ↔
        Holds (newLock me sc.ld :: l) o b ty := by
      simp only [Holds, mem_insertFrom, mem_cons]
    rw [hmem, holds_cons, WithRequest]
    split_ifs with hc
    · obtain ⟨rfl, h1, h2⟩ := hc
      constructor
      · rintro (⟨-, hty', -⟩ | ⟨f, hf, ho, -, h3, h4⟩)
        · rw [← hty']
          exact ⟨rfl, hunlck⟩
        · -- no lock of the caller lies on a byte of the request
          rcases h.clear f hf ho with hc | hc <;> omega
      · rintro ⟨rfl, -⟩
        exact Or.inl ⟨rfl, rfl, h1, h2⟩
    · refine ⟨fun hh => hh.resolve_left fun hn => hc ⟨hn.1.symm, hn.2.2⟩, Or.inr⟩

/-- Removing locks, a request leaves nothing to insert. -/
theorem Ready.unlock (h : Ready me l sc) (hty : sc.ld.lType = .unlck) (o : Owner) (b : ℤ)
    (ty : LockType) : Holds l o b ty ↔ WithRequest me sc.ld l o b ty := by
  rw [WithRequest]
  split_ifs with hc
  · obtain ⟨rfl, h1, h2⟩ := hc
    constructor
    · rintro ⟨f, hf, ho, -, h3, h4⟩
      rcases h.clear f hf ho with hc | hc <;> omega
    · rintro ⟨rfl, hne⟩
      exact absurd hty hne
  · rfl

/-- **`flckadj`.**  From a hint that suits the request, the new list is in order and locks
what the old one does with the request put in. -/
theorem flckadj_spec {frlock k : ℕ} (hk : k - 1 ≤ l.length)
    (h : Scanning me (l.take (k - 1)) (l.drop (k - 1)) ⟨ld, k, frlock⟩) (hty : ld.lType ≠ .invalid)
    (hadj : flckadj me frlock l k ld = some l') :
    LockList l' ∧ ∀ o b ty, Holds l' o b ty ↔ WithRequest me ld l o b ty := by
  have hscan := scan_spec h
  rw [take_append_drop, length_take, min_eq_left hk] at hscan
  rw [flckadj] at hadj
  cases hr : scan me ⟨ld, k, frlock⟩ (k - 1) (l.drop (k - 1)) with
  | enolck =>
    rw [hr] at hadj
    simp at hadj
  | ret0 locks =>
    rw [hr] at hadj hscan
    obtain rfl := Option.some.inj hadj
    exact hscan
  | fell locks sc =>
    rw [hr] at hadj hscan
    obtain ⟨hready, htype, hb⟩ := hscan
    simp only at hadj htype hb
    split_ifs at hadj with h1 h2
    · obtain rfl := Option.some.inj hadj
      exact ⟨hready.list, fun o b ty => (hready.unlock h1 o b ty).trans (hb o b ty)⟩
    · obtain rfl := Option.some.inj hadj
      have hins := hready.insert (by
        rw [htype] at h1 ⊢
        cases hld : ld.lType <;> simp_all)
      exact ⟨hins.1, fun o b ty => (hins.2 o b ty).trans (hb o b ty)⟩

end Os
