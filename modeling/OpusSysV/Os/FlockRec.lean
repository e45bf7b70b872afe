import OpusSysV.Os.FlockSleep

/-!
# Lock lists with addresses

What `flckadj` does to the addresses of a list, and how it relates to the list of
`Os.Flock`, which has none.

* `flckadj_forget`, `blocked_forget` — without the addresses it is the `flckadj` of
  `Os.Flock`, and so is `blocked`.
* `Kept` — a change of a list that takes addresses from the free list and returns them, and
  keeps every lock unless its flag is clear or its sleepers are woken: `flckadj_kept`,
  `cleaned_kept`.
-/

namespace Os

open Lib Function List

/-- What is carried, without the addresses. -/
def Adj.forget (sc : Adj) : Scan := ⟨sc.ld, sc.insrtp, sc.frlock.length⟩

/-- The lock is in the way of a request of `me`. -/
def InTheWay (me : Owner) (ld : Flock) (f : Filock) : Prop :=
  f.owner ≠ me ∧ f.set.lStart ≤ ld.lEnd ∧ ld.lStart ≤ f.set.lEnd ∧ conflicts f ld.lType

namespace Adj

variable {sc : Adj} {r : Rec}

@[simp] theorem wakeup_ld : (sc.wakeup r).ld = sc.ld := by
  unfold wakeup
  split_ifs <;> rfl

@[simp] theorem wakeup_insrtp : (sc.wakeup r).insrtp = sc.insrtp := by
  unfold wakeup
  split_ifs <;> rfl

@[simp] theorem wakeup_frlock : (sc.wakeup r).frlock = sc.frlock := by
  unfold wakeup
  split_ifs <;> rfl

theorem woken_wakeup : sc.woken ⊆ (sc.wakeup r).woken := by
  unfold wakeup
  split_ifs
  · exact subset_cons_self _ _
  · exact List.Subset.refl _

/-- After `WAKEUP(ptr)` nobody sleeps on the lock. -/
theorem wakeup_wakes : r.lock.wakeflg = 0 ∨ r.addr ∈ (sc.wakeup r).woken := by
  unfold wakeup
  by_cases h : r.lock.wakeflg = 0
  · exact .inl h
  · rw [if_pos h]
    exact .inr mem_cons_self

@[simp] theorem delflck_ld : (sc.delflck r).ld = sc.ld := wakeup_ld

@[simp] theorem delflck_insrtp : (sc.delflck r).insrtp = sc.insrtp := wakeup_insrtp

@[simp] theorem delflck_frlock : (sc.delflck r).frlock = r.addr :: sc.frlock := rfl

@[simp] theorem delflck_woken : (sc.delflck r).woken = (sc.wakeup r).woken := rfl

end Adj

namespace Rec

variable {me : Owner} {sc sc' : Adj} {idx : ℕ} {flp new : Rec} {rest l l' m m' : List Rec}
  {ld : Flock} {fr fr' fr'' woken woken' : List ℕ} {a : ℕ}

/-! ## Without addresses -/

/-- The locks of a list. -/
def locks (l : List Rec) : List Filock := l.map Rec.lock

@[simp] theorem locks_nil : locks [] = [] := rfl

@[simp] theorem locks_cons {r : Rec} : locks (r :: l) = r.lock :: locks l := rfl

@[simp] theorem locks_append : locks (l ++ l') = locks l ++ locks l' := map_append

theorem insertWalk_forget :
    locks (insertWalk new l) = Os.insertWalk new.lock (locks l) := by
  induction l with
  | nil => rfl
  | cons f rest ih =>
    simp only [insertWalk, Os.insertWalk, locks_cons]
    split_ifs
    · rw [locks_cons, ih]
    · rfl

theorem insertFrom_forget {k : ℕ} :
    locks (insertFrom new k l) = Os.insertFrom new.lock k (locks l) := by
  induction l generalizing k with
  | nil => rcases k with - | k <;> rfl
  | cons f rest ih =>
    rcases k with - | - | k
    · rfl
    · simp only [insertFrom, Os.insertFrom, locks_cons, zero_add]
      split_ifs
      · rw [locks_cons, insertWalk_forget]
      · rfl
    · exact congrArg (f.lock :: ·) ih

/-- What a turn does, without the addresses. -/
def Turn.forget : Turn → Os.Turn
  | .goOn kept sc => .goOn (kept.map Rec.lock) sc.forget
  | .stop l sc => .stop (locks l) sc.forget
  | .ret0 => .ret0
  | .enolck => .enolck

theorem turn_forget : (turn me sc idx flp rest).forget =
    Os.turn me sc.forget idx flp.lock (locks rest) := by
  obtain ⟨ld, insrtp, fr, woken⟩ := sc
  simp only [turn, Os.turn, Adj.forget]
  rcases regflck ld flp.lock with ⟨x, y⟩
  rcases fr with - | ⟨a, fr⟩ <;> cases x <;> cases y <;> dsimp only <;>
    by_cases hs : ld.lType = flp.lock.set.lType <;>
    simp [hs, Turn.forget, Adj.forget, insertWalk_forget]

/-- How the scan ends, without the addresses. -/
def forgetScan : Ended × List Rec × Adj → Scanned
  | (.fell, l, sc) => .fell (locks l) sc.forget
  | (.ret0, l, _) => .ret0 (locks l)
  | (.enolck, _, _) => .enolck

theorem forgetScan_push {r : Ended × List Rec × Adj} :
    forgetScan (r.1, l ++ r.2.1, r.2.2) = (forgetScan r).push (locks l) := by
  obtain ⟨e, l', sc⟩ := r
  cases e <;> simp [forgetScan, Scanned.push]

theorem scan_forget : forgetScan (scan me sc idx l) = Os.scan me sc.forget idx (locks l) := by
  induction l generalizing sc idx with
  | nil => rfl
  | cons flp rest ih =>
    simp only [scan, Os.scan, locks_cons]
    split_ifs with hme
    · rw [← turn_forget]
      cases turn me sc idx flp rest with
      | goOn kept sc' =>
        have hk : (kept.map Rec.lock).toList = locks kept.toList := by cases kept <;> rfl
        simp only [Turn.forget, hk, ← ih, ← forgetScan_push]
        simp [locks]
      | stop l sc' => rfl
      | ret0 => rfl
      | enolck => rfl
    · rw [← ih]
      exact forgetScan_push (l := [flp])

/-- **`flckadj` without addresses** is the `flckadj` of the lists of locks. -/
theorem flckadj_forget {insrtp : ℕ} : Os.flckadj me fr.length (locks l) insrtp ld =
    if (flckadj me fr l insrtp ld).1 then some (locks (flckadj me fr l insrtp ld).2.1)
    else none := by
  have hscan : forgetScan (scan me ⟨ld, insrtp, fr, []⟩ (insrtp - 1) (l.drop (insrtp - 1))) =
    Os.scan me ⟨ld, insrtp, fr.length⟩ (insrtp - 1) (locks (l.drop (insrtp - 1))) := scan_forget
  obtain ⟨e, l', sc', hr⟩ : ∃ e l' sc', scan me ⟨ld, insrtp, fr, []⟩ (insrtp - 1)
    (l.drop (insrtp - 1)) = (e, l', sc') := ⟨_, _, _, rfl⟩
  have hfront : (locks l).take (insrtp - 1) = locks (l.take (insrtp - 1)) := map_take.symm
  have hdrop : (locks l).drop (insrtp - 1) = locks (l.drop (insrtp - 1)) := map_drop.symm
  simp only [Os.flckadj, flckadj, hdrop, ← hscan, hfront, hr]
  cases e with
  | ret0 => simp [forgetScan]
  | enolck => simp [forgetScan]
  | fell =>
    simp only [forgetScan, Adj.forget]
    by_cases hun : sc'.ld.lType = .unlck
    · simp [hun]
    · rcases sc' with ⟨ld', ins', - | ⟨a, fr'⟩, woken⟩
      · simp_all
      · simp_all [insertFrom_forget]

theorem blockedLow_forget {k : ℕ} : Os.blockedLow me ld k (locks l) =
    (blockedLow me ld k l).map Rec.lock (Prod.map id locks) := by
  induction l generalizing k with
  | nil => rfl
  | cons f rest ih =>
    simp only [Os.blockedLow, blockedLow, locks_cons]
    split_ifs
    · rfl
    · exact ih
    · rfl
    · exact ih
    · rfl

theorem blockedHigh_forget :
    Os.blockedHigh me ld (locks l) = (blockedHigh me ld l).map Rec.lock := by
  induction l with
  | nil => rfl
  | cons f rest ih =>
    simp only [Os.blockedHigh, blockedHigh, locks_cons]
    split_ifs
    · rfl
    · rfl
    · exact ih

theorem blocked_forget : Os.blocked me (locks l) ld = (blocked me l ld).map Rec.lock id := by
  simp only [Os.blocked, blocked, blockedLow_forget]
  rcases blockedLow me ld 0 l with f | ⟨insrt, rest⟩
  · rfl
  · simp only [Sum.map_inr, Prod.map, blockedHigh_forget]
    cases blockedHigh me ld rest <;> rfl

/-! ## Addresses -/

/-- A list changes from `l` to `l'`: addresses come from the free list and go there, and a
lock that is not kept as it is has no sleepers or they are in `woken`. -/
structure Kept (l l' : List Rec) (fr fr' woken : List ℕ) : Prop where
  count : ∀ a, fr'.count a + (l'.map addr).count a = fr.count a + (l.map addr).count a
  stays : ∀ r ∈ l, r ∈ l' ∨ r.lock.wakeflg = 0 ∨ r.addr ∈ woken

theorem Kept.refl : Kept l l fr fr woken := ⟨fun _ => rfl, fun _ h => .inl h⟩

theorem Kept.mono (h : Kept l l' fr fr' woken) (hw : woken ⊆ woken') : Kept l l' fr fr' woken' :=
  ⟨h.count, fun r hr => (h.stays r hr).imp_right fun h => h.imp_right fun h => hw h⟩

theorem Kept.append (h : Kept l l' fr fr' woken) (h' : Kept m m' fr' fr'' woken) :
    Kept (l ++ m) (l' ++ m') fr fr'' woken := by
  constructor
  · intro a
    have h1 := h.count a
    have h2 := h'.count a
    simp only [map_append, count_append]
    omega
  · intro r hr
    rcases mem_append.mp hr with hr | hr
    · exact (h.stays r hr).imp_left fun h => mem_append_left _ h
    · exact (h'.stays r hr).imp_left fun h => mem_append_right _ h

theorem Kept.trans (h : Kept l l' fr fr' woken) (h' : Kept l' m fr' fr'' woken) :
    Kept l m fr fr'' woken := by
  constructor
  · intro a
    have h1 := h.count a
    have h2 := h'.count a
    omega
  · intro r hr
    rcases h.stays r hr with hr | hr
    · exact h'.stays r hr
    · exact .inr hr

/-- A lock without sleepers is deleted. -/
theorem kept_delete (hw : flp.lock.wakeflg = 0 ∨ flp.addr ∈ woken) :
    Kept [flp] [] fr (flp.addr :: fr) woken := by
  constructor
  · intro a
    simp [count_cons]
  · intro r hr
    obtain rfl := mem_singleton.mp hr
    exact .inr hw

/-- A lock is released in part. -/
theorem kept_cut (hw : flp.lock.wakeflg = 0 ∨ flp.addr ∈ woken) (ha : new.addr = flp.addr) :
    Kept [flp] [new] fr fr woken := by
  constructor
  · intro a
    simp [ha]
  · intro r hr
    obtain rfl := mem_singleton.mp hr
    exact .inr hw

/-- A lock is put into the list at any place. -/
theorem kept_insert (h : l'.Perm (new :: l)) : Kept l l' (new.addr :: fr) fr woken := by
  constructor
  · intro a
    rw [(h.map addr).count_eq]
    simp only [map_cons, count_cons]
    omega
  · intro r hr
    exact .inl (h.mem_iff.mpr (mem_cons_of_mem _ hr))

theorem insertWalk_perm : (insertWalk new l).Perm (new :: l) := by
  induction l with
  | nil => exact .refl _
  | cons f rest ih =>
    unfold insertWalk
    split_ifs
    · exact (ih.cons f).trans (List.Perm.swap _ _ _)
    · exact .refl _

theorem insertFrom_perm {k : ℕ} : (insertFrom new k l).Perm (new :: l) := by
  induction l generalizing k with
  | nil => rcases k with - | k <;> exact .refl _
  | cons f rest ih =>
    rcases k with - | - | k
    · exact .refl _
    · simp only [insertFrom]
      split_ifs
      · exact (insertWalk_perm.cons f).trans (List.Perm.swap _ _ _)
      · exact List.Perm.swap _ _ _
    · exact (ih.cons f).trans (List.Perm.swap _ _ _)

/-! ## The scan -/

/-- What a turn at `flp` keeps. -/
def TurnKept (sc : Adj) (flp : Rec) (rest : List Rec) : Turn → Prop
  | .goOn kept sc' => sc.woken ⊆ sc'.woken ∧
      Kept [flp] kept.toList sc.frlock sc'.frlock sc'.woken
  | .stop l sc' => sc.woken ⊆ sc'.woken ∧ Kept (flp :: rest) l sc.frlock sc'.frlock sc'.woken
  | _ => True

theorem turnKept_delete {k : ℕ} :
    TurnKept sc flp rest (.goOn none { sc.delflck flp with ld := ld, insrtp := k }) :=
  ⟨Adj.woken_wakeup, kept_delete Adj.wakeup_wakes⟩

theorem turnKept_absorb :
    TurnKept sc flp rest (.stop rest { sc.delflck flp with ld := ld }) :=
  ⟨Adj.woken_wakeup, (kept_delete Adj.wakeup_wakes).append .refl⟩

theorem turnKept_cut {k : ℕ} (ha : new.addr = flp.addr) :
    TurnKept sc flp rest (.goOn (some new) { sc.wakeup flp with insrtp := k }) :=
  ⟨Adj.woken_wakeup, by simpa using kept_cut Adj.wakeup_wakes ha⟩

/-- The lock goes, and what the request leaves of it takes an address of the free list. -/
theorem turnKept_splitOff {k : ℕ} (hw : sc'.woken = sc.woken)
    (hfr : sc.frlock = new.addr :: sc'.frlock) :
    TurnKept sc flp rest (.stop (insertWalk new rest) { sc'.delflck flp with insrtp := k }) := by
  refine ⟨hw ▸ Adj.woken_wakeup, ?_, ?_⟩
  · intro a
    have hp := ((@insertWalk_perm new rest).map addr).count_eq a
    simp only [map_cons, count_cons, Adj.delflck_frlock, hfr] at hp ⊢
    omega
  · intro r hr
    rcases mem_cons.mp hr with rfl | hr
    · exact .inr Adj.wakeup_wakes
    · exact .inl (insertWalk_perm.mem_iff.mpr (mem_cons_of_mem _ hr))

/-- The same, and the lock keeps what lies before the request. -/
theorem turnKept_split {k : ℕ} {cut : Rec} (ha : cut.addr = flp.addr)
    (hfr : sc.frlock = new.addr :: fr) :
    TurnKept sc flp rest
      (.stop (cut :: insertWalk new rest) { sc.wakeup flp with frlock := fr, insrtp := k }) := by
  refine ⟨Adj.woken_wakeup, ?_⟩
  rw [hfr]
  exact (kept_cut Adj.wakeup_wakes ha).append (kept_insert insertWalk_perm)

theorem turnKept_same {k : ℕ} :
    TurnKept sc flp rest (.goOn (some flp) { sc with insrtp := k }) :=
  ⟨List.Subset.refl _, .refl⟩

theorem turn_kept : TurnKept sc flp rest (turn me sc idx flp rest) := by
  simp only [turn]
  rcases regflck sc.ld flp.lock with ⟨x, y⟩
  cases x <;> cases y <;> dsimp only
  all_goals try split_ifs
  all_goals try first
    | trivial
    | exact turnKept_same
    | exact turnKept_delete
    | exact turnKept_absorb
    | exact turnKept_cut rfl
    | exact ⟨List.Subset.refl _, .refl⟩
  all_goals
    rcases hfr : sc.frlock with - | ⟨a, fr⟩
    · trivial
  all_goals first
    | exact turnKept_splitOff rfl hfr
    | exact turnKept_split rfl hfr

theorem scan_kept : sc.woken ⊆ (scan me sc idx l).2.2.woken ∧
    Kept l (scan me sc idx l).2.1 sc.frlock (scan me sc idx l).2.2.frlock
      (scan me sc idx l).2.2.woken := by
  induction l generalizing sc idx with
  | nil => exact ⟨List.Subset.refl _, .refl⟩
  | cons flp rest ih =>
    unfold scan
    split_ifs
    · have ht := @turn_kept me sc idx flp rest
      cases hturn : turn me sc idx flp rest with
      | goOn kept sc' =>
        rw [hturn] at ht
        obtain ⟨hw, hk⟩ := ht
        obtain ⟨hw', hk'⟩ := @ih sc' (idx + kept.toList.length)
        exact ⟨List.Subset.trans hw hw', (hk.mono hw').append hk'⟩
      | stop l' sc' =>
        rw [hturn] at ht
        exact ht
      | ret0 => exact ⟨List.Subset.refl _, .refl⟩
      | enolck => exact ⟨List.Subset.refl _, .refl⟩
    · obtain ⟨hw, hk⟩ := @ih sc (idx + 1)
      exact ⟨hw, Kept.append (l := [flp]) .refl hk⟩

/-- **`flckadj` wakes the sleepers of every lock it takes away or shortens**, and loses no
address. -/
theorem flckadj_kept {insrtp : ℕ} : Kept l (flckadj me fr l insrtp ld).2.1 fr
    (flckadj me fr l insrtp ld).2.2.frlock (flckadj me fr l insrtp ld).2.2.woken := by
  obtain ⟨e, l', ⟨ld', k, fr', woken⟩, hr⟩ : ∃ e l' sc', scan me ⟨ld, insrtp, fr, []⟩ (insrtp - 1)
    (l.drop (insrtp - 1)) = (e, l', sc') := ⟨_, _, _, rfl⟩
  have hscan := @scan_kept me ⟨ld, insrtp, fr, []⟩ (insrtp - 1) (l.drop (insrtp - 1))
  rw [hr] at hscan
  have h : Kept l (l.take (insrtp - 1) ++ l') fr fr' woken := by
    have := Kept.append (l := l.take (insrtp - 1)) .refl hscan.2
    rwa [take_append_drop] at this
  simp only [flckadj, hr]
  cases e with
  | ret0 => exact h
  | enolck => exact h
  | fell =>
    dsimp only
    split_ifs
    · exact h
    · cases fr' with
      | nil => exact h
      | cons a fr' =>
        -- the request goes in with an address of the free list
        exact h.trans (kept_insert insertFrom_perm)

/-- `sys_cleanlocks` deletes the locks of the process one by one. -/
theorem cleaned_kept {gone : Rec → Bool} :
    let sc' := (l.filter gone).foldl (fun sc r => sc.delflck r) sc
    sc.woken ⊆ sc'.woken ∧ Kept l (l.filter fun r => !gone r) sc.frlock sc'.frlock sc'.woken := by
  induction l generalizing sc with
  | nil => exact ⟨List.Subset.refl _, .refl⟩
  | cons r rest ih =>
    dsimp only at ih ⊢
    by_cases hg : gone r
    · rw [filter_cons_of_pos hg, filter_cons_of_neg (by simp [hg])]
      obtain ⟨hw, hk⟩ := @ih (sc.delflck r)
      have hd : Kept [r] [] sc.frlock (sc.delflck r).frlock (sc.delflck r).woken :=
        kept_delete Adj.wakeup_wakes
      exact ⟨List.Subset.trans Adj.woken_wakeup hw, (hd.mono hw).append hk⟩
    · rw [filter_cons_of_neg hg, filter_cons_of_pos (by simp [hg])]
      obtain ⟨hw, hk⟩ := @ih sc
      exact ⟨hw, Kept.append (l := [r]) .refl hk⟩

/-! ## `blocked` -/

theorem blockedLow_inl {k : ℕ} {r : Rec} (hld : ld.lStart ≤ ld.lEnd)
    (h : blockedLow me ld k l = .inl r) : r ∈ l ∧ InTheWay me ld r.lock := by
  induction l generalizing k with
  | nil => cases h
  | cons f rest ih =>
    unfold blockedLow at h
    split_ifs at h with h1 h2 h3 h4
    · obtain ⟨hm, hw⟩ := ih h
      exact ⟨mem_cons_of_mem _ hm, hw⟩
    · cases h
      exact ⟨mem_cons_self, h2, by omega, h4.1, h4.2⟩
    · obtain ⟨hm, hw⟩ := ih h
      exact ⟨mem_cons_of_mem _ hm, hw⟩

theorem blockedLow_inr {k k' : ℕ} (h : blockedLow me ld k l = .inr (k', l')) : l' ⊆ l := by
  induction l generalizing k with
  | nil => cases h; exact List.Subset.refl _
  | cons f rest ih =>
    unfold blockedLow at h
    split_ifs at h
    · cases h; exact List.Subset.refl _
    · exact subset_cons_of_subset _ (ih h)
    · exact subset_cons_of_subset _ (ih h)
    · cases h; exact List.Subset.refl _

theorem blockedHigh_some {r : Rec} (h : blockedHigh me ld l = some r) :
    r ∈ l ∧ InTheWay me ld r.lock := by
  induction l with
  | nil => cases h
  | cons f rest ih =>
    unfold blockedHigh at h
    split_ifs at h with h1 h2
    · cases h
      exact ⟨mem_cons_self, h2.2.1, by omega, h2.1, h2.2.2⟩
    · obtain ⟨hm, hw⟩ := ih h
      exact ⟨mem_cons_of_mem _ hm, hw⟩

/-- **The lock that `blocked` returns is in the way.** -/
theorem blocked_inl {r : Rec} (hld : ld.lStart ≤ ld.lEnd) (h : blocked me l ld = .inl r) :
    r ∈ l ∧ InTheWay me ld r.lock := by
  unfold blocked at h
  cases hl : blockedLow me ld 0 l with
  | inl f =>
    rw [hl] at h
    cases h
    exact blockedLow_inl hld hl
  | inr p =>
    obtain ⟨insrt, rest⟩ := p
    rw [hl] at h
    dsimp only at h
    cases hh : blockedHigh me ld rest with
    | none => simp [hh] at h
    | some f =>
      rw [hh] at h
      cases h
      obtain ⟨hm, hw⟩ := blockedHigh_some hh
      exact ⟨blockedLow_inr hl hm, hw⟩

end Rec

end Os
