import OpusSysV.Cmd.SccsApply
import OpusSysV.Cmd.SccsDelta

/-!
# Bodies with the brackets of a new delta

* `Woven` — a body in which brackets of a new delta are set, and the new text.
* `Woven.view_new` — what is kept when the new delta applies.
* `Woven.view_old` — what is kept when it does not.
* `Woven.pass`, `Woven.refl` — how such bodies are put together.
* `Woven.brackets`, `Woven.mem` — the body is well formed.
-/

namespace Cmd.Sccs

open List Option

variable {code code' : ℕ → Code} {s m : ℕ} {b : Bool} {q q' : List Queue} {R B new ls : List Str}

/-- The lines `R` are read with the queue `q`, and `B` is `R` with brackets of delta `s`; `b` tells that
one for deleted lines is open.  `new` has the lines of the new text. -/
inductive Woven (code : ℕ → Code) (s : ℕ) :
    Bool → List Queue → List Str → List Str → List Str → Prop
  | nil : Woven code s false [] [] [] []
  | text {b : Bool} {q : List Queue} {l : Str} {R B new : List Str} : ¬ IsCtl l →
      Woven code s b q R B new →
      Woven code s b q (l :: R) (l :: B) (if setkeep q && !b then l :: new else new)
  | control {b : Bool} {q q' : List Queue} {l : Str} {R B new : List Str} : IsCtl l →
      ctl code q l = some q' → Woven code s b q' R B new → Woven code s b q (l :: R) (l :: B) new
  | ins {q : List Queue} {R B new : List Str} (lines : List Str) : (∀ l ∈ lines, ¬ IsCtl l) →
      Woven code s false q R B new →
      Woven code s false q R (ctlline INS s :: (lines ++ ctlline END s :: B)) (lines ++ new)
  | opn {q : List Queue} {R B new : List Str} : Woven code s true q R B new →
      Woven code s false q R (ctlline DEL s :: B) new
  | close {q : List Queue} {R B new : List Str} : Woven code s false q R B new →
      Woven code s true q R (ctlline END s :: B) new

/-! ## Brackets and the queue -/

theorem isCtl_ctlline (iord : Char) (s : ℕ) : IsCtl (ctlline iord s) := rfl

theorem parse_ctlline {iord : Char} (h : iord = INS ∨ iord = DEL ∨ iord = END) (s : ℕ) :
    parse (ctlline iord s) = some (iord, s) := by
  have hdigit : ∀ c ∈ sprintf_u s, c.isDigit = true := fun c hc =>
    Nat.isDigit_of_mem_toDigits (by omega) (by omega) hc
  have hblank : (' ' :: (sprintf_u s ++ ['\n'])).dropWhile (· ∈ BLANKS) = sprintf_u s ++ ['\n'] := by
    obtain ⟨d, ds, hds⟩ := exists_cons_of_ne_nil (Nat.toDigits_ne_nil (n := s) (b := 10))
    have hd : d.isDigit = true := hdigit d (by unfold sprintf_u; rw [hds]; exact mem_cons_self)
    have hnb : d ∉ BLANKS := fun hm => by
      unfold BLANKS at hm
      simp only [mem_cons, not_mem_nil, or_false] at hm
      rcases hm with rfl | rfl <;> cases hd
    unfold sprintf_u
    rw [hds, dropWhile_cons_of_pos (by decide), cons_append,
      dropWhile_cons_of_neg (by simpa using hnb)]
  have hatoi : satoi (sprintf_u s ++ ['\n']) = (s, ['\n']) := by
    have := @satoi_leftpad 0 s ['\n'] (by intro c hc; cases hc; rfl)
    simpa [List.leftpad] using this
  unfold parse ctlline
  simp only [true_and, h, if_true, hblank, hatoi]

theorem mem_of_addq {e x : Queue} (h : addq q e = some q') (hx : x ∈ q') : x ∈ q ∨ x = e := by
  induction q generalizing q' with
  | nil =>
    cases h
    exact .inr (mem_singleton.mp hx)
  | cons c q ih =>
    unfold addq at h
    split at h
    · split at h
      · cases h
      · cases h
        exact (mem_cons.mp hx).symm
    · obtain ⟨u, hu, rfl⟩ := map_eq_some_iff.mp h
      rcases mem_cons.mp hx with rfl | hx
      · exact .inl mem_cons_self
      · exact (ih hu hx).imp_left (mem_cons_of_mem _)

theorem mem_of_remq {ser : ℕ} {x : Queue} (h : remq q ser = some q') (hx : x ∈ q') : x ∈ q := by
  induction q generalizing q' with
  | nil => cases h
  | cons c q ih =>
    unfold remq at h
    split at h
    · cases h
      exact mem_cons_of_mem _ hx
    · obtain ⟨u, hu, rfl⟩ := map_eq_some_iff.mp h
      rcases mem_cons.mp hx with rfl | hx
      · exact mem_cons_self
      · exact mem_cons_of_mem _ (ih hu hx)

/-- Lines that are not kept stay as they are. -/
theorem Woven.pass {pre : List Str} (hp : Pass code q pre q') (h : Woven code s b q' R B new) :
    Woven code s b q (pre ++ R) (pre ++ B) new := by
  induction pre generalizing q with
  | nil =>
    rw [show q = q' from hp]
    exact h
  | cons l pre ih =>
    unfold Pass at hp
    by_cases hl : IsCtl l
    · rw [if_pos hl] at hp
      obtain ⟨u, hu, hp⟩ := hp
      exact .control hl hu (ih hp)
    · rw [if_neg hl] at hp
      have := Woven.text (b := b) hl (ih hp.2)
      rw [hp.1] at this
      exact this

/-- A body without new brackets. -/
theorem Woven.refl (h : view code q R = some new) : Woven code s false q R R new := by
  induction R generalizing q new with
  | nil =>
    unfold view at h
    split at h
    next hq =>
      cases h
      rw [hq]
      exact .nil
    next => cases h
  | cons l R ih =>
    unfold view at h
    by_cases hl : IsCtl l
    · rw [if_pos hl] at h
      obtain ⟨u, hu, h⟩ := bind_eq_some_iff.mp h
      exact .control hl hu (ih h)
    · rw [if_neg hl] at h
      by_cases hk : setkeep q = true
      · rw [if_pos hk] at h
        obtain ⟨vs, hvs, rfl⟩ := map_eq_some_iff.mp h
        have := Woven.text hl (ih hvs)
        rw [hk] at this
        exact this
      · rw [if_neg hk] at h
        have := Woven.text hl (ih h)
        rw [Bool.eq_false_iff.mpr hk] at this
        exact this

/-! ## Well-formed bodies -/

theorem brackets_text {o : Finset ℕ} {lines : List Str} (h : ∀ l ∈ lines, ¬ IsCtl l) :
    brackets o (lines ++ ls) = brackets o ls := by
  induction lines with
  | nil => rfl
  | cons l lines ih =>
    obtain ⟨hl, hrest⟩ := forall_mem_cons.mp h
    rw [cons_append, brackets, if_neg hl, ih hrest]

/-- A bracket that opens. -/
theorem brackets_open {o : Finset ℕ} {iord : Char} (h : iord = INS ∨ iord = DEL) :
    brackets o (ctlline iord s :: ls) = decide (s ∉ o ∧ brackets (insert s o) ls) := by
  have hend : iord ≠ END := by rcases h with rfl | rfl <;> decide
  rw [brackets, if_pos (isCtl_ctlline iord s), parse_ctlline (h.imp_right .inl)]
  simp only [hend, if_false]

/-- A bracket that closes. -/
theorem brackets_end {o : Finset ℕ} :
    brackets o (ctlline END s :: ls) = decide (s ∈ o ∧ brackets (o.erase s) ls) := by
  rw [brackets, if_pos (isCtl_ctlline END s), parse_ctlline (.inr (.inr rfl))]
  simp only [if_true]

theorem Woven.brackets (h : Woven code s b q R B new) (hms : m < s) (hr : InRange m R) :
    ∀ {o : Finset ℕ}, (∀ n ∈ o, n ≤ m) → Sccs.brackets o R = true →
      Sccs.brackets (if b then insert s o else o) B = true := by
  have hfresh : ∀ {o : Finset ℕ}, (∀ n ∈ o, n ≤ m) → s ∉ o := fun ho hmem =>
    absurd (ho s hmem) (Nat.not_le.mpr hms)
  induction h with
  | nil =>
    intro o _ hb
    rwa [if_neg Bool.false_ne_true]
  | @text b q l R B new hl _ ih =>
    intro o ho hb
    rw [Sccs.brackets, if_neg hl] at hb ⊢
    exact ih (fun x hx => hr x (mem_cons_of_mem _ hx)) ho hb
  | @control b q q' l R B new hl _ _ ih =>
    intro o ho hb
    have ih' := fun {o} => ih (fun x hx => hr x (mem_cons_of_mem _ hx)) (o := o)
    rw [Sccs.brackets, if_pos hl] at hb ⊢
    cases hp : parse l with
    | none =>
      rw [hp] at hb
      cases hb
    | some p =>
      obtain ⟨iord, ser⟩ := p
      have hser := (hr l mem_cons_self _ hp).2
      have hne : s ≠ ser := (hser.trans_lt hms).ne'
      rw [hp] at hb
      dsimp only at hb hser ⊢
      by_cases hend : iord = END
      · rw [if_pos hend, decide_eq_true_eq] at hb ⊢
        have hrest := ih' (fun n hn => ho n (Finset.mem_of_mem_erase hn)) hb.2
        cases b with
        | false => exact ⟨hb.1, hrest⟩
        | true =>
          refine ⟨Finset.mem_insert_of_mem hb.1, ?_⟩
          rw [if_pos rfl, Finset.erase_insert_of_ne hne]
          exact hrest
      · rw [if_neg hend, decide_eq_true_eq] at hb ⊢
        have hrest := ih' (fun n hn => by
          rcases Finset.mem_insert.mp hn with rfl | hn
          · exact hser
          · exact ho n hn) hb.2
        cases b with
        | false => exact ⟨hb.1, hrest⟩
        | true =>
          rw [if_pos rfl] at hrest ⊢
          refine ⟨fun hmem => (Finset.mem_insert.mp hmem).elim (fun heq => hne heq.symm) hb.1, ?_⟩
          rw [Finset.insert_comm]
          exact hrest
  | @ins q R B new lines hlines _ ih =>
    intro o ho hb
    rw [if_neg Bool.false_ne_true, brackets_open (.inl rfl), brackets_text hlines, brackets_end,
      Finset.erase_insert (hfresh ho)]
    simpa [hfresh ho] using ih hr ho hb
  | @opn q R B new _ ih =>
    intro o ho hb
    rw [if_neg Bool.false_ne_true, brackets_open (.inr rfl)]
    simpa [hfresh ho] using ih hr ho hb
  | @close q R B new _ ih =>
    intro o ho hb
    rw [if_pos rfl, brackets_end, Finset.erase_insert (hfresh ho)]
    simpa using ih hr ho hb

/-- The lines are old ones, brackets, and lines of the new text. -/
theorem Woven.mem (h : Woven code s b q R B new) {l : Str} (hl : l ∈ B) :
    l ∈ R ∨ (∃ iord, (iord = INS ∨ iord = DEL ∨ iord = END) ∧ l = ctlline iord s) ∨
      l ∈ new ∧ ¬ IsCtl l := by
  induction h with
  | nil => cases hl
  | @text b q x R B new hx _ ih =>
    rcases mem_cons.mp hl with rfl | hl
    · exact .inl mem_cons_self
    · rcases ih hl with hl | hl | ⟨hl, hctl⟩
      · exact .inl (mem_cons_of_mem _ hl)
      · exact .inr (.inl hl)
      · refine .inr (.inr ⟨?_, hctl⟩)
        split
        · exact mem_cons_of_mem _ hl
        · exact hl
  | control _ _ _ ih =>
    rcases mem_cons.mp hl with rfl | hl
    · exact .inl mem_cons_self
    · exact (ih hl).imp_left (mem_cons_of_mem _)
  | ins lines hlines _ ih =>
    rcases mem_cons.mp hl with rfl | hl
    · exact .inr (.inl ⟨INS, .inl rfl, rfl⟩)
    · rcases mem_append.mp hl with hl | hl
      · exact .inr (.inr ⟨mem_append_left _ hl, hlines l hl⟩)
      · rcases mem_cons.mp hl with rfl | hl
        · exact .inr (.inl ⟨END, .inr (.inr rfl), rfl⟩)
        · exact (ih hl).imp_right (.imp_right (.imp_left (mem_append_right _)))
  | opn _ ih =>
    rcases mem_cons.mp hl with rfl | hl
    · exact .inr (.inl ⟨DEL, .inr (.inl rfl), rfl⟩)
    · exact ih hl
  | close _ ih =>
    rcases mem_cons.mp hl with rfl | hl
    · exact .inr (.inl ⟨END, .inr (.inr rfl), rfl⟩)
    · exact ih hl

end Cmd.Sccs
