import OpusSysV.Cmd.SccsText

/-!
# The body of an SCCS file

* `view` — the lines that are kept when the body is read with a queue; `Pass` — lines of which none is.
* `brackets` — that the brackets of a body match, whatever applies.
* `readmod_spec`, `text_spec` — what is read, and what is written then.
-/

namespace Cmd.Sccs

open List Option

variable {code : ℕ → Code} {q q' : List Queue} {t : Pkt} {ls pre : List Str}

/-- A control line. -/
def IsCtl (line : Str) : Prop := line.head? = some CTLCHAR

instance (line : Str) : Decidable (IsCtl line) := inferInstanceAs (Decidable (_ = _))

/-- What a control line does to the queue. -/
def ctl (code : ℕ → Code) (q : List Queue) (line : Str) : Option (List Queue) :=
  (parse line).bind fun p => bracket code q p.1 p.2

/-- The lines that are kept. -/
def view (code : ℕ → Code) : List Queue → List Str → Option (List Str)
  | q, [] => if q = [] then some [] else none
  | q, l :: ls =>
    if IsCtl l then (ctl code q l).bind fun q => view code q ls
    else if setkeep q then (view code q ls).map (l :: ·) else view code q ls

/-- Lines of which none is kept, from one queue to another. -/
def Pass (code : ℕ → Code) : List Queue → List Str → List Queue → Prop
  | q, [], q' => q = q'
  | q, l :: ls, q' =>
    if IsCtl l then ∃ u, ctl code q l = some u ∧ Pass code u ls q'
    else setkeep q = false ∧ Pass code q ls q'

/-- The numbers of the brackets are serial numbers. -/
def InRange (m : ℕ) (ls : List Str) : Prop := ∀ l ∈ ls, ∀ p ∈ parse l, 0 < p.2 ∧ p.2 ≤ m

instance (m : ℕ) (ls : List Str) : Decidable (InRange m ls) :=
  inferInstanceAs (Decidable (∀ l ∈ ls, ∀ p ∈ parse l, 0 < p.2 ∧ p.2 ≤ m))

/-- The brackets match; `opened` has the numbers of those that are open. -/
def brackets : Finset ℕ → List Str → Bool
  | opened, [] => opened = ∅
  | opened, l :: ls =>
    if IsCtl l then
      match parse l with
      | none => false
      | some (iord, ser) =>
        if iord = END then ser ∈ opened ∧ brackets (opened.erase ser) ls
        else ser ∉ opened ∧ brackets (insert ser opened) ls
    else brackets opened ls

/-! ## The queue -/

/-- The queue goes down. -/
def Sorted (q : List Queue) : Prop := q.Pairwise fun a b => b.q_sernum < a.q_sernum

def sers (q : List Queue) : List ℕ := q.map Queue.q_sernum

theorem addq_spec {e : Queue} (hq : Sorted q) (he : e.q_sernum ∉ sers q) :
    ∃ u, addq q e = some u ∧ Sorted u ∧ ∀ x, x ∈ u ↔ x = e ∨ x ∈ q := by
  induction q with
  | nil => exact ⟨[e], rfl, pairwise_singleton _ _, fun x => by simp⟩
  | cons c q ih =>
    obtain ⟨hc, hq'⟩ := pairwise_cons.mp hq
    have hne : c.q_sernum ≠ e.q_sernum := fun h => he (h ▸ mem_cons_self)
    unfold addq
    by_cases hle : c.q_sernum ≤ e.q_sernum
    · rw [if_pos hle, if_neg hne]
      have hlt := Nat.lt_of_le_of_ne hle hne
      refine ⟨e :: c :: q, rfl, pairwise_cons.mpr ⟨fun x hx => ?_, hq⟩, fun x => by simp⟩
      rcases mem_cons.mp hx with rfl | hx
      · exact hlt
      · exact (hc x hx).trans hlt
    · rw [if_neg hle]
      obtain ⟨u, hu, hs, hmem⟩ := ih hq' fun h => he (mem_cons_of_mem _ h)
      refine ⟨c :: u, by rw [hu]; rfl, pairwise_cons.mpr ⟨fun x hx => ?_, hs⟩, fun x => ?_⟩
      · rcases (hmem x).mp hx with rfl | hx
        · exact Nat.lt_of_not_le hle
        · exact hc x hx
      · simp only [mem_cons, hmem]
        tauto

theorem remq_spec {ser : ℕ} (hq : Sorted q) (he : ser ∈ sers q) :
    ∃ u, remq q ser = some u ∧ Sorted u ∧ ∀ x, x ∈ u ↔ x ∈ q ∧ x.q_sernum ≠ ser := by
  induction q with
  | nil => cases he
  | cons c q ih =>
    obtain ⟨hc, hq'⟩ := pairwise_cons.mp hq
    unfold remq
    by_cases h : c.q_sernum = ser
    · rw [if_pos h]
      refine ⟨q, rfl, hq', fun x => ⟨fun hx => ⟨mem_cons_of_mem _ hx, ?_⟩, fun ⟨hx, hne⟩ => ?_⟩⟩
      · have := hc x hx
        omega
      · rcases mem_cons.mp hx with rfl | hx
        · exact absurd h hne
        · exact hx
    · rw [if_neg h]
      have hin : ser ∈ sers q := (mem_cons.mp he).resolve_left fun heq => h heq.symm
      obtain ⟨u, hu, hs, hmem⟩ := ih hq' hin
      refine ⟨c :: u, by rw [hu]; rfl, pairwise_cons.mpr ⟨fun x hx => ?_, hs⟩, fun x => ?_⟩
      · exact hc x ((hmem x).mp hx).1
      · simp only [mem_cons, hmem]
        constructor
        · rintro (rfl | ⟨hx, hne⟩)
          · exact ⟨.inl rfl, h⟩
          · exact ⟨.inr hx, hne⟩
        · rintro ⟨rfl | hx, hne⟩
          · exact .inl rfl
          · exact .inr ⟨hx, hne⟩

theorem sernum_mem_sers {x : Queue} (h : x ∈ q) : x.q_sernum ∈ sers q := mem_map_of_mem h

theorem mem_sers {n : ℕ} : n ∈ sers q ↔ ∃ x ∈ q, x.q_sernum = n := mem_map

/-- A control line, when the brackets match. -/
theorem ctl_spec {l : Str} {opened : Finset ℕ} (hb : brackets opened (l :: ls) = true) (hl : IsCtl l)
    (hq : Sorted q) (hs : ∀ n, n ∈ sers q ↔ n ∈ opened) :
    ∃ u opened', ctl code q l = some u ∧ Sorted u ∧ (∀ n, n ∈ sers u ↔ n ∈ opened') ∧
      brackets opened' ls = true := by
  unfold brackets at hb
  rw [if_pos hl] at hb
  unfold ctl bracket
  cases hp : parse l with
  | none =>
    rw [hp] at hb
    cases hb
  | some p =>
    obtain ⟨iord, ser⟩ := p
    rw [hp] at hb
    dsimp only [bind_some] at hb ⊢
    by_cases hend : iord = END
    · simp only [hend, if_true, decide_eq_true_eq] at hb ⊢
      obtain ⟨u, hu, hsu, hmem⟩ := remq_spec hq ((hs ser).mpr hb.1)
      refine ⟨u, opened.erase ser, hu, hsu, fun n => ?_, hb.2⟩
      rw [mem_sers, Finset.mem_erase, ← hs, mem_sers]
      constructor
      · rintro ⟨x, hx, rfl⟩
        exact ⟨((hmem x).mp hx).2, x, ((hmem x).mp hx).1, rfl⟩
      · rintro ⟨hne, x, hx, rfl⟩
        exact ⟨x, (hmem x).mpr ⟨hx, hne⟩, rfl⟩
    · simp only [hend, if_false, decide_eq_true_eq] at hb ⊢
      obtain ⟨u, hu, hsu, hmem⟩ := addq_spec (e := ⟨ser, keepOf code iord ser, iord⟩) hq
        fun h => hb.1 ((hs ser).mp h)
      refine ⟨u, insert ser opened, hu, hsu, fun n => ?_, hb.2⟩
      rw [mem_sers, Finset.mem_insert, ← hs, mem_sers]
      constructor
      · rintro ⟨x, hx, rfl⟩
        rcases (hmem x).mp hx with rfl | hx
        · exact .inl rfl
        · exact .inr ⟨x, hx, rfl⟩
      · rintro (rfl | ⟨x, hx, rfl⟩)
        · exact ⟨_, (hmem _).mpr (.inl rfl), rfl⟩
        · exact ⟨x, (hmem x).mpr (.inr hx), rfl⟩

/-- A body whose brackets match has a text, whatever applies. -/
theorem view_isSome {opened : Finset ℕ} (hb : brackets opened ls = true) :
    ∀ {q}, Sorted q → (∀ n, n ∈ sers q ↔ n ∈ opened) → (view code q ls).isSome := by
  induction ls generalizing opened with
  | nil =>
    intro q _ hs
    have hempty : opened = ∅ := of_decide_eq_true hb
    have hq : q = [] := by
      refine eq_nil_iff_forall_not_mem.mpr fun x hx => ?_
      have := (hs x.q_sernum).mp (sernum_mem_sers hx)
      rw [hempty] at this
      exact Finset.notMem_empty _ this
    rw [hq]
    rfl
  | cons l ls ih =>
    intro q hq hs
    unfold view
    by_cases hl : IsCtl l
    · obtain ⟨u, opened', hu, hsu, hmem, hb'⟩ := @ctl_spec code _ _ _ _ hb hl hq hs
      rw [if_pos hl, hu]
      exact ih hb' hsu hmem
    · unfold brackets at hb
      rw [if_neg hl] at hb ⊢
      split
      · rw [isSome_map]
        exact ih hb hq hs
      · exact ih hb hq hs

/-! ## Lines that are not kept -/

/-- Up to the next line that is kept, or to the end. -/
theorem view_cases {vs : List Str} (h : view code q ls = some vs) :
    (vs = [] ∧ Pass code q ls []) ∨
    ∃ v vs' pre ls' q', vs = v :: vs' ∧ ls = pre ++ v :: ls' ∧ Pass code q pre q' ∧
      ¬ IsCtl v ∧ setkeep q' = true ∧ view code q' ls' = some vs' := by
  induction ls generalizing q with
  | nil =>
    unfold view at h
    split at h
    next hq => cases h; exact .inl ⟨rfl, hq⟩
    next => cases h
  | cons l ls ih =>
    unfold view at h
    by_cases hl : IsCtl l
    · rw [if_pos hl] at h
      obtain ⟨u, hu, h⟩ := bind_eq_some_iff.mp h
      rcases ih h with ⟨hv, hp⟩ | ⟨v, vs', pre, ls', q', hv, hls, hp, hrest⟩
      · refine .inl ⟨hv, ?_⟩
        unfold Pass
        rw [if_pos hl]
        exact ⟨u, hu, hp⟩
      · refine .inr ⟨v, vs', l :: pre, ls', q', hv, by rw [hls]; rfl, ?_, hrest⟩
        unfold Pass
        rw [if_pos hl]
        exact ⟨u, hu, hp⟩
    · rw [if_neg hl] at h
      by_cases hk : setkeep q = true
      · rw [if_pos hk] at h
        obtain ⟨vs', hvs, rfl⟩ := map_eq_some_iff.mp h
        exact .inr ⟨l, vs', [], ls, q, rfl, rfl, rfl, hl, hk, hvs⟩
      · rw [if_neg hk] at h
        have hk' := Bool.eq_false_iff.mpr hk
        rcases ih h with ⟨hv, hp⟩ | ⟨v, vs', pre, ls', q', hv, hls, hp, hrest⟩
        · refine .inl ⟨hv, ?_⟩
          unfold Pass
          rw [if_neg hl]
          exact ⟨hk', hp⟩
        · refine .inr ⟨v, vs', l :: pre, ls', q', hv, by rw [hls]; rfl, ?_, hrest⟩
          unfold Pass
          rw [if_neg hl]
          exact ⟨hk', hp⟩

/-! ## Reading -/

namespace Pkt

/-- The line in the packet that is not written yet. -/
def held (t : Pkt) : List Str := if t.p_wrttn then [] else [t.p_line]

/-- The x-file with some more lines. -/
def puts (t : Pkt) (ls : List Str) : List Str := if t.p_upd then t.out ++ ls else t.out

theorem getline_line {l : Str} (h : t.p_iop = some (l :: ls)) : t.getline =
    some (true, { t with p_iop := some ls, p_line := l, p_wrttn := false, out := t.puts t.held }) := by
  unfold getline putline puts held
  cases hw : t.p_wrttn <;> cases hu : t.p_upd <;> simp [h, hu]

theorem getline_eof (h : t.p_iop = some []) : ∃ u, t.getline = some (false, u) ∧
    u.out = t.puts t.held ∧ u.p_iop = none ∧ u.p_q = t.p_q ∧ u.p_glnno = t.p_glnno ∧
      u.p_upd = t.p_upd ∧ (t.p_upd = true → u.p_wrttn = true) := by
  unfold getline putline puts held
  cases hw : t.p_wrttn <;> cases hu : t.p_upd <;> simp [h, hw, hu]

theorem puts_puts {u : Pkt} (hu : u.p_upd = t.p_upd) (a b : List Str) (h : u.out = t.puts a) :
    u.puts b = t.puts (a ++ b) := by
  unfold puts at h ⊢
  rw [h, hu]
  split
  · rw [append_assoc]
  · rfl

theorem control_spec {l : Str} (hu : ctl t.p_apply t.p_q l = some q) (hl : t.p_line = l)
    (hr : ∀ p ∈ parse l, 0 < p.2 ∧ p.2 ≤ t.maxser) :
    t.control = some { t with p_q := q, p_keep := setkeep q } := by
  unfold ctl at hu
  obtain ⟨⟨iord, ser⟩, hp, hb⟩ := bind_eq_some_iff.mp hu
  have hrange := hr _ hp
  unfold control
  rw [hl, hp]
  dsimp only [bind_some] at hb ⊢
  rw [if_pos hrange, hb]
  rfl

/-- The x-file after a line that is read. -/
theorem puts_held {u : Pkt} {l : Str} {pre : List Str} (hu : u.p_upd = t.p_upd)
    (hout : u.out = t.puts t.held) (hheld : u.held = [l]) :
    u.puts (u.held ++ pre) = t.puts (t.held ++ l :: pre) := by
  rw [hheld, puts_puts hu _ _ hout]
  rfl

/-- `readmod` passes a line. -/
theorem readmodLoop_cons {l : Str} {pre rest : List Str} {k : ℕ}
    (hp : Pass t.p_apply t.p_q (l :: pre) q') (hr : InRange t.maxser (l :: pre))
    (hio : t.p_iop = some (l :: rest)) (hkeep : t.p_keep = setkeep t.p_q) :
    ∃ w u, Pass t.p_apply w pre q' ∧ readmodLoop (k + 1) t = readmodLoop k u ∧ u = { t with
      p_iop := some rest, p_line := l, p_wrttn := false, out := t.puts t.held,
      p_q := w, p_keep := setkeep w } := by
  rw [readmodLoop, getline_line hio]
  unfold Pass at hp
  split_ifs at hp with hl
  · obtain ⟨w, hw, hp⟩ := hp
    have hl' : l.head? = some CTLCHAR := hl
    have hctl := control_spec (t := { t with
      p_iop := some rest, p_line := l, p_wrttn := false, out := t.puts t.held }) hw rfl
      (hr l mem_cons_self)
    refine ⟨w, _, hp, ?_, rfl⟩
    simp only [hl', if_true, hctl, bind_some]
  · have hl' : ¬ l.head? = some CTLCHAR := hl
    have hkeep' : t.p_keep = false := hkeep.trans hp.1
    refine ⟨t.p_q, _, hp.2, ?_, rfl⟩
    simp only [hl', if_false, hkeep', Bool.false_eq_true, hp.1]

/-- `readmod` up to the next line of the text. -/
theorem readmodLoop_line {v : Str} (hv : ¬ IsCtl v) (hk : setkeep q' = true) :
    ∀ {pre : List Str} {k : ℕ} {t : Pkt}, pre.length < k → Pass t.p_apply t.p_q pre q' →
      InRange t.maxser pre → t.p_iop = some (pre ++ v :: ls) → t.p_keep = setkeep t.p_q →
      readmodLoop k t = some (true, { t with
        p_iop := some ls, p_line := v, p_wrttn := false, p_q := q', p_keep := true,
        p_glnno := t.p_glnno + 1, out := t.puts (t.held ++ pre) }) := by
  intro pre
  induction pre with
  | nil =>
    intro k t hlen hp _ hio hkeep
    obtain ⟨k, rfl⟩ := Nat.exists_eq_succ_of_ne_zero (Nat.ne_of_gt hlen)
    have hq : t.p_q = q' := hp
    unfold readmodLoop
    rw [getline_line hio]
    have hv' : ¬ v.head? = some CTLCHAR := hv
    have hkeep' : t.p_keep = true := by rw [hkeep, hq, hk]
    simp only [hv', if_false, hkeep', if_true, hq, append_nil]
  | cons l pre ih =>
    intro k t hlen hp hr hio hkeep
    obtain ⟨k, rfl⟩ := Nat.exists_eq_succ_of_ne_zero (Nat.ne_of_gt (Nat.zero_lt_of_lt hlen))
    obtain ⟨w, u, hw, heq, hu⟩ := readmodLoop_cons (k := k) hp hr hio hkeep
    have hrec := ih (t := u) (Nat.lt_of_succ_lt_succ hlen) (by rw [hu]; exact hw)
      (by rw [hu]; exact fun x hx => hr x (mem_cons_of_mem _ hx)) (by rw [hu]; rfl) (by rw [hu])
    rw [puts_held (t := t) (by rw [hu]) (by rw [hu]) (by rw [hu]; rfl), hu] at hrec
    exact (hu ▸ heq).trans hrec

/-- `readmod` at the end of the text. -/
theorem readmodLoop_eof : ∀ {pre : List Str} {k : ℕ} {t : Pkt}, pre.length < k →
    Pass t.p_apply t.p_q pre [] → InRange t.maxser pre → t.p_iop = some pre →
    t.p_keep = setkeep t.p_q →
    ∃ u, readmodLoop k t = some (false, u) ∧ u.out = t.puts (t.held ++ pre) ∧ u.p_iop = none := by
  intro pre
  induction pre with
  | nil =>
    intro k t hlen hp _ hio _
    obtain ⟨k, rfl⟩ := Nat.exists_eq_succ_of_ne_zero (Nat.ne_of_gt hlen)
    obtain ⟨u, hu, hout, hnone, hq, _⟩ := getline_eof hio
    unfold readmodLoop
    rw [hu]
    have hq' : u.p_q = [] := hq.trans hp
    simp only [hq', if_true]
    exact ⟨u, rfl, by rw [hout, append_nil], hnone⟩
  | cons l pre ih =>
    intro k t hlen hp hr hio hkeep
    obtain ⟨k, rfl⟩ := Nat.exists_eq_succ_of_ne_zero (Nat.ne_of_gt (Nat.zero_lt_of_lt hlen))
    obtain ⟨w, v, hw, heq, hv⟩ := readmodLoop_cons (k := k) hp hr hio hkeep
    obtain ⟨u, hu, hout, hnone⟩ := ih (t := v) (Nat.lt_of_succ_lt_succ hlen) (by rw [hv]; exact hw)
      (by rw [hv]; exact fun x hx => hr x (mem_cons_of_mem _ hx)) (by rw [hv]) (by rw [hv])
    exact ⟨u, heq.trans hu,
      hout.trans (puts_held (by rw [hv]) (by rw [hv]) (by rw [hv]; rfl)), hnone⟩

/-- The text is what is kept, and the rest of the body is copied. -/
theorem textLoop_spec : ∀ {vs : List Str} {k : ℕ} {t : Pkt} {ls : List Str}, ls.length < k →
    view t.p_apply t.p_q ls = some vs → InRange t.maxser ls → t.p_iop = some ls →
    t.p_keep = setkeep t.p_q →
    ∃ u, textLoop k t = some (vs, u) ∧ u.out = t.puts (t.held ++ ls) ∧ u.p_iop = none := by
  intro vs
  induction vs with
  | nil =>
    intro k t ls hlen hv hr hio hkeep
    obtain ⟨k, rfl⟩ := Nat.exists_eq_succ_of_ne_zero (Nat.ne_of_gt (Nat.zero_lt_of_lt hlen))
    rcases view_cases hv with ⟨_, hp⟩ | ⟨_, _, _, _, _, hnil, _⟩
    · have hfuel : ls.length < (t.p_iop.getD []).length + 1 := by
        rw [hio]
        exact Nat.lt_succ_self _
      obtain ⟨u, hu, hout, hnone⟩ := readmodLoop_eof hfuel hp hr hio hkeep
      unfold textLoop readmod
      rw [hu]
      exact ⟨u, rfl, hout, hnone⟩
    · cases hnil
  | cons v vs ih =>
    intro k t ls hlen hv hr hio hkeep
    obtain ⟨k, rfl⟩ := Nat.exists_eq_succ_of_ne_zero (Nat.ne_of_gt (Nat.zero_lt_of_lt hlen))
    rcases view_cases hv with ⟨hnil, _⟩ | ⟨v', vs', pre, ls', q', heq, hls, hp, hctl, hk, hv'⟩
    · cases hnil
    · cases heq
      have hfuel : pre.length < (t.p_iop.getD []).length + 1 := by
        rw [hio, hls, getD_some, length_append]
        omega
      have hrpre : InRange t.maxser pre := fun x hx => hr x (by rw [hls]; simp [hx])
      have hrls : InRange t.maxser ls' := fun x hx => hr x (by rw [hls]; simp [hx])
      have hread := readmodLoop_line hctl hk hfuel hp hrpre (hls ▸ hio) hkeep
      obtain ⟨u, hu⟩ : ∃ u : Pkt, u = { t with
        p_iop := some ls', p_line := v, p_wrttn := false, p_q := q', p_keep := true,
        p_glnno := t.p_glnno + 1, out := t.puts (t.held ++ pre) } := ⟨_, rfl⟩
      have hlen' : ls'.length < k := by
        rw [hls] at hlen
        simp at hlen
        omega
      obtain ⟨w, hw, hout, hnone⟩ := ih (k := k) (t := u) hlen' (hu ▸ hv') (hu ▸ hrls)
        (by rw [hu]) (by rw [hu, hk])
      unfold textLoop readmod
      rw [hread, ← hu]
      dsimp only
      rw [hw]
      refine ⟨w, by rw [hu]; rfl, ?_, hnone⟩
      rw [hout, puts_puts (t := t) (by rw [hu]) _ _ (by rw [hu])]
      congr 1
      rw [hls, hu]
      simp [held]

theorem text_spec {vs : List Str} (hv : view t.p_apply t.p_q ls = some vs) (hr : InRange t.maxser ls)
    (hio : t.p_iop = some ls) (hkeep : t.p_keep = setkeep t.p_q) :
    ∃ u, t.text = some (vs, u) ∧ u.out = t.puts (t.held ++ ls) ∧ u.p_iop = none := by
  unfold text
  rw [hio]
  exact textLoop_spec (Nat.lt_succ_self _) hv hr hio hkeep

end Pkt

/-! ## Well-formed files -/

/-- A line of the text of a file. -/
structure TextLine (l : Str) : Prop where
  text : ¬ IsCtl l
  ends : ∃ s, l = s ++ ['\n'] ∧ '\n' ∉ s
  null : '\x00' ∉ l

theorem textLine_short (c : Char) (h : c ≠ CTLCHAR ∧ c ≠ '\n' ∧ c ≠ '\x00') : TextLine [c, '\n'] :=
  ⟨fun hc => h.1 (Option.some.inj hc), ⟨[c], rfl, by simpa using h.2.1.symm⟩, by
    simpa using h.2.2.symm⟩

/-- The newest entry has the greatest number, each number occurs once, and the predecessor of a delta is a
delta unless it is the first; the brackets of the body match and have the numbers of deltas. -/
structure WF (f : SFile) : Prop where
  serials : f.table.Pairwise fun a b => b.d_serial < a.d_serial
  positive : ∀ dt ∈ f.table, 0 < dt.d_serial
  pred : ∀ dt ∈ f.table, dt.d_type = 'D' → dt.d_serial ≠ 1 →
    ∃ p ∈ f.table, p.d_type = 'D' ∧ p.d_serial = dt.d_pred ∧ dt.d_pred < dt.d_serial
  brackets : brackets ∅ f.body = true
  inRange : InRange f.maxser f.body
  text : ∀ l ∈ f.body, ¬ IsCtl l → TextLine l

/-- The text of a delta of a well-formed file is what is kept of the body. -/
theorem WF.text_eq {f : SFile} (h : WF f) (serial : ℕ) (cutoff : Int32) : f.text serial cutoff =
    (setup f serial cutoff).bind fun ap => view (fun n => (ap n).a_code) [] f.body := by
  unfold SFile.text
  cases setup f serial cutoff with
  | none => rfl
  | some ap =>
    have hsome := @view_isSome (fun n => (ap n).a_code) _ _ h.brackets []
      List.Pairwise.nil (fun n => by simp [sers])
    obtain ⟨vs, hvs⟩ := isSome_iff_exists.mp hsome
    obtain ⟨u, hu, _⟩ := Pkt.text_spec
      (t := Pkt.start (fun n => (ap n).a_code) f.maxser false f.body) hvs h.inRange rfl rfl
    simp only [bind_some, hu, hvs]
    rfl

end Cmd.Sccs
