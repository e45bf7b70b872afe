import OpusSysV.Cmd.SccsTable

/-!
# `rmdel`

`rmdel` changes the type of an entry to `R`, checks that no delta has the removed one as its predecessor,
and drops the brackets of the delta from the body, with the text between those that insert.

* `rmdel` — the command.
* `strip`, `rmLoop_spec` — what is left of the body.
* `marked`, `rmdel_spec` — what is left of the table.
* `rmdel_wf` — the new file is well formed.
-/

namespace Cmd.Sccs

open Function List Option

variable {f g : SFile} {s m n : ℕ} {sid : Sid} {ls : List Str} {table : List Deltab}

/-! ## The command -/

/-- `dodelt(pkt, statp, sidp, 'R')`: the SID, which is zeroed when it is found, and the table. -/
def markLoop : Sid → List Deltab → Sid × List Deltab
  | sid, [] => (sid, [])
  | sid, dt :: rest =>
    if dt.d_type = 'D' ∧ dt.d_sid = sid then
      let (sid, rest) := markLoop ⟨0, 0, 0, 0⟩ rest
      (sid, { dt with d_type := 'R' } :: rest)
    else
      let (sid, rest) := markLoop sid rest
      (sid, dt :: rest)

/-- The check for a leaf: whether a newer delta, up to `n`, has the removed one as its predecessor. -/
def hasSuccessor (idel : ℕ → Idel) (D_serial : ℕ) : ℕ → Bool
  | 0 => false
  | n + 1 =>
    if D_serial < n + 1 then (idel (n + 1)).i_pred = D_serial || hasSuccessor idel D_serial n else false

/-- The letter and the number of a control line; there is no result after `fmterr`. -/
def rmparse (line : Str) : Option (Char × ℕ) :=
  match line with
  | _ :: cp :: p =>
    let (n, p) := satoi (p.dropWhile (· ∈ BLANKS))
    if p.head? = some '\n' then some (cp, n) else none
  | _ => none

/-- The pass over the body. -/
def rmLoop (D_serial : ℕ) : ℕ → Bool → Pkt → Option Pkt
  | 0, _, _ => none
  | k + 1, keep, t =>
    match t.getline with
    | none => none
    | some (false, t) => some t
    | some (true, t) =>
      if t.p_line.head? = some CTLCHAR then
        (rmparse t.p_line).bind fun (cp, n) =>
          if n = D_serial then rmLoop D_serial k (cp ≠ INS) { t with p_wrttn := true }
          else rmLoop D_serial k keep t
      else rmLoop D_serial k keep (if keep then t else { t with p_wrttn := true })

/-- `rmdel -r`, for one file. -/
def rmdel (f : SFile) (sid : Sid) : Option SFile :=
  let (left, table) := markLoop sid f.table
  let D_serial := f.sidtoser sid
  if left.s_rel ≠ 0 ∨ hasSuccessor f.idel D_serial f.maxser then none
  else
    (rmLoop D_serial (f.body.length + 1) true
      (Pkt.start (fun _ => .SX_EMPTY) f.maxser true f.body)).map fun t => ⟨table, t.out⟩

/-! ## The body -/

/-- The body without the brackets of delta `s`, and without the text between those that insert. -/
def strip (s : ℕ) : Bool → List Str → List Str
  | _, [] => []
  | keep, l :: ls =>
    if IsCtl l then
      match parse l with
      | some (iord, n) => if n = s then strip s (iord ≠ INS) ls else l :: strip s keep ls
      | none => l :: strip s keep ls
    else if keep then l :: strip s keep ls else strip s keep ls

theorem parse_of_rmparse {l : Str} {p p' : Char × ℕ} (h : parse l = some p) (h' : rmparse l = some p') :
    p' = p := by
  match l with
  | [] => cases h
  | [_] => cases h
  | c :: iord :: rest =>
    unfold parse at h
    unfold rmparse at h'
    dsimp only at h h'
    split at h
    · cases h
      split at h'
      · cases h'
        rfl
      · cases h'
    · cases h

theorem rmLoop_spec : ∀ {ls : List Str} {k : ℕ} {keep : Bool} {t u : Pkt},
    rmLoop s k keep t = some u → (∀ l ∈ ls, IsCtl l → ∃ p, parse l = some p) → t.p_iop = some ls →
      t.p_upd = true → u.out = t.out ++ t.held ++ strip s keep ls := by
  intro ls
  induction ls with
  | nil =>
    intro k keep t u h _ hio hu
    cases k with
    | zero => cases h
    | succ k =>
      obtain ⟨v, hv, hout, _⟩ := Pkt.getline_eof hio
      unfold rmLoop at h
      rw [hv] at h
      cases h
      rw [hout, Pkt.puts, if_pos hu, strip, append_nil]
  | cons l ls ih =>
    intro k keep t u h hctl hio hu
    obtain ⟨hl, hrest⟩ := forall_mem_cons.mp hctl
    cases k with
    | zero => cases h
    | succ k =>
      obtain ⟨v, hv⟩ : ∃ v : Pkt, v = { t with
        p_iop := some ls, p_line := l, p_wrttn := false, out := t.puts t.held } := ⟨_, rfl⟩
      obtain ⟨w, hw⟩ : ∃ w : Pkt, w = { v with p_wrttn := true } := ⟨_, rfl⟩
      have hvu : v.p_upd = true := by rw [hv]; exact hu
      have hout : v.out = t.out ++ t.held := by
        rw [hv]
        unfold Pkt.puts
        rw [if_pos hu]
      -- the line is written, or it is not
      have hkeep : ∀ {keep'}, rmLoop s k keep' v = some u →
          u.out = t.out ++ t.held ++ l :: strip s keep' ls := by
        intro keep' h
        have := ih h hrest (by rw [hv]) hvu
        rw [this, hout, show v.held = [l] by rw [hv]; rfl]
        simp
      have hdrop : ∀ {keep'}, rmLoop s k keep' w = some u →
          u.out = t.out ++ t.held ++ strip s keep' ls := by
        intro keep' h
        have := ih h hrest (by rw [hw, hv]) (by rw [hw]; exact hvu)
        rw [this, show w.held = [] by rw [hw]; rfl, show w.out = v.out by rw [hw], hout]
        simp
      have hline : v.p_line = l := by rw [hv]
      have hget : t.getline = some (true, v) := by
        rw [hv]
        exact Pkt.getline_line hio
      unfold rmLoop at h
      rw [hget] at h
      dsimp only at h
      rw [← hw, hline] at h
      unfold strip
      by_cases hc : IsCtl l
      · obtain ⟨p, hp⟩ := hl hc
        rw [if_pos hc, hp]
        rw [if_pos (show l.head? = some CTLCHAR from hc)] at h
        obtain ⟨p', hp', h⟩ := bind_eq_some_iff.mp h
        cases parse_of_rmparse hp hp'
        obtain ⟨iord, n⟩ := p
        dsimp only at h ⊢
        split at h
        next hn =>
          rw [if_pos hn]
          exact hdrop h
        next hn =>
          rw [if_neg hn]
          exact hkeep h
      · rw [if_neg hc]
        rw [if_neg (show ¬ l.head? = some CTLCHAR from hc)] at h
        cases keep with
        | true => exact hkeep h
        | false => exact hdrop h

theorem mem_of_mem_strip {l : Str} : ∀ {ls : List Str} {keep : Bool}, l ∈ strip s keep ls → l ∈ ls := by
  intro ls
  induction ls with
  | nil => exact fun {_} h => h
  | cons x ls ih =>
    intro keep h
    have hcons : ∀ {keep'}, l ∈ x :: strip s keep' ls → l ∈ x :: ls := fun h =>
      (mem_cons.mp h).elim (fun h => h ▸ mem_cons_self) fun h => mem_cons_of_mem _ (ih h)
    unfold strip at h
    split at h
    · split at h
      · split at h
        · exact mem_cons_of_mem _ (ih h)
        · exact hcons h
      · exact hcons h
    · split at h
      · exact hcons h
      · exact mem_cons_of_mem _ (ih h)

/-- The brackets of the other deltas match. -/
theorem strip_brackets : ∀ {ls : List Str} {o : Finset ℕ} {keep : Bool}, brackets o ls = true →
    brackets (o.erase s) (strip s keep ls) = true := by
  intro ls
  induction ls with
  | nil =>
    intro o _ h
    have ho : o = ∅ := of_decide_eq_true h
    rw [ho, Finset.erase_empty]
    rfl
  | cons l ls ih =>
    intro o keep h
    unfold brackets at h
    unfold strip
    by_cases hc : IsCtl l
    · rw [if_pos hc] at h ⊢
      cases hp : parse l with
      | none =>
        rw [hp] at h
        cases h
      | some p =>
        obtain ⟨iord, n⟩ := p
        rw [hp] at h
        dsimp only at h ⊢
        by_cases hn : n = s
        · rw [if_pos hn]
          split at h
          · obtain ⟨_, hb⟩ := of_decide_eq_true h
            rw [hn] at hb
            simpa using @ih _ (iord ≠ INS) hb
          · obtain ⟨_, hb⟩ := of_decide_eq_true h
            rw [hn] at hb
            simpa using @ih _ (iord ≠ INS) hb
        · rw [if_neg hn, brackets, if_pos hc, hp]
          dsimp only
          split at h
          next hend =>
            obtain ⟨hmem, hb⟩ := of_decide_eq_true h
            rw [if_pos hend, decide_eq_true_eq, Finset.erase_right_comm]
            exact ⟨Finset.mem_erase.mpr ⟨hn, hmem⟩, ih hb⟩
          next hend =>
            obtain ⟨hmem, hb⟩ := of_decide_eq_true h
            rw [if_neg hend, decide_eq_true_eq, ← Finset.erase_insert_of_ne fun h => hn h]
            exact ⟨fun h => hmem (Finset.mem_of_mem_erase h), ih hb⟩
    · rw [if_neg hc] at h ⊢
      split
      · rw [brackets, if_neg hc]
        exact ih h
      · exact ih h

/-! ## The table -/

/-- The SIDs of deltas have a release. -/
def Released (table : List Deltab) : Prop := ∀ dt ∈ table, dt.d_type = 'D' → dt.d_sid.s_rel ≠ 0

instance (table : List Deltab) : Decidable (Released table) :=
  inferInstanceAs (Decidable (∀ dt ∈ table, dt.d_type = 'D' → dt.d_sid.s_rel ≠ 0))

/-- An entry of the new table. -/
def mark (s : ℕ) (dt : Deltab) : Deltab :=
  if dt.d_type = 'D' ∧ dt.d_serial = s then { dt with d_type := 'R' } else dt

theorem mark_serial (s : ℕ) (dt : Deltab) : (mark s dt).d_serial = dt.d_serial := by
  unfold mark
  split <;> rfl

theorem mark_delta {dt : Deltab} (h : (mark s dt).d_type = 'D') : mark s dt = dt ∧ dt.d_serial ≠ s := by
  unfold mark at h ⊢
  split at h
  next => cases h
  next hn =>
    rw [if_neg hn]
    exact ⟨rfl, fun hs => hn ⟨h, hs⟩⟩

theorem mark_other {dt : Deltab} (h : dt.d_serial ≠ s) : mark s dt = dt := if_neg fun hs => h hs.2

theorem markLoop_zero (h : Released table) : markLoop ⟨0, 0, 0, 0⟩ table = (⟨0, 0, 0, 0⟩, table) := by
  induction table with
  | nil => rfl
  | cons dt table ih =>
    obtain ⟨hdt, hrest⟩ := forall_mem_cons.mp h
    unfold markLoop
    rw [if_neg fun hs => hdt hs.1 (by rw [hs.2]), ih hrest]

/-- The newest entry with the SID is marked. -/
theorem markLoop_spec (hr : Released table) (hp : table.Pairwise fun a b => b.d_serial < a.d_serial)
    {dt : Deltab} (hdt : dt ∈ table) (hd : dt.d_type = 'D') (hsid : dt.d_sid = sid)
    (hmax : ∀ x ∈ table, x.d_type = 'D' → x.d_sid = sid → x.d_serial ≤ dt.d_serial) :
    markLoop sid table = (⟨0, 0, 0, 0⟩, table.map (mark dt.d_serial)) := by
  induction table with
  | nil => cases hdt
  | cons x table ih =>
    obtain ⟨_, hr'⟩ := forall_mem_cons.mp hr
    obtain ⟨hx, hp'⟩ := pairwise_cons.mp hp
    obtain ⟨hxmax, hmax'⟩ := forall_mem_cons.mp hmax
    unfold markLoop
    rw [map_cons]
    split
    next hfound =>
      have hxdt : dt = x := by
        rcases mem_cons.mp hdt with h | h
        · exact h
        · have := hxmax hfound.1 hfound.2
          have := hx dt h
          omega
      have hrest : table.map (mark dt.d_serial) = table := by
        refine (map_congr_left fun y hy => mark_other ?_).trans (map_id _)
        rw [hxdt]
        exact (hx y hy).ne
      rw [markLoop_zero hr', hrest, hxdt, mark, if_pos ⟨hfound.1, rfl⟩]
    next hother =>
      have hmem : dt ∈ table := by
        rcases mem_cons.mp hdt with h | h
        · exact absurd (h ▸ ⟨hd, hsid⟩) hother
        · exact h
      rw [ih hr' hp' hmem hmax', mark_other (hx dt hmem).ne']

theorem sidtoserLoop_spec (idel : ℕ → Idel) (sid : Sid) (k : ℕ) :
    SFile.sidtoserLoop idel sid k ≤ k ∧
    (SFile.sidtoserLoop idel sid k ≠ 0 → (idel (SFile.sidtoserLoop idel sid k)).i_sid = sid) ∧
    ∀ j, 0 < j → j ≤ k → (idel j).i_sid = sid → j ≤ SFile.sidtoserLoop idel sid k := by
  induction k with
  | zero => exact ⟨le_rfl, fun h => absurd rfl h, fun j h1 h2 => by omega⟩
  | succ k ih =>
    obtain ⟨hle, hsid, hmax⟩ := ih
    unfold SFile.sidtoserLoop
    split
    next heq => exact ⟨le_rfl, fun _ => heq, fun j _ hj _ => hj⟩
    next hne =>
      refine ⟨Nat.le_succ_of_le hle, hsid, fun j h1 h2 h3 => hmax j h1 ?_ h3⟩
      rcases Nat.lt_or_eq_of_le h2 with h2 | rfl
      · exact Nat.le_of_lt_succ h2
      · exact absurd h3 hne

theorem hasSuccessor_spec {idel : ℕ → Idel} {k : ℕ} (h : hasSuccessor idel s k = false) :
    ∀ n, s < n → n ≤ k → (idel n).i_pred ≠ s := by
  induction k with
  | zero => exact fun n h1 h2 => by omega
  | succ k ih =>
    intro n h1 h2
    unfold hasSuccessor at h
    rw [if_pos (by omega), Bool.or_eq_false_iff] at h
    rcases Nat.lt_or_eq_of_le h2 with h2 | rfl
    · exact ih h.2 n h1 (Nat.le_of_lt_succ h2)
    · exact of_decide_eq_false h.1

/-! ## The new file -/

theorem parse_of_brackets {ls : List Str} : ∀ {o : Finset ℕ}, brackets o ls = true →
    ∀ l ∈ ls, IsCtl l → ∃ p, parse l = some p := by
  induction ls with
  | nil => exact nofun
  | cons x ls ih =>
    intro o h
    unfold brackets at h
    split at h
    next hx =>
      cases hp : parse x with
      | none =>
        rw [hp] at h
        cases h
      | some p =>
        rw [hp] at h
        dsimp only at h
        refine forall_mem_cons.mpr ⟨fun _ => ⟨p, hp⟩, ?_⟩
        split at h
        · exact ih (of_decide_eq_true h).2
        · exact ih (of_decide_eq_true h).2
    next hx => exact forall_mem_cons.mpr ⟨fun h => absurd h hx, ih h⟩

/-- What `rmdel` does, when it agrees. -/
theorem rmdel_spec (hf : WF f) (hr : Released f.table) (hs : IsDelta f (f.sidtoser sid))
    (h : rmdel f sid = some g) :
    g = ⟨f.table.map (mark (f.sidtoser sid)), strip (f.sidtoser sid) true f.body⟩ ∧
      ∀ n, f.sidtoser sid < n → n ≤ f.maxser → (f.idel n).i_pred ≠ f.sidtoser sid := by
  obtain ⟨_, hsid, hmax⟩ := sidtoserLoop_spec f.idel sid f.maxser
  have hsid' : (f.idel (f.sidtoser sid)).i_sid = sid := hsid (hs.pos hf).ne'
  obtain ⟨dt, hdt, hd, hser⟩ := hs
  have hdtsid : dt.d_sid = sid := by
    rw [← hser, idel_of_mem hf.serials hdt hd] at hsid'
    exact hsid'
  have hmark := markLoop_spec hr hf.serials hdt hd hdtsid fun x hx hxd hxsid => by
    rw [hser]
    refine hmax x.d_serial (hf.positive x hx) (le_maxser hf hx) ?_
    rw [idel_of_mem hf.serials hx hxd]
    exact hxsid
  unfold rmdel at h
  rw [hmark, hser] at h
  dsimp only at h
  split at h
  · cases h
  next hok =>
    rw [not_or, Bool.not_eq_true] at hok
    obtain ⟨t, ht, rfl⟩ := map_eq_some_iff.mp h
    have hout := rmLoop_spec ht (parse_of_brackets hf.brackets) rfl rfl
    exact ⟨by rw [hout]; rfl, hasSuccessor_spec hok.2⟩

theorem marked_maxser (s : ℕ) (B : List Str) : SFile.maxser ⟨f.table.map (mark s), B⟩ = f.maxser := by
  unfold SFile.maxser
  cases f.table with
  | nil => rfl
  | cons dt table => exact mark_serial s dt

theorem marked_pairwise (hf : WF f) (s : ℕ) :
    (f.table.map (mark s)).Pairwise fun a b => b.d_serial < a.d_serial := by
  rw [pairwise_map]
  exact hf.serials.imp fun hlt => by rwa [mark_serial, mark_serial]

theorem rmdel_wf (hf : WF f) (hr : Released f.table) (hs : IsDelta f (f.sidtoser sid))
    (h : rmdel f sid = some g) : WF g := by
  obtain ⟨rfl, hleaf⟩ := rmdel_spec hf hr hs h
  obtain ⟨s, hs'⟩ : ∃ s, s = f.sidtoser sid := ⟨_, rfl⟩
  rw [← hs'] at hleaf ⊢
  refine ⟨marked_pairwise hf s, fun x hx => ?_, fun x hx hd hne => ?_, ?_, fun l hl => ?_, fun l hl => ?_⟩
  · obtain ⟨dt, hdt, rfl⟩ := mem_map.mp hx
    rw [mark_serial]
    exact hf.positive dt hdt
  · obtain ⟨dt, hdt, rfl⟩ := mem_map.mp hx
    obtain ⟨heq, _⟩ := mark_delta hd
    rw [heq] at hd hne ⊢
    obtain ⟨p, hp, hpd, hser, hlt⟩ := hf.pred dt hdt hd hne
    have hps : p.d_serial ≠ s := by
      rw [hser]
      intro hps
      refine hleaf dt.d_serial (hps ▸ hlt) (le_maxser hf hdt) ?_
      rw [idel_of_mem hf.serials hdt hd]
      exact hps
    exact ⟨p, mem_map.mpr ⟨p, hp, mark_other hps⟩, hpd, hser, hlt⟩
  · have := @strip_brackets s _ _ true hf.brackets
    rwa [Finset.erase_empty] at this
  · rw [marked_maxser]
    exact hf.inRange l (mem_of_mem_strip hl)
  · exact hf.text l (mem_of_mem_strip hl)

/-- The other deltas are used as before. -/
theorem marked_idel (hf : WF f) (s : ℕ) (B : List Str) :
    SFile.idel ⟨f.table.map (mark s), B⟩ = update f.idel s Idel.zero := by
  funext n
  by_cases hn : n = s
  · rw [hn, update_self]
    refine idel_of_not_mem fun ⟨x, hx, hd, hser⟩ => ?_
    obtain ⟨dt, _, rfl⟩ := mem_map.mp hx
    exact (mark_delta hd).2 (by rw [← hser, mark_serial])
  · rw [update_of_ne hn]
    refine idel_congr (marked_pairwise hf s) hf.serials fun x hser hd => ⟨fun hx => ?_, fun hx => ?_⟩
    · obtain ⟨dt, hdt, rfl⟩ := mem_map.mp hx
      rw [(mark_delta hd).1]
      exact hdt
    · exact mem_map.mpr ⟨x, hx, mark_other (hser ▸ hn)⟩

end Cmd.Sccs
