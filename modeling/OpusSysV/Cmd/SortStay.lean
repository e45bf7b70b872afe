import OpusSysV.Cmd.SortKey

/-!
# Where `cmp` of `sort/sort.c` stops

The newline ends every scan of a line, if no table and no position of a field makes it a character
like others: an ignored one, or the tab character.

* `Stops` — a field whose scans end at the newline.
* `skip_stops`, `numCmp_stops`, `monCmp_stops`, `ascCmp_stops` — a pointer at or before the newline
  stays there.
* `cmp_stops` — `cmp` reads two lines only up to their newlines, for all lines, exactly if all
  fields stop.
-/

namespace Cmd

open Lib List Option

attribute [local instance] neZero_ends

/-- The scans of a field end at the newline: `-i` does not skip it, and it is not a tab character
that is passed on the way to the start or the end of the field. -/
def Stops (tabchar : Byte) (k : Bool) (fp : Field) : Prop :=
  (fp.fcmp = .asc → fp.ignore ≠ .nonprint) ∧
    (k = true → tabchar = NL → fp.m 0 ≤ 0 ∧ fp.m 1 ≤ 1 ∧ (fp.m 1 = 1 → fp.bflg 1 = false))

instance (tabchar : Byte) (k : Bool) (fp : Field) : Decidable (Stops tabchar k fp) := by
  unfold Stops
  infer_instance

/-- A pointer at or before the newline of its line. -/
def InLine (p : List Byte) : Prop := NL ∈ p

namespace InLine

variable {c : Byte} {p : List Byte}

theorem ne_nil (h : InLine p) : p ≠ [] := ne_nil_of_mem h

/-- Behind a character that is not the newline. -/
theorem tail (h : InLine (c :: p)) (hc : c ≠ NL) : InLine p :=
  (mem_cons.1 h).resolve_left (Ne.symm hc)

end InLine

section scans

variable {env : Env} {p : List Byte} {tbc : Byte} {j : Fin 2}

theorem eol_stops (h : InLine p) : ∃ q, eol p = some q ∧ InLine q := by
  induction p with
  | nil => exact absurd h not_mem_nil
  | cons c p ih =>
    unfold eol
    split_ifs with hc
    · exact ih (h.tail hc)
    · exact ⟨_, rfl, h⟩

/-- A scan to a tab character ends there, or at the newline. -/
theorem toTab_stops (tbc : Byte) (h : InLine p) :
    ∃ ret q, toTab tbc p = some (ret, q) ∧ InLine q ∧ (ret = false → ∃ q', q = tbc :: q') := by
  induction p with
  | nil => exact absurd h not_mem_nil
  | cons c p ih =>
    unfold toTab
    split_ifs with ht hc
    · exact ih (h.tail hc)
    · exact ⟨_, _, rfl, h, nofun⟩
    · exact ⟨_, _, rfl, h, fun _ => ⟨p, by rw [not_not.1 ht]⟩⟩

/-- The fields before, if the tab character is not the newline. -/
theorem skipTab_stops (ht : tbc ≠ NL) (i : ℕ) (h : InLine p) :
    ∃ ret q, skipTab tbc j i p = some (ret, q) ∧ InLine q ∧
      (ret = false → j = 1 → 0 < i → InLine q.tail) := by
  induction i generalizing p with
  | zero => exact ⟨_, _, rfl, h, fun _ _ hi => absurd hi (lt_irrefl 0)⟩
  | succ i ih =>
    obtain ⟨ret, q, hq, hin, htab⟩ := toTab_stops tbc h
    unfold skipTab
    rw [hq, bind_some]
    dsimp only
    cases ret with
    | true => exact ⟨_, _, rfl, hin, nofun⟩
    | false =>
      obtain ⟨q', rfl⟩ := htab rfl
      have hq' : InLine q' := hin.tail ht
      rw [if_neg Bool.false_ne_true]
      by_cases hnext : i > 0 ∨ j = 0
      · rw [if_pos hnext]
        obtain ⟨ret, r, hr, hrin, hrtail⟩ := ih hq'
        refine ⟨ret, r, hr, hrin, fun h1 h2 _ => hrtail h1 h2 ?_⟩
        rcases hnext with hpos | h0
        · exact hpos
        · rw [h2] at h0
          exact absurd h0 (by decide)
      · rw [if_neg hnext]
        obtain rfl : i = 0 := by omega
        exact ⟨_, _, rfl, hin, fun _ _ _ => hq'⟩

theorem blank_ne_NL {c : Byte} (h : blank c = true) : c ≠ NL := by
  rintro rfl
  exact absurd h (by decide)

theorem skipBlanks_stops (h : InLine p) : ∃ q, skipBlanks p = some q ∧ InLine q := by
  induction p with
  | nil => exact absurd h not_mem_nil
  | cons c p ih =>
    unfold skipBlanks
    split_ifs with hc
    · exact ih (h.tail (blank_ne_NL hc))
    · exact ⟨_, rfl, h⟩

/-- A scan to a blank ends there, or at the newline. -/
theorem toBlank_stops (h : InLine p) :
    ∃ ret q, toBlank p = some (ret, q) ∧ InLine q ∧ (ret = false → InLine q.tail) := by
  induction p with
  | nil => exact absurd h not_mem_nil
  | cons c p ih =>
    unfold toBlank
    split_ifs with hb hc
    · exact ih (h.tail hc)
    · exact ⟨_, _, rfl, h, nofun⟩
    · refine ⟨_, _, rfl, h, fun _ => h.tail (blank_ne_NL ?_)⟩
      simpa using hb

theorem skipBlank_stops (i : ℕ) (h : InLine p) :
    ∃ ret q, skipBlank i p = some (ret, q) ∧ InLine q ∧ (ret = false → 0 < i → InLine q.tail) := by
  induction i generalizing p with
  | zero => exact ⟨_, _, rfl, h, fun _ hi => absurd hi (lt_irrefl 0)⟩
  | succ i ih =>
    obtain ⟨q, hq, hin⟩ := skipBlanks_stops h
    obtain ⟨ret, r, hr, hrin, hrtail⟩ := toBlank_stops hin
    unfold skipBlank
    rw [hq, bind_some, hr, bind_some]
    dsimp only
    cases ret with
    | true => exact ⟨_, _, rfl, hrin, nofun⟩
    | false =>
      rw [if_neg Bool.false_ne_true]
      obtain ⟨ret, t, ht, htin, httail⟩ := ih hrin
      refine ⟨ret, t, ht, htin, fun h1 _ => ?_⟩
      rcases Nat.eq_zero_or_pos i with rfl | hpos
      · cases ht
        exact hrtail rfl
      · exact httail h1 hpos

theorem skipChars_stops (i : ℕ) (h : InLine p) : ∃ q, skipChars i p = some q ∧ InLine q := by
  induction i generalizing p with
  | zero => exact ⟨_, rfl, h⟩
  | succ i ih =>
    cases p with
    | nil => exact absurd h not_mem_nil
    | cons c p =>
      unfold skipChars
      split_ifs with hc
      · exact ih (h.tail hc)
      · exact ⟨_, rfl, h⟩

theorem skipInto_stops {fp : Field} {ret : Bool} (h : InLine p)
    (htail : ret = false → fp.bflg j = true → j = 1 ∧ fp.m j > 0 → InLine p.tail) :
    ∃ q, skipInto fp j (ret, p) = some q ∧ InLine q := by
  cases ret with
  | true => exact ⟨p, rfl, h⟩
  | false =>
    rw [skipInto]
    by_cases hb : fp.bflg j = true
    · rw [if_pos hb]
      have hp : InLine (if j = 1 ∧ fp.m j > 0 then p.tail else p) := by
        split_ifs with hj
        · exact htail rfl hb hj
        · exact h
      obtain ⟨r, hr, hrin⟩ := skipBlanks_stops hp
      rw [hr, bind_some]
      exact skipChars_stops _ hrin
    · rw [if_neg hb, bind_some]
      exact skipChars_stops _ h

/-- The fields before, where the newline is the tab character: none are passed. -/
theorem skipTab_newline {fp : Field} (hs : Stops NL true fp) (h : InLine p) (j : Fin 2) :
    ∃ ret q, skipTab NL j (fp.m j).toNat p = some (ret, q) ∧ InLine q ∧
      (fp.bflg j = true → ¬ (j = 1 ∧ fp.m j > 0)) := by
  obtain ⟨h0, h1, hb⟩ := hs.2 rfl rfl
  match j with
  | 0 =>
    rw [Int.toNat_of_nonpos h0]
    exact ⟨_, _, rfl, h, fun _ hj => absurd hj.1 (by decide)⟩
  | 1 =>
    rcases lt_or_eq_of_le h1 with hlt | heq
    · rw [Int.toNat_of_nonpos (Int.lt_add_one_iff.1 hlt)]
      exact ⟨_, _, rfl, h, fun _ hj => absurd hj.2 (by omega)⟩
    · obtain ⟨ret, q, hq, hin, -⟩ := toTab_stops NL h
      rw [heq, Int.toNat_one, skipTab, hq, bind_some]
      refine ⟨ret, q, ?_, hin, fun hbf => ?_⟩
      · cases ret <;> rfl
      · rw [hb heq] at hbf
        exact absurd hbf (by decide)

/-- **The start or the end of a field** is at or before the newline. -/
theorem skip_stops {fp : Field} (hs : Stops env.tabchar true fp) (h : InLine p) (j : Fin 2) :
    ∃ q, skip env p fp j = some q ∧ InLine q := by
  unfold skip
  split_ifs with hneg htab
  · exact eol_stops h
  · by_cases hnl : env.tabchar = NL
    · rw [hnl] at hs ⊢
      obtain ⟨ret, q, hq, hin, hb⟩ := skipTab_newline hs h j
      rw [hq, bind_some]
      exact skipInto_stops hin fun _ hbf hj => absurd hj (hb hbf)
    · obtain ⟨ret, q, hq, hin, htail⟩ := skipTab_stops (j := j) hnl (fp.m j).toNat h
      rw [hq, bind_some]
      exact skipInto_stops hin fun hret _ hj => htail hret hj.1 (by omega)
  · obtain ⟨ret, q, hq, hin, htail⟩ := skipBlank_stops (fp.m j).toNat h
    rw [hq, bind_some]
    exact skipInto_stops hin fun hret _ hj => htail hret (by omega)

end scans

/-! ## The comparisons of a field -/

section compare

variable {env : Env} {p pa pb la lb : List Byte} {rflg : ℤ}

theorem sign_stops (h : InLine p) (rflg : ℤ) :
    ∃ s q, sign rflg p = some (s, q) ∧ InLine q ∧ (s = rflg ∨ s = -rflg) := by
  cases p with
  | nil => exact absurd h not_mem_nil
  | cons c p =>
    rw [sign]
    split_ifs with hc
    · refine ⟨_, _, rfl, h.tail ?_, .inr rfl⟩
      rintro rfl
      exact absurd hc (by decide)
    · exact ⟨_, _, rfl, h, .inl rfl⟩

theorem isdigit_ne_NL {c : Byte} (h : isdigit c = true) : c ≠ NL := by
  rintro rfl
  exact absurd h (by decide)

theorem digits_stops (la : List Byte) (h : InLine p) : InLine (digits la p).2 := by
  induction p with
  | nil => exact absurd h not_mem_nil
  | cons c p ih =>
    unfold digits
    split_ifs with hc
    · exact ih (h.tail (isdigit_ne_NL hc.2))
    · exact h

theorem point_stops (h : InLine p) : ∃ q, point p = some q ∧ InLine q := by
  cases p with
  | nil => exact absurd h not_mem_nil
  | cons c p =>
    refine ⟨_, rfl, ?_⟩
    split_ifs with hc
    · refine h.tail ?_
      rintro rfl
      exact absurd hc (by decide)
    · exact h

theorem numCmp_stops (hpa : InLine pa) (hpb : InLine pb) (rflg : ℤ) (la lb : List Byte) :
    ∃ c, numCmp rflg la pa lb pb = some c := by
  obtain ⟨sa, qa, ha, hqa, -⟩ := sign_stops hpa rflg
  obtain ⟨sb, qb, hb, hqb, -⟩ := sign_stops hpb rflg
  obtain ⟨ra, hra, -⟩ := point_stops (digits_stops la hqa)
  obtain ⟨rb, hrb, -⟩ := point_stops (digits_stops lb hqb)
  unfold numCmp
  rw [ha, bind_some]
  dsimp only
  rw [hb, bind_some]
  dsimp only
  rw [hra, bind_some, hrb, bind_some]
  split_ifs <;> exact ⟨_, rfl⟩

/-- No letter of a month looks like the newline. -/
theorem fold_ne_NL (env : Env) {c : Byte} (hc : c < 128 ∧ c ≠ NL) :
    Code.fold.at env NL ≠ Code.fold.at env c := by
  have hnl : Code.fold.at env NL = 10 := rfl
  rw [hnl]
  unfold Code.at
  rw [if_pos hc.1]
  intro h
  refine hc.2 (UInt8.toNat_inj.1 ?_)
  rw [Code.entry] at h
  split_ifs at h with hlow
  · unfold islower at hlow
    rw [Bool.and_eq_true, decide_eq_true_eq, decide_eq_true_eq, UInt8.le_iff_toNat_le] at hlow
    have hsub : (c - 32).toNat = c.toNat - 32 := UInt8.toNat_sub_of_le _ _ (by
      rw [UInt8.le_iff_toNat_le]
      exact (by decide : (32 : UInt8).toNat ≤ (97 : UInt8).toNat).trans hlow.1)
    have hbig : (97 : UInt8).toNat ≤ c.toNat := hlow.1
    rw [hsub] at h
    simp only [UInt8.reduceToNat] at hbig
    omega
  · have hten : NL.toNat = 10 := rfl
    omega

theorem monthMatch_stops (env : Env) (u : List Byte) (hu : ∀ c ∈ u, c < 128 ∧ c ≠ NL) (h : InLine p) :
    ∃ b, monthMatch env u p = some b := by
  induction u generalizing p with
  | nil => exact ⟨true, by cases p <;> rfl⟩
  | cons c u ih =>
    cases p with
    | nil => exact absurd h not_mem_nil
    | cons t p =>
      unfold monthMatch
      split_ifs with heq
      · refine ih (fun c hc => hu c (mem_cons_of_mem _ hc)) (h.tail ?_)
        rintro rfl
        exact fold_ne_NL env (hu c mem_cons_self) heq
      · exact ⟨_, rfl⟩

theorem month_stops (env : Env) (h : InLine p) : ∃ i, month env p = some i := by
  have hall : ∀ (us : List (List Byte)) (i : ℤ), (∀ u ∈ us, ∀ c ∈ u, c < 128 ∧ c ≠ NL) →
      ∃ r, monthFrom env p i us = some r := by
    intro us
    induction us with
    | nil => exact fun _ _ => ⟨_, rfl⟩
    | cons u us ih =>
      intro i hus
      obtain ⟨b, hb⟩ := monthMatch_stops env u (hus u mem_cons_self) h
      unfold monthFrom
      rw [hb, bind_some]
      split_ifs
      · exact ⟨_, rfl⟩
      · exact ih _ fun u hu => hus u (mem_cons_of_mem _ hu)
  exact hall _ _ fun u hu => (env.months_name u hu).2

theorem monCmp_stops (env : Env) (hpa : InLine pa) (hpb : InLine pb) (rflg : ℤ) :
    ∃ c, monCmp env rflg pa pb = some c := by
  obtain ⟨ma, ha⟩ := month_stops env hpa
  obtain ⟨mb, hb⟩ := month_stops env hpb
  unfold monCmp
  rw [ha, hb]
  exact ⟨_, rfl⟩

variable {ign : Byte → Bool} {code : Byte → ℤ}

theorem skipIgnored_stops (hign : ign NL = false) (h : InLine p) :
    ∃ b q, skipIgnored ign p = some (b, q) ∧ InLine (b :: q) := by
  induction p with
  | nil => exact absurd h not_mem_nil
  | cons c p ih =>
    unfold skipIgnored
    split_ifs with hc
    · refine ih (h.tail ?_)
      rintro rfl
      rw [hign] at hc
      exact absurd hc (by decide)
    · exact ⟨_, _, rfl, h⟩

theorem ne_NL_of_not_ended {c : Byte} (h : ¬ ended la c p = true) : c ≠ NL := by
  rintro rfl
  exact h (by unfold ended; rw [decide_eq_true rfl, Bool.or_true])

/-- **The characters**, if the newline is not ignored. -/
theorem ascCmp_stops (hign : ign NL = false) (hpa : InLine pa) (hpb : InLine pb) :
    ∃ c, ascCmp code ign rflg la lb pa pb = some c := by
  induction pa generalizing pb with
  | nil => exact absurd hpa not_mem_nil
  | cons a pa ih =>
    unfold ascCmp
    by_cases hskip : ign a = true
    · rw [if_pos hskip]
      refine ih (hpa.tail ?_) hpb
      rintro rfl
      rw [hign] at hskip
      exact absurd hskip (by decide)
    · rw [if_neg hskip]
      obtain ⟨b, q, hq, hin⟩ := skipIgnored_stops hign hpb
      rw [hq, bind_some]
      dsimp only
      by_cases ha : ended la a pa = true
      · rw [if_pos ha]
        exact ⟨_, rfl⟩
      rw [if_neg ha]
      split_ifs with hb hz
      · exact ⟨_, rfl⟩
      · exact ih (hpa.tail (ne_NL_of_not_ended ha)) (hin.tail (ne_NL_of_not_ended hb))
      · exact ⟨_, rfl⟩

theorem ignore_NL {fp : Field} (h : fp.ignore ≠ .nonprint) : fp.ignore.at env NL = false := by
  cases hi : fp.ignore with
  | zero => rfl
  | dict => rfl
  | nonprint => exact absurd hi h

theorem place_stops {k : Bool} {fp : Field} (hs : Stops env.tabchar k fp) (h : InLine p) :
    ∃ l q, place env k fp p = some (l, q) ∧ InLine q := by
  unfold place
  cases k with
  | false =>
    obtain ⟨l, hl, -⟩ := eol_stops h
    rw [if_neg Bool.false_ne_true, hl, bind_some]
    exact ⟨l, p, rfl, h⟩
  | true =>
    obtain ⟨l, hl, -⟩ := skip_stops hs h 1
    obtain ⟨q, hq, hin⟩ := skip_stops hs h 0
    rw [if_pos rfl, hl, bind_some, hq, bind_some]
    exact ⟨l, q, rfl, hin⟩

theorem keyCmp_stops {k : Bool} {fp : Field} (hs : Stops env.tabchar k fp) (hpa : InLine pa)
    (hpb : InLine pb) (la lb : List Byte) : ∃ c, keyCmp env fp la pa lb pb = some c := by
  unfold keyCmp
  cases hf : fp.fcmp with
  | num => exact numCmp_stops hpa hpb _ _ _
  | mon => exact monCmp_stops env hpa hpb _
  | asc => exact ascCmp_stops (ignore_NL (hs.1 hf)) hpa hpb

theorem cmpField_stops {k : Bool} {fp : Field} (hs : Stops env.tabchar k fp) {i j : List Byte}
    (hi : InLine i) (hj : InLine j) : ∃ c, cmpField env k fp i j = some c := by
  obtain ⟨la, pa, hpa, hina⟩ := place_stops hs hi
  obtain ⟨lb, pb, hpb, hinb⟩ := place_stops hs hj
  unfold cmpField
  rw [hpa, bind_some]
  dsimp only
  rw [hpb, bind_some]
  exact keyCmp_stops hs hina hinb la lb

theorem cmpFields_stops {k : Bool} {fs : List Field} (hs : ∀ fp ∈ fs, Stops env.tabchar k fp)
    {i j : List Byte} (hi : InLine i) (hj : InLine j) :
    ∃ c, cmpFields env k fs i j = some c := by
  induction fs with
  | nil => exact ⟨0, rfl⟩
  | cons fp fs ih =>
    obtain ⟨c, hc⟩ := cmpField_stops (hs fp mem_cons_self) hi hj
    unfold cmpFields
    rw [hc, bind_some]
    split_ifs
    · exact ih fun fp hfp => hs fp (mem_cons_of_mem _ hfp)
    · exact ⟨c, rfl⟩

theorem cmpaAt_stops (hpa : InLine pa) (hpb : InLine pb) (rflg : ℤ) :
    ∃ c, cmpaAt rflg pa pb = some c := by
  induction pa generalizing pb with
  | nil => exact absurd hpa not_mem_nil
  | cons a pa ih =>
    cases pb with
    | nil => exact absurd hpb not_mem_nil
    | cons b pb =>
      unfold cmpaAt
      split_ifs with hab hnl
      · exact ⟨_, rfl⟩
      · exact ih (hpa.tail hnl) (hpb.tail (hab ▸ hnl))
      all_goals exact ⟨_, rfl⟩

end compare

/-! ## Pointers only move forward -/

section suffix

variable {env : Env} {p q : List Byte} {tbc : Byte} {j : Fin 2} {ret : Bool}

theorem eol_suffix (h : eol p = some q) : q <:+ p := by
  induction p with
  | nil => cases h
  | cons c p ih =>
    unfold eol at h
    split_ifs at h
    · exact (ih h).trans (suffix_cons c p)
    · cases h
      exact suffix_rfl

theorem toTab_suffix (h : toTab tbc p = some (ret, q)) : q <:+ p := by
  induction p with
  | nil => cases h
  | cons c p ih =>
    unfold toTab at h
    split_ifs at h
    · exact (ih h).trans (suffix_cons c p)
    all_goals
      cases h
      exact suffix_rfl

theorem skipTab_suffix (i : ℕ) (h : skipTab tbc j i p = some (ret, q)) : q <:+ p := by
  induction i generalizing p with
  | zero =>
    cases h
    exact suffix_rfl
  | succ i ih =>
    unfold skipTab at h
    cases ht : toTab tbc p with
    | none =>
      rw [ht] at h
      cases h
    | some r =>
      obtain ⟨ret', r⟩ := r
      rw [ht, bind_some] at h
      dsimp only at h
      have hr := toTab_suffix ht
      split_ifs at h with hret hnext
      · cases h
        exact hr
      · exact ((ih h).trans (tail_suffix r)).trans hr
      · exact (ih h).trans hr

theorem skipBlanks_suffix (h : skipBlanks p = some q) : q <:+ p := by
  induction p with
  | nil => cases h
  | cons c p ih =>
    unfold skipBlanks at h
    split_ifs at h
    · exact (ih h).trans (suffix_cons c p)
    · cases h
      exact suffix_rfl

theorem toBlank_suffix (h : toBlank p = some (ret, q)) : q <:+ p := by
  induction p with
  | nil => cases h
  | cons c p ih =>
    unfold toBlank at h
    split_ifs at h
    · exact (ih h).trans (suffix_cons c p)
    all_goals
      cases h
      exact suffix_rfl

theorem skipBlank_suffix (i : ℕ) (h : skipBlank i p = some (ret, q)) : q <:+ p := by
  induction i generalizing p with
  | zero =>
    cases h
    exact suffix_rfl
  | succ i ih =>
    unfold skipBlank at h
    obtain ⟨r, hr, h⟩ := bind_eq_some_iff.1 h
    obtain ⟨⟨ret', t⟩, ht, h⟩ := bind_eq_some_iff.1 h
    have hsuf := (toBlank_suffix ht).trans (skipBlanks_suffix hr)
    dsimp only at h
    split_ifs at h
    · cases h
      exact hsuf
    · exact (ih h).trans hsuf

theorem skipChars_suffix (i : ℕ) (h : skipChars i p = some q) : q <:+ p := by
  induction i generalizing p with
  | zero =>
    cases h
    exact suffix_rfl
  | succ i ih =>
    cases p with
    | nil => cases h
    | cons c p =>
      unfold skipChars at h
      split_ifs at h
      · exact (ih h).trans (suffix_cons c p)
      · cases h
        exact suffix_rfl

theorem skipInto_suffix {fp : Field} (h : skipInto fp j (ret, p) = some q) : q <:+ p := by
  cases ret with
  | true =>
    cases h
    exact suffix_rfl
  | false =>
    rw [skipInto] at h
    obtain ⟨r, hr, h⟩ := bind_eq_some_iff.1 h
    refine (skipChars_suffix _ h).trans ?_
    split_ifs at hr
    · exact (skipBlanks_suffix hr).trans (tail_suffix p)
    · exact skipBlanks_suffix hr
    · cases hr
      exact suffix_rfl

/-- The start and the end of a field are not before the line. -/
theorem skip_suffix {fp : Field} (h : skip env p fp j = some q) : q <:+ p := by
  unfold skip at h
  split_ifs at h
  · exact eol_suffix h
  · obtain ⟨⟨ret, r⟩, hr, h⟩ := bind_eq_some_iff.1 h
    exact (skipInto_suffix h).trans (skipTab_suffix _ hr)
  · obtain ⟨⟨ret, r⟩, hr, h⟩ := bind_eq_some_iff.1 h
    exact (skipInto_suffix h).trans (skipBlank_suffix _ hr)

end suffix

/-! ## The empty line -/

section empty

variable {env : Env} {fp : Field} {k : Bool} {q la lb pa pb : List Byte}

/-- If the newline is passed, the start of a field is behind it. -/
theorem skip_start_empty (ht : env.tabchar = NL) (hm : 0 < fp.m 0)
    (h : skip env [NL] fp 0 = some q) : q = [] := by
  unfold skip at h
  rw [if_neg (by omega), ht, if_pos (by decide)] at h
  obtain ⟨⟨ret, r⟩, hr, h⟩ := bind_eq_some_iff.1 h
  obtain ⟨n, hn⟩ : ∃ n, (fp.m 0).toNat = n + 1 := ⟨(fp.m 0).toNat - 1, by omega⟩
  rw [hn] at hr
  have hpass : skipTab NL 0 (n + 1) [NL] = skipTab NL 0 n [] := by
    rw [skipTab, toTab, if_neg (not_not.2 rfl), bind_some]
    exact congrArg _ (if_pos (.inr rfl))
  rw [hpass] at hr
  have hr' := suffix_nil.1 (skipTab_suffix n hr)
  rw [hr'] at h
  exact suffix_nil.1 (skipInto_suffix h)

/-- If the newline is passed, the end of a field is looked for behind it. -/
theorem skip_end_empty (ht : env.tabchar = NL) (hm : 0 < fp.m 1)
    (hpass : fp.m 1 = 1 → fp.bflg 1 = true) : skip env [NL] fp 1 = none := by
  unfold skip
  rw [if_neg (by omega), ht, if_pos (by decide)]
  by_cases h1 : fp.m 1 = 1
  · have hstop : skipTab NL 1 1 [NL] = some (false, [NL]) := by decide
    rw [h1, Int.toNat_one, hstop, bind_some, skipInto, if_pos (hpass h1),
      if_pos ⟨rfl, by omega⟩]
    rfl
  · obtain ⟨n, hn⟩ : ∃ n, (fp.m 1).toNat = n + 2 := ⟨(fp.m 1).toNat - 2, by omega⟩
    have hnext : skipTab NL 1 (n + 2) [NL] = none := by
      rw [skipTab, toTab, if_neg (not_not.2 rfl), bind_some]
      rfl
    rw [hn, hnext, bind_none]

theorem month_nil (env : Env) : month env [] = none := by
  unfold month
  cases hm : env.months with
  | nil =>
    have := env.months_length
    rw [hm] at this
    exact absurd this (by decide)
  | cons u us =>
    have hu := (env.months_name u (by rw [hm]; exact mem_cons_self)).1
    cases u with
    | nil => exact absurd rfl hu
    | cons c u => rfl

/-- A field that starts behind the memory reads there. -/
theorem keyCmp_nil (env : Env) (fp : Field) (la lb : List Byte) :
    keyCmp env fp la [] lb [] = none := by
  unfold keyCmp
  cases fp.fcmp with
  | num => rfl
  | mon =>
    unfold monCmp
    rw [month_nil]
    rfl
  | asc => rfl

/-- So does a field that ignores the newline. -/
theorem keyCmp_nonprint (hf : fp.fcmp = .asc) (hi : fp.ignore = .nonprint) (hpa : pa <:+ [NL])
    (la lb : List Byte) : keyCmp env fp la pa lb pb = none := by
  unfold keyCmp
  rw [hf, hi]
  rcases suffix_cons_iff.1 hpa with rfl | hpa
  · dsimp only
    rw [ascCmp, if_pos (by rfl)]
    rfl
  · rw [suffix_nil.1 hpa]
    rfl

theorem place_suffix (h : place env k fp [NL] = some (la, pa)) : pa <:+ [NL] := by
  unfold place at h
  split_ifs at h
  · obtain ⟨l, -, h⟩ := bind_eq_some_iff.1 h
    obtain ⟨q, hq, h⟩ := bind_eq_some_iff.1 h
    cases h
    exact skip_suffix hq
  · obtain ⟨l, -, h⟩ := bind_eq_some_iff.1 h
    cases h
    exact suffix_rfl

/-- If the newline is passed, the field is not found in an empty line. -/
theorem place_passes (ht : env.tabchar = NL)
    (hm : ¬ (fp.m 0 ≤ 0 ∧ fp.m 1 ≤ 1 ∧ (fp.m 1 = 1 → fp.bflg 1 = false)))
    (h : place env true fp [NL] = some (la, pa)) : pa = [] := by
  unfold place at h
  rw [if_pos rfl] at h
  obtain ⟨l, hl, h⟩ := bind_eq_some_iff.1 h
  obtain ⟨q, hq, h⟩ := bind_eq_some_iff.1 h
  cases h
  by_cases h0 : 0 < fp.m 0
  · exact skip_start_empty ht h0 hq
  · have hend : skip env [NL] fp 1 = none := by
      refine skip_end_empty ht (Int.lt_iff_add_one_le.2 ?_) fun h1 => ?_
      · by_contra hlt
        exact hm ⟨by omega, by omega, fun h1 => by omega⟩
      · by_contra hb
        exact hm ⟨by omega, by omega, fun _ => Bool.not_eq_true _ ▸ hb⟩
    rw [hend] at hl
    cases hl

/-- **A field that does not stop** reads behind the newline of an empty line. -/
theorem cmpField_passes (hs : ¬ Stops env.tabchar k fp) : cmpField env k fp [NL] [NL] = none := by
  unfold cmpField
  cases hp : place env k fp [NL] with
  | none => rfl
  | some r =>
    obtain ⟨la, pa⟩ := r
    simp only [bind_some]
    by_cases hign : fp.fcmp = .asc ∧ fp.ignore = .nonprint
    · exact keyCmp_nonprint hign.1 hign.2 (place_suffix hp) la la
    · have hpass : k = true ∧ env.tabchar = NL ∧
          ¬ (fp.m 0 ≤ 0 ∧ fp.m 1 ≤ 1 ∧ (fp.m 1 = 1 → fp.bflg 1 = false)) := by
        by_contra hno
        refine hs ⟨fun h1 h2 => hign ⟨h1, h2⟩, fun hk ht => ?_⟩
        by_contra hm
        exact hno ⟨hk, ht, hm⟩
      obtain ⟨rfl, ht, hm⟩ := hpass
      rw [place_passes ht hm hp]
      exact keyCmp_nil env fp la la

theorem numCmp_empty (rflg : ℤ) (la lb : List Byte) :
    numCmp rflg la [NL] lb [NL] = some 0 := by
  have hsign : sign rflg [NL] = some (rflg, [NL]) := rfl
  have hdigits : ∀ l, digits l [NL] = ([], [NL]) := fun l => by
    unfold digits
    exact if_neg fun h => absurd h.2 (by decide)
  have hint : intCmp rflg rflg [] [] = 0 := by
    unfold intCmp
    rw [if_pos rfl]
    exact zero_mul rflg
  have hfrac : fracCmp rflg rflg [] [] = 0 := by
    unfold fracCmp
    rw [if_pos rfl]
    rfl
  unfold numCmp
  rw [hsign, bind_some]
  dsimp only
  rw [hdigits, bind_some]
  dsimp only
  rw [hdigits, hint, if_neg (not_not.2 rfl), point, bind_some, if_neg (by decide),
    bind_some, hdigits, hdigits, hfrac]

/-- A field that stops finds two empty lines equal. -/
theorem cmpField_empty (hs : Stops env.tabchar k fp) : cmpField env k fp [NL] [NL] = some 0 := by
  obtain ⟨la, pa, hp, hin⟩ := place_stops hs (mem_singleton.2 rfl : InLine [NL])
  have hpa : pa = [NL] := by
    rcases suffix_cons_iff.1 (place_suffix hp) with h | h
    · exact h
    · exact absurd (suffix_nil.1 h) hin.ne_nil
  unfold cmpField keyCmp
  rw [hp, hpa]
  simp only [bind_some]
  cases hf : fp.fcmp with
  | num => exact numCmp_empty fp.rflg la la
  | mon =>
    obtain ⟨i, hi⟩ := month_stops env (hpa ▸ hin)
    dsimp only
    rw [monCmp, hi, bind_some, bind_some, sub_self, mul_zero]
  | asc =>
    dsimp only
    rw [ascCmp, ignore_NL (hs.1 hf), if_neg Bool.false_ne_true, skipIgnored,
      ignore_NL (hs.1 hf), if_neg Bool.false_ne_true, bind_some]
    have hend : ended la NL [] = true := by
      unfold ended
      rw [decide_eq_true rfl, Bool.or_true]
    dsimp only
    rw [if_pos hend, if_pos hend]

end empty

/-! ## Lines -/

/-- The fields that `cmp` looks at. -/
def AllStop (env : Env) (field0 : Field) (fields : List Field) : Prop :=
  if fields = [] then Stops env.tabchar false field0
  else ∀ fp ∈ fields, Stops env.tabchar true fp

section lines

variable {env : Env} {k : Bool} {fs : List Field}

/-- If a field does not stop, the empty line is left, or a field before did it. -/
theorem cmpFields_passes (hs : ¬ ∀ fp ∈ fs, Stops env.tabchar k fp) :
    cmpFields env k fs [NL] [NL] = none := by
  induction fs with
  | nil => exact absurd (forall_mem_nil _) hs
  | cons fp fs ih =>
    unfold cmpFields
    by_cases hfp : Stops env.tabchar k fp
    · rw [cmpField_empty hfp, bind_some, if_pos rfl]
      exact ih fun hfs => hs (forall_mem_cons.2 ⟨hfp, hfs⟩)
    · rw [cmpField_passes hfp, bind_none]

theorem keys_stops {field0 : Field} {fields : List Field} (hs : AllStop env field0 fields)
    {i j : List Byte} (hi : InLine i) (hj : InLine j) :
    ∃ c, (if fields = [] then cmpFields env false [field0] i j
      else cmpFields env true fields i j) = some c := by
  unfold AllStop at hs
  split_ifs at hs ⊢
  · exact cmpFields_stops (forall_mem_singleton.2 hs) hi hj
  · exact cmpFields_stops hs hi hj

theorem cmp_some {field0 : Field} {fields : List Field} (hs : AllStop env field0 fields)
    {i j : List Byte} (hi : InLine i) (hj : InLine j) : ∃ c, cmp env field0 fields i j = some c := by
  obtain ⟨c, hc⟩ := keys_stops hs hi hj
  obtain ⟨c', hc'⟩ := cmpaAt_stops hi hj field0.rflg
  unfold cmp
  rw [hc, bind_some, hc']
  split_ifs <;> exact ⟨_, rfl⟩

theorem cmp_none {field0 : Field} {fields : List Field} (hs : ¬ AllStop env field0 fields) :
    cmp env field0 fields [NL] [NL] = none := by
  have hnone : (if fields = [] then cmpFields env false [field0] [NL] [NL]
      else cmpFields env true fields [NL] [NL]) = none := by
    unfold AllStop at hs
    split_ifs at hs ⊢
    · exact cmpFields_passes fun hall => hs (hall field0 mem_cons_self)
    · exact cmpFields_passes hs
  unfold cmp
  rw [hnone, bind_none]

/-- **`cmp` stays inside two lines**, whatever they are, exactly if all fields that it looks at
stop at the newline. -/
theorem cmp_stops (env : Env) (field0 : Field) (fields : List Field) :
    (∀ x y : List Byte, NL ∉ x → NL ∉ y →
      (cmp env field0 fields (x ++ [NL]) (y ++ [NL])).isSome) ↔ AllStop env field0 fields := by
  constructor
  · intro h
    by_contra hs
    have hempty := h [] [] not_mem_nil not_mem_nil
    rw [nil_append, cmp_none hs] at hempty
    exact absurd hempty Bool.false_ne_true
  · intro hs x y _ _
    have hx : InLine (x ++ [NL]) := mem_append_right x mem_cons_self
    have hy : InLine (y ++ [NL]) := mem_append_right y mem_cons_self
    obtain ⟨c, hc⟩ := cmp_some hs hx hy
    rw [hc]
    rfl

end lines

/-! ## `-i` -/

/-- The environment of `sort` in the C locale, without `-t` and `-u`. -/
def Env.c : Env where
  tabchar := 0
  uflg := false
  codeBefore := fun _ _ => 0
  ignoreBefore := fun _ _ => false
  months := [[74, 97, 110], [70, 101, 98], [77, 97, 114], [65, 112, 114], [77, 97, 121],
    [74, 117, 110], [74, 117, 108], [65, 117, 103], [83, 101, 112], [79, 99, 116],
    [78, 111, 118], [68, 101, 99]]
  months_length := rfl
  months_name := by decide +kernel

/-- `sort -i`: the scan over the characters that are not printed passes the newline. -/
theorem cmp_ignores_newline :
    ¬ ∀ x y : List Byte, NL ∉ x → NL ∉ y →
      (cmp .c (proto.option 0 'i') [] (x ++ [NL]) (y ++ [NL])).isSome := by
  intro h
  exact absurd (h [97] [97] (by decide) (by decide)) (by decide)

end Cmd
