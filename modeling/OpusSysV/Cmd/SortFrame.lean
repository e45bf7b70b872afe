import OpusSysV.Cmd.SortStay

/-!
# What follows a line

A scan of `cmp` that ends in a piece of memory is not changed by what follows this piece: pointers
into a line are compared only with each other, and nothing behind is read.

* `skip_append`, `digits_append`, `ascCmp_append` — the scans.
* `cmp_append` — the comparison of two lines does not depend on what follows them.
-/

namespace Cmd

open Lib List Option

section frame

variable {env : Env} {p q : List Byte} {tbc : Byte} {j : Fin 2} {ret : Bool}

theorem eol_append (h : eol p = some q) (s : List Byte) : eol (p ++ s) = some (q ++ s) := by
  induction p with
  | nil => cases h
  | cons c p ih =>
    unfold eol at h
    rw [cons_append, eol]
    split_ifs at h ⊢
    · exact ih h
    · cases h
      rfl

theorem toTab_append (h : toTab tbc p = some (ret, q)) (s : List Byte) :
    toTab tbc (p ++ s) = some (ret, q ++ s) ∧ q ≠ [] := by
  induction p with
  | nil => cases h
  | cons c p ih =>
    unfold toTab at h
    rw [cons_append, toTab]
    split_ifs at h ⊢
    · exact ih h
    all_goals
      cases h
      exact ⟨rfl, cons_ne_nil _ _⟩

theorem skipTab_append (i : ℕ) (h : skipTab tbc j i p = some (ret, q)) (s : List Byte) :
    skipTab tbc j i (p ++ s) = some (ret, q ++ s) := by
  induction i generalizing p with
  | zero =>
    cases h
    rfl
  | succ i ih =>
    unfold skipTab at h ⊢
    obtain ⟨⟨ret', r⟩, hr, h⟩ := bind_eq_some_iff.1 h
    obtain ⟨hr', hne⟩ := toTab_append hr s
    rw [hr', bind_some]
    dsimp only at h ⊢
    split_ifs at h ⊢
    · cases h
      rfl
    · rw [tail_append_of_ne_nil hne]
      exact ih h
    · exact ih h

theorem skipBlanks_append (h : skipBlanks p = some q) (s : List Byte) :
    skipBlanks (p ++ s) = some (q ++ s) := by
  induction p with
  | nil => cases h
  | cons c p ih =>
    unfold skipBlanks at h
    rw [cons_append, skipBlanks]
    split_ifs at h ⊢
    · exact ih h
    · cases h
      rfl

theorem toBlank_append (h : toBlank p = some (ret, q)) (s : List Byte) :
    toBlank (p ++ s) = some (ret, q ++ s) := by
  induction p with
  | nil => cases h
  | cons c p ih =>
    unfold toBlank at h
    rw [cons_append, toBlank]
    split_ifs at h ⊢
    · exact ih h
    all_goals
      cases h
      rfl

theorem skipBlank_append (i : ℕ) (h : skipBlank i p = some (ret, q)) (s : List Byte) :
    skipBlank i (p ++ s) = some (ret, q ++ s) := by
  induction i generalizing p with
  | zero =>
    cases h
    rfl
  | succ i ih =>
    unfold skipBlank at h ⊢
    obtain ⟨r, hr, h⟩ := bind_eq_some_iff.1 h
    obtain ⟨⟨ret', t⟩, ht, h⟩ := bind_eq_some_iff.1 h
    rw [skipBlanks_append hr s, bind_some, toBlank_append ht s, bind_some]
    dsimp only at h ⊢
    split_ifs at h ⊢
    · cases h
      rfl
    · exact ih h

theorem skipChars_append (i : ℕ) (h : skipChars i p = some q) (s : List Byte) :
    skipChars i (p ++ s) = some (q ++ s) := by
  induction i generalizing p with
  | zero =>
    cases h
    rfl
  | succ i ih =>
    cases p with
    | nil => cases h
    | cons c p =>
      unfold skipChars at h
      rw [cons_append, skipChars]
      split_ifs at h ⊢
      · exact ih h
      · cases h
        rfl

theorem skipInto_append {fp : Field} (h : skipInto fp j (ret, p) = some q) (s : List Byte) :
    skipInto fp j (ret, p ++ s) = some (q ++ s) := by
  cases ret with
  | true =>
    cases h
    rfl
  | false =>
    rw [skipInto] at h ⊢
    obtain ⟨r, hr, h⟩ := bind_eq_some_iff.1 h
    have hr' : (if fp.bflg j then
        skipBlanks (if j = 1 ∧ fp.m j > 0 then (p ++ s).tail else p ++ s)
        else some (p ++ s)) = some (r ++ s) := by
      split_ifs at hr ⊢
      · have hne : p ≠ [] := by
          rintro rfl
          cases hr
        rw [tail_append_of_ne_nil hne]
        exact skipBlanks_append hr s
      · exact skipBlanks_append hr s
      · cases hr
        rfl
    rw [hr', bind_some]
    exact skipChars_append _ h s

/-- **The start and the end of a field** do not depend on what follows. -/
theorem skip_append {fp : Field} (h : skip env p fp j = some q) (s : List Byte) :
    skip env (p ++ s) fp j = some (q ++ s) := by
  unfold skip at h ⊢
  split_ifs at h ⊢
  · exact eol_append h s
  · obtain ⟨⟨ret, r⟩, hr, h⟩ := bind_eq_some_iff.1 h
    rw [skipTab_append _ hr s, bind_some]
    exact skipInto_append h s
  · obtain ⟨⟨ret, r⟩, hr, h⟩ := bind_eq_some_iff.1 h
    rw [skipBlank_append _ hr s, bind_some]
    exact skipInto_append h s

theorem place_append {k : Bool} {fp : Field} {l : List Byte}
    (h : place env k fp p = some (l, q)) (s : List Byte) :
    place env k fp (p ++ s) = some (l ++ s, q ++ s) := by
  unfold place at h ⊢
  split_ifs at h ⊢
  · obtain ⟨la, hla, h⟩ := bind_eq_some_iff.1 h
    obtain ⟨pa, hpa, h⟩ := bind_eq_some_iff.1 h
    cases h
    rw [skip_append hla s, bind_some, skip_append hpa s, bind_some]
  · obtain ⟨la, hla, h⟩ := bind_eq_some_iff.1 h
    cases h
    rw [eol_append hla s, bind_some]

end frame

/-! ## The comparisons -/

section compare

variable {env : Env} {p pa pb la lb : List Byte} {rflg c : ℤ}

theorem sign_append {sa : ℤ} {q : List Byte} (h : sign rflg p = some (sa, q)) (s : List Byte) :
    sign rflg (p ++ s) = some (sa, q ++ s) := by
  cases p with
  | nil => cases h
  | cons c p =>
    rw [sign] at h
    rw [cons_append, sign]
    split_ifs at h ⊢ <;>
    · cases h
      rfl

theorem digits_append (la p s : List Byte) :
    digits (la ++ s) (p ++ s) = ((digits la p).1, (digits la p).2 ++ s) := by
  induction p with
  | nil =>
    cases s with
    | nil => rfl
    | cons c s =>
      have hstop : ¬ ((la ++ c :: s).length < (c :: s).length ∧ isdigit c = true) := by
        rintro ⟨hlt, -⟩
        rw [length_append] at hlt
        omega
      show digits (la ++ c :: s) (c :: s) = ([], c :: s)
      rw [digits, if_neg hstop]
  | cons c p ih =>
    have hlen : (la ++ s).length < (c :: (p ++ s)).length ↔ la.length < (c :: p).length := by
      simp only [length_append, length_cons]
      omega
    rw [cons_append, digits, digits]
    simp only [hlen]
    split_ifs
    · rw [ih]
    · rfl

theorem point_append {q : List Byte} (h : point p = some q) (s : List Byte) :
    point (p ++ s) = some (q ++ s) := by
  cases p with
  | nil => cases h
  | cons c p =>
    rw [point] at h
    rw [cons_append, point]
    split_ifs at h ⊢ <;>
    · cases h
      rfl

theorem numCmp_append (h : numCmp rflg la pa lb pb = some c) (s t : List Byte) :
    numCmp rflg (la ++ s) (pa ++ s) (lb ++ t) (pb ++ t) = some c := by
  unfold numCmp at h ⊢
  obtain ⟨⟨sa, qa⟩, ha, h⟩ := bind_eq_some_iff.1 h
  obtain ⟨⟨sb, qb⟩, hb, h⟩ := bind_eq_some_iff.1 h
  rw [sign_append ha s, bind_some]
  dsimp only at h ⊢
  rw [sign_append hb t, bind_some]
  dsimp only at h ⊢
  rw [digits_append, digits_append]
  split_ifs at h ⊢
  · exact h
  · obtain ⟨ra, hra, h⟩ := bind_eq_some_iff.1 h
    obtain ⟨rb, hrb, h⟩ := bind_eq_some_iff.1 h
    rw [point_append hra s, bind_some, point_append hrb t, bind_some,
      digits_append, digits_append]
    exact h

theorem monthMatch_append {u : List Byte} {b : Bool} (h : monthMatch env u p = some b)
    (s : List Byte) : monthMatch env u (p ++ s) = some b := by
  induction u generalizing p with
  | nil =>
    cases h
    cases p <;> cases s <;> rfl
  | cons c u ih =>
    cases p with
    | nil => cases h
    | cons t p =>
      unfold monthMatch at h
      rw [cons_append, monthMatch]
      split_ifs at h ⊢
      · exact ih h
      · exact h

theorem monthFrom_append {us : List (List Byte)} {i m : ℤ} (h : monthFrom env p i us = some m)
    (s : List Byte) : monthFrom env (p ++ s) i us = some m := by
  induction us generalizing i with
  | nil => exact h
  | cons u us ih =>
    unfold monthFrom at h ⊢
    obtain ⟨b, hb, h⟩ := bind_eq_some_iff.1 h
    rw [monthMatch_append hb s, bind_some]
    split_ifs at h ⊢
    · exact h
    · exact ih h

theorem monCmp_append (h : monCmp env rflg pa pb = some c) (s t : List Byte) :
    monCmp env rflg (pa ++ s) (pb ++ t) = some c := by
  unfold monCmp month at h ⊢
  obtain ⟨mb, hb, h⟩ := bind_eq_some_iff.1 h
  obtain ⟨ma, ha, h⟩ := bind_eq_some_iff.1 h
  rw [monthFrom_append hb t, bind_some, monthFrom_append ha s, bind_some]
  exact h

variable {ign : Byte → Bool} {code : Byte → ℤ}

theorem skipIgnored_append {b : Byte} {q : List Byte} (h : skipIgnored ign p = some (b, q))
    (s : List Byte) : skipIgnored ign (p ++ s) = some (b, q ++ s) := by
  induction p with
  | nil => cases h
  | cons c p ih =>
    unfold skipIgnored at h
    rw [cons_append, skipIgnored]
    split_ifs at h ⊢
    · exact ih h
    · cases h
      rfl

theorem ended_append (la : List Byte) (b : Byte) (p s : List Byte) :
    ended (la ++ s) b (p ++ s) = ended la b p := by
  have hlen : (p ++ s).length + 1 ≤ (la ++ s).length ↔ p.length + 1 ≤ la.length := by
    simp only [length_append]
    omega
  unfold ended
  rw [decide_eq_decide.2 hlen]

theorem ascCmp_append (h : ascCmp code ign rflg la lb pa pb = some c) (s t : List Byte) :
    ascCmp code ign rflg (la ++ s) (lb ++ t) (pa ++ s) (pb ++ t) = some c := by
  induction pa generalizing pb with
  | nil => cases h
  | cons a pa ih =>
    unfold ascCmp at h
    rw [cons_append, ascCmp]
    by_cases hskip : ign a = true
    · rw [if_pos hskip] at h ⊢
      exact ih h
    · rw [if_neg hskip] at h ⊢
      obtain ⟨⟨b, q⟩, hq, h⟩ := bind_eq_some_iff.1 h
      rw [skipIgnored_append hq t, bind_some]
      dsimp only at h ⊢
      rw [ended_append, ended_append]
      split_ifs at h ⊢
      · exact h
      · exact h
      · exact h
      · exact ih h
      · exact h

theorem cmpField_append {k : Bool} {fp : Field} {i j : List Byte}
    (h : cmpField env k fp i j = some c) (s t : List Byte) :
    cmpField env k fp (i ++ s) (j ++ t) = some c := by
  unfold cmpField at h ⊢
  obtain ⟨⟨la, pa⟩, ha, h⟩ := bind_eq_some_iff.1 h
  obtain ⟨⟨lb, pb⟩, hb, h⟩ := bind_eq_some_iff.1 h
  rw [place_append ha s, bind_some]
  dsimp only at h ⊢
  rw [place_append hb t, bind_some]
  dsimp only at h ⊢
  unfold keyCmp at h ⊢
  cases hf : fp.fcmp with
  | num =>
    rw [hf] at h
    exact numCmp_append h s t
  | mon =>
    rw [hf] at h
    exact monCmp_append h s t
  | asc =>
    rw [hf] at h
    exact ascCmp_append h s t

theorem cmpFields_append {k : Bool} {fs : List Field} {i j : List Byte}
    (h : cmpFields env k fs i j = some c) (s t : List Byte) :
    cmpFields env k fs (i ++ s) (j ++ t) = some c := by
  induction fs with
  | nil => exact h
  | cons fp fs ih =>
    unfold cmpFields at h ⊢
    obtain ⟨c', hc', h⟩ := bind_eq_some_iff.1 h
    rw [cmpField_append hc' s t, bind_some]
    split_ifs at h ⊢
    · exact ih h
    · exact h

theorem cmpaAt_append (h : cmpaAt rflg pa pb = some c) (s t : List Byte) :
    cmpaAt rflg (pa ++ s) (pb ++ t) = some c := by
  induction pa generalizing pb with
  | nil => cases h
  | cons a pa ih =>
    cases pb with
    | nil => cases h
    | cons b pb =>
      unfold cmpaAt at h
      rw [cons_append, cons_append, cmpaAt]
      split_ifs at h ⊢
      · exact h
      · exact ih h
      all_goals exact h

/-- **The comparison of two lines** does not depend on what follows them. -/
theorem cmp_append {field0 : Field} {fields : List Field} {i j : List Byte}
    (h : cmp env field0 fields i j = some c) (s t : List Byte) :
    cmp env field0 fields (i ++ s) (j ++ t) = some c := by
  unfold cmp at h ⊢
  obtain ⟨c', hc', h⟩ := bind_eq_some_iff.1 h
  have hkeys : (if fields = [] then cmpFields env false [field0] (i ++ s) (j ++ t)
      else cmpFields env true fields (i ++ s) (j ++ t)) = some c' := by
    split_ifs at hc' ⊢
    · exact cmpFields_append hc' s t
    · exact cmpFields_append hc' s t
  rw [hkeys, bind_some]
  split_ifs at h ⊢
  · exact h
  · exact cmpaAt_append h s t
  · exact h

end compare

end Cmd
