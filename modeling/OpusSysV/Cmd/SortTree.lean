import OpusSysV.Cmd.SortRead

/-!
# The tree of a merge

* `IsOrder` — what the comparison has to be for a sorted output to make sense; `cmpa` is.
* `insert_spec` — `insert` puts the first entry where the order wants it, by the short way or by
  binary search.
* `sortTree_spec` — the entries are in order when the merge starts.
-/

namespace Cmd

open Lib List

variable {compare : List Byte → List Byte → ℤ}

/-! ## The comparison -/

/-- The signs of the comparison are those of a total order, up to equivalence. -/
structure IsOrder (compare : List Byte → List Byte → ℤ) : Prop where
  flip : ∀ a b, 0 < compare a b ↔ compare b a < 0
  trans : ∀ a b c, 0 ≤ compare a b → 0 ≤ compare b c → 0 ≤ compare a c

theorem IsOrder.refl (h : IsOrder compare) (a : List Byte) : 0 ≤ compare a a := by
  have := h.flip a a
  omega

theorem IsOrder.neg (h : IsOrder compare) {a b : List Byte} (hab : compare a b ≤ 0) :
    0 ≤ compare b a := by
  have := h.flip a b
  omega

theorem IsOrder.nonneg (h : IsOrder compare) {a b : List Byte} (hab : 0 ≤ compare a b) :
    compare b a ≤ 0 := by
  have := h.flip b a
  omega

/-- The order of two strings, by their lines. -/
def before (compare : List Byte → List Byte → ℤ) (a b : List Byte) : Prop :=
  0 ≤ compare (line a) (line b)

theorem charVal_inj {a b : Byte} (h : charVal a = charVal b) : a = b := by
  have := congrArg Int8.toUInt8 (Int8.toInt_inj.mp h)
  rwa [UInt8.toUInt8_toInt8, UInt8.toUInt8_toInt8] at this

theorem cmpa_eq (rflg : ℤ) (a b : List Byte) : cmpa rflg a b = rflg * cmpa 1 a b := by
  induction a generalizing b with
  | nil => cases b <;> simp [cmpa]
  | cons x a ih =>
    cases b with
    | nil => simp [cmpa]
    | cons y b =>
      rw [cmpa, cmpa]
      split_ifs
      · exact ih b
      · rw [mul_one]
      · rw [mul_neg_one]

theorem cmpa_flip (a b : List Byte) : cmpa 1 b a = -cmpa 1 a b := by
  induction a generalizing b with
  | nil => cases b <;> simp [cmpa]
  | cons x a ih =>
    cases b with
    | nil => simp [cmpa]
    | cons y b =>
      rw [cmpa, cmpa]
      by_cases hxy : x = y
      · rw [if_pos hxy, if_pos hxy.symm]
        exact ih b
      · rw [if_neg hxy, if_neg (Ne.symm hxy)]
        have hne : charVal x ≠ charVal y := fun h => hxy (charVal_inj h)
        split_ifs <;> omega

theorem cmpa_trans {a b c : List Byte} (hab : 0 ≤ cmpa 1 a b) (hbc : 0 ≤ cmpa 1 b c) :
    0 ≤ cmpa 1 a c := by
  induction a generalizing b c with
  | nil => cases c <;> simp [cmpa]
  | cons x a ih =>
    cases b with
    | nil => simp [cmpa] at hab
    | cons y b =>
      cases c with
      | nil => simp [cmpa] at hbc
      | cons z c =>
        rw [cmpa] at hab hbc ⊢
        by_cases hxy : x = y
        · subst hxy
          rw [if_pos rfl] at hab
          split_ifs at hbc ⊢
          · exact ih hab hbc
          · exact zero_le_one
          · omega
        · by_cases hyz : y = z
          · subst hyz
            rw [if_neg hxy] at hab ⊢
            exact hab
          · rw [if_neg hxy] at hab
            rw [if_neg hyz] at hbc
            have hlt : charVal x < charVal z := by
              split_ifs at hab hbc <;> omega
            rw [if_neg (fun h => by rw [h] at hlt; exact lt_irrefl _ hlt), if_pos hlt]
            exact zero_le_one

/-- The default comparison, with and without `-r`. -/
theorem cmpa_order {rflg : ℤ} (hr : rflg = 1 ∨ rflg = -1) : IsOrder (cmpa rflg) := by
  rcases hr with rfl | rfl
  · refine ⟨fun a b => ?_, fun a b c => cmpa_trans⟩
    rw [cmpa_flip a b]
    omega
  · refine ⟨fun a b => ?_, fun a b c hab hbc => ?_⟩
    · rw [cmpa_eq, cmpa_eq (-1) b a, cmpa_flip a b]
      omega
    · rw [cmpa_eq, neg_one_mul, ← cmpa_flip] at hab hbc ⊢
      exact cmpa_trans hbc hab

/-! ## `insert` -/

/-- The binary search: before the place it finds the first entry is not smaller, from there on it is
not greater. -/
theorem search_spec (k lop hip midp : ℕ) {c : ℕ → ℤ} {n : ℕ} (hk : hip - lop ≤ k) (hlh : lop ≤ hip)
    (hhn : hip ≤ n) (hmid : lop = hip → midp = lop) (h1 : 1 ≤ lop)
    (hmono : ∀ i j, 1 ≤ i → i ≤ j → j < n → (c j ≤ 0 → c i ≤ 0) ∧ (0 ≤ c i → 0 ≤ c j))
    (hlo : ∀ j, 1 ≤ j → j < lop → c j ≤ 0) (hhi : ∀ j, hip ≤ j → j < n → 0 ≤ c j) :
    1 ≤ search c k lop hip midp ∧ search c k lop hip midp ≤ n ∧
      (∀ j, 1 ≤ j → j < search c k lop hip midp → c j ≤ 0) ∧
      ∀ j, search c k lop hip midp ≤ j → j < n → 0 ≤ c j := by
  induction k generalizing lop hip midp with
  | zero =>
    have heq : lop = hip := by omega
    rw [search, hmid heq]
    exact ⟨h1, by omega, hlo, fun j hj => hhi j (by omega)⟩
  | succ k ih =>
    rw [search]
    dsimp only
    by_cases hlt : lop < hip
    · rw [if_pos hlt]
      obtain ⟨m, hm⟩ : ∃ m, m = lop + (hip - 1 - lop) / 2 := ⟨_, rfl⟩
      rw [← hm]
      have hm1 : lop ≤ m ∧ m < hip := by omega
      by_cases h0 : c m = 0
      · rw [if_pos h0]
        exact ⟨by omega, by omega, fun j hj1 hj2 => (hmono j m hj1 hj2.le (by omega)).1 h0.le,
          fun j hj1 hj2 => (hmono m j (by omega) hj1 hj2).2 h0.ge⟩
      rw [if_neg h0]
      split_ifs with hneg
      · exact ih _ _ _ (by omega) (by omega) hhn (fun _ => rfl) (by omega)
          (fun j hj1 hj2 => (hmono j m hj1 (by omega) (by omega)).1 hneg.le) hhi
      · exact ih _ _ _ (by omega) hm1.1 (by omega) (fun h => h.symm) h1 hlo
          (fun j hj1 hj2 => (hmono m j (by omega) hj1 hj2).2 (by omega))
    · have heq : lop = hip := by omega
      rw [if_neg hlt, hmid heq]
      exact ⟨h1, by omega, hlo, fun j hj => hhi j (by omega)⟩

namespace Merge

variable {s t : Merge} {i : ℕ} {rest is : List ℕ} {maxrec : ℕ}

/-- The string in a buffer of `s`. -/
def key (s : Merge) (i : ℕ) : List Byte := cstr (s.buf i)

/-- The entries are in order, and the buffers hold lines. -/
def Ordered (compare : List Byte → List Byte → ℤ) (s : Merge) (is : List ℕ) : Prop :=
  is.Pairwise fun i j => 0 ≤ compare (line (s.buf i)) (line (s.buf j))

/-- Two states that differ in `treep` and the counters only. -/
structure SameFiles (s t : Merge) : Prop where
  tfile : t.tfile = s.tfile
  buf : t.buf = s.buf
  os : t.os = s.os

/-- What `compareTo` compares with. -/
theorem compareTo_eq (hs : s.treep = i :: rest) {j : ℕ} (hj : j < rest.length) :
    s.compareTo compare (j + 1) = compare (line (s.buf i)) (line (s.buf rest[j])) := by
  unfold compareTo
  rw [hs, getD_cons_zero, getD_cons_succ, getD_eq_getElem?_getD,
    List.getElem?_eq_getElem hj, Option.getD_some]

/-- The comparisons go from not greater to not smaller. -/
theorem compareTo_mono (ho : IsOrder compare) (hs : s.treep = i :: rest)
    (hsort : s.Ordered compare rest) {a b : ℕ} (ha : 1 ≤ a) (hab : a ≤ b)
    (hb : b < rest.length + 1) :
    (s.compareTo compare b ≤ 0 → s.compareTo compare a ≤ 0) ∧
      (0 ≤ s.compareTo compare a → 0 ≤ s.compareTo compare b) := by
  obtain ⟨a, rfl⟩ : ∃ a', a = a' + 1 := ⟨a - 1, by omega⟩
  obtain ⟨b, rfl⟩ : ∃ b', b = b' + 1 := ⟨b - 1, by omega⟩
  have hab' : 0 ≤ compare (line (s.buf rest[a])) (line (s.buf rest[b])) := by
    rcases Nat.lt_or_eq_of_le hab with hlt | heq
    · exact pairwise_iff_getElem.mp hsort a b (by omega) (by omega) (by omega)
    · cases heq
      exact ho.refl _
  rw [compareTo_eq hs (by omega), compareTo_eq hs (by omega)]
  exact ⟨fun h => ho.nonneg (ho.trans _ _ _ hab' (ho.neg h)), fun h => ho.trans _ _ _ h hab'⟩

/-- **`insert` puts the first entry in its place.** -/
theorem insert_spec (ho : IsOrder compare) (hs : s.treep = i :: rest)
    (hsort : s.Ordered compare rest) :
    s.SameFiles (s.insert compare) ∧ ∃ l r, rest = l ++ r ∧
      (s.insert compare).treep = l ++ i :: r ∧
      (∀ j ∈ l, 0 ≤ compare (line (s.buf j)) (line (s.buf i))) ∧
      ∀ j ∈ r, 0 ≤ compare (line (s.buf i)) (line (s.buf j)) := by
  -- the entry stays where it is
  have hstay : (rest = [] ∨ 0 ≤ s.compareTo compare 1) → ∀ j ∈ rest,
      0 ≤ compare (line (s.buf i)) (line (s.buf j)) := by
    intro h j hj
    obtain ⟨k, hk, rfl⟩ := getElem_of_mem hj
    rcases h with rfl | h
    · exact absurd hj not_mem_nil
    · have := (compareTo_mono ho hs hsort (a := 1) (b := k + 1) le_rfl (by omega) (by omega)).2 h
      rwa [compareTo_eq hs hk] at this
  obtain ⟨m, hm⟩ : ∃ m, m = search (s.compareTo compare) (rest.length + 1) 1 (rest.length + 1) 0 :=
    ⟨_, rfl⟩
  have heq : s.insert compare = if s.notfirst < s.wasfirst ∧ 2 < rest.length + 1 ∧
        0 ≤ s.compareTo compare 1 then { s with wasfirst := long (s.wasfirst + s.bonus) }
      else if 1 < m then { s with
        treep := rest.take (m - 1) ++ i :: rest.drop (m - 1)
        notfirst := long (s.notfirst + 1) }
      else { s with wasfirst := long (s.wasfirst + s.bonus) } := by
    unfold Merge.insert
    rw [hs, hm]
  rw [heq]
  by_cases hfast : s.notfirst < s.wasfirst ∧ 2 < rest.length + 1 ∧ 0 ≤ s.compareTo compare 1
  · rw [if_pos hfast]
    exact ⟨⟨rfl, rfl, rfl⟩, [], rest, rfl, hs, fun _ h => (nomatch h),
      hstay (Or.inr hfast.2.2)⟩
  rw [if_neg hfast]
  by_cases hnil : rest = []
  · subst hnil
    rw [hm, length_nil, search, if_neg (lt_irrefl 1), if_neg (by decide)]
    exact ⟨⟨rfl, rfl, rfl⟩, [], [], rfl, hs, fun _ h => (nomatch h), fun _ h => (nomatch h)⟩
  have hpos := length_pos_iff.mpr hnil
  obtain ⟨h1, h2, h3, h4⟩ := search_spec (rest.length + 1) 1 (rest.length + 1) 0
    (c := s.compareTo compare) (n := rest.length + 1) (by omega) (by omega) le_rfl (by omega)
    le_rfl (fun a b => compareTo_mono ho hs hsort) (by omega) (by omega)
  rw [← hm] at h1 h2 h3 h4
  split_ifs
  · refine ⟨⟨rfl, rfl, rfl⟩, rest.take (m - 1), rest.drop (m - 1),
      (take_append_drop (m - 1) rest).symm, rfl, fun j hj => ?_, fun j hj => ?_⟩
    · obtain ⟨k, hk, rfl⟩ := getElem_of_mem hj
      rw [length_take] at hk
      rw [getElem_take]
      have := h3 (k + 1) (by omega) (by omega)
      rw [compareTo_eq hs (by omega)] at this
      exact ho.neg this
    · obtain ⟨k, hk, rfl⟩ := getElem_of_mem hj
      rw [length_drop] at hk
      rw [getElem_drop]
      have := h4 (m - 1 + k + 1) (by omega) (by omega)
      rwa [compareTo_eq hs (by omega)] at this
  · exact ⟨⟨rfl, rfl, rfl⟩, [], rest, rfl, hs, fun _ h => (nomatch h),
      hstay (Or.inr (h4 1 (by omega) (by omega)))⟩

/-- All entries are in order after `insert`. -/
theorem insert_ordered (ho : IsOrder compare) (hs : s.treep = i :: rest)
    (hsort : s.Ordered compare rest) :
    s.SameFiles (s.insert compare) ∧ (s.insert compare).treep.Perm (i :: rest) ∧
      s.Ordered compare (s.insert compare).treep := by
  obtain ⟨hsame, l, r, hlr, htr, hl, hr⟩ := insert_spec ho hs hsort
  refine ⟨hsame, ?_, ?_⟩
  · rw [htr, hlr]
    exact perm_middle
  · rw [hlr] at hsort
    obtain ⟨h7, h8, h9⟩ := pairwise_append.mp hsort
    rw [htr]
    refine pairwise_append.mpr ⟨h7, pairwise_cons.mpr ⟨hr, h8⟩, fun a ha b hb => ?_⟩
    rcases mem_cons.mp hb with rfl | hb
    · exact hl a ha
    · exact h9 a ha b hb

end Merge

end Cmd
