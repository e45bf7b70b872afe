import Mathlib.Data.List.Induction
import OpusSysV.Os.Region

/-!
# The loops over the page tables

What each loop of `ptexpand` and `growreg` does to a list that is given in parts.

* `freeTables_eq`, `slideDown_eq`, `freeRest_eq` — the loops that free tables.
* `slideUp_eq`, `allocTables_eq`, `allocTables_fail` — those that make place and allocate.
* `Tables` — the first words of a list are the tables that are allocated.
* `eachPage_spec` — only the pages of the range get new entries.
-/

namespace Os

open List Option

variable {l A B C M P Q R T X tabs ts : List ℕ} {m m' : Ptmem} {k n d : ℕ}

/-! ## Freeing -/

theorem getElem?_mid {x : ℕ} (h : n = P.length) : (P ++ x :: Q)[n]? = some x := by
  rw [h, List.getElem?_append_right le_rfl, Nat.sub_self]
  rfl

theorem set_mid {x y : ℕ} (h : n = P.length) : (P ++ x :: Q).set n y = P ++ y :: Q := by
  rw [h, set_append_right _ _ le_rfl, Nat.sub_self]
  rfl

theorem freeTables_eq : freeTables B.length A.length (A ++ B ++ C) m =
    some (A ++ List.replicate B.length 0 ++ C, B.foldl Ptmem.smpgfree m) := by
  induction B generalizing A m with
  | nil => simp [freeTables]
  | cons b B ih =>
    have h1 : A ++ b :: B ++ C = A ++ b :: (B ++ C) := by simp
    have h2 : A ++ 0 :: (B ++ C) = A ++ [0] ++ B ++ C := by simp
    have h3 : A.length + 1 = (A ++ [0]).length := by simp
    rw [length_cons, freeTables, h1, getElem?_mid rfl, bind_some, set_mid rfl, h2, h3,
      ih, foldl_cons, replicate_succ]
    simp

theorem slideDown_eq (hA : A.length = n) (hC : C.length = n) :
    slideDown n P.length (P.length + A.length + M.length) (P ++ A ++ M ++ C ++ R) m =
      some (P ++ C ++ M ++ List.replicate n 0 ++ R, A.foldl Ptmem.smpgfree m) := by
  induction n generalizing P A M C m with
  | zero =>
    rw [length_eq_zero_iff] at hA hC
    subst hA hC
    simp [slideDown]
  | succ n ih =>
    cases A with
    | nil => cases hA
    | cons a A =>
      cases C with
      | nil => cases hC
      | cons c C =>
        have hlen : A.length = n := Nat.succ.inj hA
        have hlen' : C.length = n := Nat.succ.inj hC
        have hl : P ++ a :: A ++ M ++ c :: C ++ R = P ++ a :: (A ++ M ++ c :: C ++ R) := by simp
        have hl2 (x : ℕ) : P ++ x :: (A ++ M ++ c :: C ++ R) =
            (P ++ x :: (A ++ M)) ++ c :: (C ++ R) := by simp
        have hmid (x : ℕ) : P.length + (a :: A).length + M.length =
            (P ++ x :: (A ++ M)).length := by
          simp only [length_append, length_cons]
          omega
        have hread : (P ++ a :: (A ++ M ++ c :: C ++ R))[P.length + (a :: A).length + M.length]? =
            some c := by rw [hl2, getElem?_mid (hmid a)]
        have hset : ((P ++ a :: (A ++ M ++ c :: C ++ R)).set P.length c).set
            (P.length + (a :: A).length + M.length) 0 =
            (P ++ [c]) ++ A ++ (M ++ [0]) ++ C ++ R := by
          rw [set_mid rfl, hl2, set_mid (hmid c)]
          simp
        have hnext : P.length + (a :: A).length + M.length + 1 =
            (P ++ [c]).length + A.length + (M ++ [0]).length := by
          simp only [length_append, length_cons, length_nil]
          omega
        rw [hl, slideDown, getElem?_mid rfl, bind_some, hread, bind_some, hset, hnext,
          show P.length + 1 = (P ++ [c]).length by simp, ih hlen hlen', foldl_cons,
          replicate_succ]
        simp

theorem freeRest_eq (hB : ∀ b ∈ B, b ≠ 0) (hk : B.length < k) :
    freeRest k P.length (P ++ B ++ 0 :: R) m =
      some (P ++ List.replicate B.length 0 ++ 0 :: R, B.foldl Ptmem.smpgfree m) := by
  induction B generalizing P m k with
  | nil =>
    cases k with
    | zero => cases hk
    | succ k =>
      rw [append_nil, freeRest, getElem?_mid rfl, bind_some, if_pos rfl]
      simp
  | cons b B ih =>
    cases k with
    | zero => cases hk
    | succ k =>
      have h1 : P ++ b :: B ++ 0 :: R = P ++ b :: (B ++ 0 :: R) := by simp
      have h2 : P ++ 0 :: (B ++ 0 :: R) = P ++ [0] ++ B ++ 0 :: R := by simp
      have h3 : P.length + 1 = (P ++ [0]).length := by simp
      rw [h1, freeRest, getElem?_mid rfl, bind_some, if_neg (hB b mem_cons_self),
        set_mid rfl, h2, h3, ih (fun x hx => hB x (mem_cons_of_mem b hx))
          (Nat.lt_of_succ_lt_succ hk), foldl_cons, length_cons, replicate_succ]
      simp

/-! ## Allocating -/

theorem slideUp_eq (hd : d ≤ R.length) :
    ∃ X, X.length = d ∧ slideUp d A.length (A ++ R) = some (X ++ A ++ R.drop d) := by
  induction hn : A.length generalizing A R with
  | zero =>
    rw [length_eq_zero_iff] at hn
    subst hn
    refine ⟨R.take d, length_take_of_le hd, ?_⟩
    rw [slideUp, nil_append, append_nil, take_append_drop]
  | succ n ih =>
    obtain ⟨A', a, rfl⟩ : ∃ A' a, A = A' ++ [a] :=
      ⟨_, _, (dropLast_append_getLast (by rintro rfl; cases hn)).symm⟩
    have hA : A'.length = n := by simpa using hn
    have h1 : A' ++ [a] ++ R = A' ++ a :: R := by simp
    have hset : (A' ++ a :: R).set (n + d) a = A' ++ (a :: R).set d a := by
      rw [set_append_right _ _ (by omega), hA, Nat.add_sub_cancel_left]
    have hlen : n + d < (A' ++ a :: R).length := by
      rw [length_append, length_cons, hA]
      omega
    obtain ⟨X, hX, he⟩ := ih (A := A') (R := (a :: R).set d a) (by simp; omega) hA
    have hdrop : ((a :: R).set d a).drop d = a :: R.drop d := by
      have hlt : d < (a :: R).length := Nat.lt_succ_of_le hd
      rw [drop_set, if_neg (lt_irrefl d), Nat.sub_self, drop_eq_getElem_cons hlt]
      rfl
    refine ⟨X, hX, ?_⟩
    rw [h1, slideUp, getElem?_mid hA.symm, bind_some, if_pos hlen, hset, he, hdrop]
    simp

theorem allocTables_eq (lp1 : ℕ) (hX : X.length ≤ tabs.length) :
    allocTables lp1 X.length P.length tabs (P ++ X ++ Q) m =
      some (true, P ++ tabs.take X.length ++ Q,
        (tabs.take X.length).foldl Ptmem.smpgalloc m) := by
  induction X generalizing P tabs m with
  | nil => simp [allocTables]
  | cons x X ih =>
    cases tabs with
    | nil => cases hX
    | cons t tabs =>
      have h1 : P ++ x :: X ++ Q = P ++ x :: (X ++ Q) := by simp
      have h2 : P ++ t :: (X ++ Q) = P ++ [t] ++ X ++ Q := by simp
      have h3 : P.length + 1 = (P ++ [t]).length := by simp
      have hlt : P.length < (P ++ x :: (X ++ Q)).length := by simp
      rw [h1, length_cons, allocTables, if_pos hlt, set_mid rfl, h2, h3]
      rw [ih (Nat.le_of_succ_le_succ hX), take_succ_cons, foldl_cons]
      simp

/-- What was allocated is freed again, the last one first. -/
theorem unwind_eq : unwind T.length P.length (P ++ T ++ Q) m =
    some (T.reverse.foldl Ptmem.smpgfree m) := by
  induction T using List.reverseRecOn generalizing Q m with
  | nil => rfl
  | append_singleton T t ih =>
    have h1 : P ++ (T ++ [t]) ++ Q = (P ++ T) ++ t :: Q := by simp
    have hlen : P.length + T.length = (P ++ T).length := by simp
    rw [length_append, length_singleton, unwind, h1, getElem?_mid hlen, bind_some,
      ih, reverse_append]
    rfl

/-- An allocation fails after those of `tabs`. -/
theorem allocTables_fail (hX : tabs.length < X.length) :
    ∃ X', X'.length = X.length ∧
      allocTables P.length X.length (P ++ T).length tabs (P ++ T ++ X ++ Q) m =
        some (false, P ++ T ++ X' ++ Q,
          (T ++ tabs).reverse.foldl Ptmem.smpgfree (tabs.foldl Ptmem.smpgalloc m)) := by
  induction X generalizing T tabs m with
  | nil => cases hX
  | cons x X ih =>
    have h1 : P ++ T ++ x :: X ++ Q = (P ++ T) ++ x :: (X ++ Q) := by simp
    have hlt : (P ++ T).length < ((P ++ T) ++ x :: (X ++ Q)).length := by simp
    cases tabs with
    | nil =>
      refine ⟨0 :: X, rfl, ?_⟩
      have hk : (P ++ T).length - P.length = T.length := by simp
      rw [h1, length_cons, allocTables, if_pos hlt, set_mid rfl, hk]
      rw [unwind_eq, map_some]
      simp
    | cons t tabs =>
      obtain ⟨X', hX', he⟩ := ih (T := T ++ [t]) (m := m.smpgalloc t)
        (Nat.lt_of_succ_lt_succ hX)
      refine ⟨t :: X', by rw [length_cons, length_cons, hX'], ?_⟩
      have h2 : (P ++ T) ++ t :: (X ++ Q) = P ++ (T ++ [t]) ++ X ++ Q := by simp
      have h3 : (P ++ T).length + 1 = (P ++ (T ++ [t])).length := by
        simp only [length_append, length_singleton]
        omega
      rw [h1, length_cons, allocTables, if_pos hlt, set_mid rfl, h2, h3]
      rw [he, foldl_cons]
      simp

/-! ## The tables that are allocated -/

namespace Ptmem

theorem free_foldl (h : m.pairs.Perm (B ++ C)) :
    (B.foldl smpgfree m).pairs.Perm C ∧ (B.foldl smpgfree m).badfree = m.badfree ∧
      (B.foldl smpgfree m).ent = m.ent := by
  induction B generalizing m with
  | nil => exact ⟨h, rfl, rfl⟩
  | cons b B ih =>
    have hb : b ∈ m.pairs := h.mem_iff.mpr mem_cons_self
    have he : m.smpgfree b = { m with pairs := m.pairs.erase b } := if_pos hb
    have hp : (m.smpgfree b).pairs.Perm (B ++ C) := by
      rw [he]
      have h1 := h.erase b
      rwa [cons_append, erase_cons_head] at h1
    have h1 := ih hp
    rw [he] at h1
    rw [foldl_cons, he]
    exact h1

theorem alloc_foldl : (B.foldl smpgalloc m).pairs.Perm (B ++ m.pairs) ∧
    (B.foldl smpgalloc m).badfree = m.badfree ∧
    ∀ t, t ∉ B → (B.foldl smpgalloc m).ent t = m.ent t := by
  induction B generalizing m with
  | nil => exact ⟨List.Perm.refl _, rfl, fun _ _ => rfl⟩
  | cons b B ih =>
    obtain ⟨h1, h2, h3⟩ := ih (m := m.smpgalloc b)
    refine ⟨h1.trans perm_middle, h2, fun t ht => ?_⟩
    rw [mem_cons, not_or] at ht
    rw [foldl_cons, h3 t ht.2]
    exact Function.update_of_ne ht.1 _ _

end Ptmem

/-- The first words of a list of `listsz` units are the tables of a region, which are those that are
allocated; where `zeros` holds the others are null. -/
structure Tables (l : List ℕ) (listsz : ℤ) (zeros : Prop) (m : Ptmem) (ts : List ℕ) : Prop where
  split : ∃ rest, l = ts ++ rest ∧ (zeros → ∀ t ∈ rest, t = 0)
  length : (l.length : ℤ) = wordsPerRl * listsz
  ne : ∀ t ∈ ts, t ≠ 0
  nodup : ts.Nodup
  pairs : m.pairs.Perm ts
  good : m.badfree = false

theorem Tables.getElem? {listsz : ℤ} {zeros : Prop} (h : Tables l listsz zeros m ts)
    (hn : n < ts.length) : l[n]? = some ts[n] := by
  obtain ⟨rest, rfl, -⟩ := h.split
  rw [List.getElem?_append_left hn, List.getElem?_eq_getElem hn]

/-! ## Entries -/

/-- Every page outside the range keeps its entry. -/
theorem eachPage_spec (start endp : ℤ) {a : ℤ} (f : ℤ → Pgent → Pgent) (ent : ℕ → ℤ → Pgent)
    (hl : ∀ i, a ≤ i → i < a + k → ∃ t, t ≠ 0 ∧ l[i.toNat]? = some t) :
    ∃ ent', eachPage l start endp f k a ent = some ent' ∧
      ∀ t j, (∀ i, a ≤ i → i < a + k → l[i.toNat]? = some t → 0 ≤ j → j < 1024 →
        ¬ (start ≤ i * 1024 + j ∧ i * 1024 + j < endp)) → ent' t j = ent t j := by
  induction k generalizing a ent with
  | zero => exact ⟨ent, rfl, fun _ _ _ => rfl⟩
  | succ k ih =>
    obtain ⟨pt, hpt, hla⟩ := hl a le_rfl (by omega)
    rw [eachPage, hla, bind_some, if_neg hpt]
    dsimp only
    obtain ⟨ent', he, hent⟩ := ih (a := a + 1) (fun b j =>
      if b = pt ∧ (if stoc a < start then start - stoc a else 0) ≤ j ∧
        j < (if stoc a < start then start - stoc a else 0) +
          ((if NPGPT < endp - stoc a then NPGPT else endp - stoc a) -
            (if stoc a < start then start - stoc a else 0))
      then f (stoc a + j) (ent b j) else ent b j)
      fun i h1 h2 => hl i (by omega) (by push_cast; omega)
    refine ⟨ent', he, fun t j hj => ?_⟩
    rw [hent t j fun i h1 h2 => hj i (by omega) (by push_cast; omega)]
    refine if_neg ?_
    rintro ⟨rfl, h1, h2⟩
    simp only [NPGPT, stoc] at h1 h2
    have h3 := hj a le_rfl (by push_cast; omega) hla
    split_ifs at h1 h2 <;> omega

end Os
