import Mathlib.Data.List.Perm.Basic
import Mathlib.Data.List.Nodup
import Mathlib.Logic.Equiv.Basic

/-!
# Slots: an array of which entries can be empty

* `filled v a l` — what the slots from `a` to before `l` hold, in their order.
* `Rearranged a l v w` — `w` has the entries of `v`, moved within these slots only.
* `Rearranged.swap`, `Rearranged.trans` — exchanges of slots, and one after the other.
* `Rearranged.perm` — nothing is lost or invented.
-/

namespace Lib

open List

variable {α : Type*} {v w x : ℕ → Option α} {a b l : ℕ}

/-- What the slots from `a` to before `l` hold. -/
def filled (v : ℕ → Option α) (a l : ℕ) : List α := (List.range' a (l - a)).filterMap v

theorem mem_filled {y : α} : y ∈ filled v a l ↔ ∃ k, a ≤ k ∧ k < l ∧ v k = some y := by
  unfold filled
  rw [mem_filterMap]
  constructor
  · rintro ⟨k, hk, hv⟩
    rw [mem_range'_1] at hk
    exact ⟨k, hk.1, by omega, hv⟩
  · rintro ⟨k, hak, hkl, hv⟩
    exact ⟨k, mem_range'_1.2 ⟨hak, by omega⟩, hv⟩

/-- Neighbouring pieces. -/
theorem filled_append (hab : a ≤ b) (hbl : b ≤ l) :
    filled v a l = filled v a b ++ filled v b l := by
  unfold filled
  rw [← filterMap_append]
  congr 1
  rw [show l - a = (b - a) + (l - b) by omega, ← List.range'_append_1,
    show a + (b - a) = b by omega]

theorem filled_empty (h : l ≤ a) : filled v a l = [] := by
  unfold filled
  rw [Nat.sub_eq_zero_of_le h]
  rfl

theorem filled_one (v : ℕ → Option α) (a : ℕ) : filled v a (a + 1) = (v a).toList := by
  unfold filled
  rw [Nat.add_sub_cancel_left, List.range'_one, filterMap_cons, filterMap_nil]
  cases v a <;> rfl

/-- Only the slots of the piece matter. -/
theorem filled_congr (h : ∀ k, a ≤ k → k < l → w k = v k) : filled w a l = filled v a l := by
  unfold filled
  refine filterMap_congr fun k hk => ?_
  rw [mem_range'_1] at hk
  exact h k hk.1 (by omega)

/-- The order of a piece, by its slots. -/
theorem filled_pairwise {r : α → α → Prop}
    (h : ∀ j k y z, a ≤ j → j < k → k < l → v j = some y → v k = some z → r y z) :
    (filled v a l).Pairwise r := by
  unfold filled
  rw [pairwise_filterMap]
  refine List.Pairwise.imp_of_mem ?_ (@pairwise_lt_range' a (l - a) 1 Nat.one_pos)
  intro j k hj hk hjk y hy z hz
  rw [mem_range'_1] at hj hk
  exact h j k y z hj.1 hjk (by omega) hy hz

/-- `w` has the entries of `v`, moved within the slots from `a` to before `l`. -/
def Rearranged (a l : ℕ) (v w : ℕ → Option α) : Prop :=
  ∃ σ : Equiv.Perm ℕ, (∀ k, k < a ∨ l ≤ k → σ k = k) ∧ w = v ∘ σ

namespace Rearranged

theorem refl (a l : ℕ) (v : ℕ → Option α) : Rearranged a l v v := ⟨.refl ℕ, fun _ _ => rfl, rfl⟩

theorem trans (h : Rearranged a l v w) (h' : Rearranged a l w x) : Rearranged a l v x := by
  obtain ⟨σ, hσ, rfl⟩ := h
  obtain ⟨τ, hτ, rfl⟩ := h'
  refine ⟨τ.trans σ, fun k hk => ?_, rfl⟩
  rw [Equiv.trans_apply, hτ k hk, hσ k hk]

/-- **Two slots are exchanged.** -/
theorem swap {p q : ℕ} (hp : a ≤ p ∧ p < l) (hq : a ≤ q ∧ q < l) :
    Rearranged a l v (v ∘ Equiv.swap p q) := by
  refine ⟨Equiv.swap p q, fun k hk => Equiv.swap_apply_of_ne_of_ne ?_ ?_, rfl⟩
  · omega
  · omega

theorem outside (h : Rearranged a l v w) {k : ℕ} (hk : k < a ∨ l ≤ k) : w k = v k := by
  obtain ⟨σ, hσ, rfl⟩ := h
  exact congrArg v (hσ k hk)

/-- **Nothing is lost or invented.** -/
theorem perm (h : Rearranged a l v w) : (filled w a l).Perm (filled v a l) := by
  obtain ⟨σ, hσ, rfl⟩ := h
  have hmem : ∀ τ : Equiv.Perm ℕ, (∀ k, k < a ∨ l ≤ k → τ k = k) → ∀ k, a ≤ k → k < l →
      a ≤ τ k ∧ τ k < l := by
    intro τ hτ k hak hkl
    by_contra hout
    have hfix := τ.injective (hτ (τ k) (by omega))
    omega
  have hsymm : ∀ k, k < a ∨ l ≤ k → σ.symm k = k := fun k hk => by
    rw [Equiv.symm_apply_eq, hσ k hk]
  have hrange : ((List.range' a (l - a)).map σ).Perm (List.range' a (l - a)) := by
    refine (perm_ext_iff_of_nodup ((nodup_range' ..).map σ.injective)
      (nodup_range' ..)).2 ?_
    intro k
    rw [mem_map, mem_range'_1]
    constructor
    · rintro ⟨j, hj, rfl⟩
      rw [mem_range'_1] at hj
      have := hmem σ hσ j hj.1 (by omega)
      omega
    · intro hk
      have := hmem σ.symm hsymm k hk.1 (by omega)
      exact ⟨σ.symm k, mem_range'_1.2 (by omega), σ.apply_symm_apply k⟩
  unfold filled
  rw [← filterMap_map]
  exact hrange.filterMap v

/-- No slot becomes empty. -/
theorem isSome (h : Rearranged a l v w) (hv : ∀ k, a ≤ k → k < l → (v k).isSome) :
    ∀ k, a ≤ k → k < l → (w k).isSome := by
  obtain ⟨σ, hσ, rfl⟩ := h
  intro k hak hkl
  refine hv (σ k) ?_ ?_ <;>
  · by_contra hout
    have hfix := σ.injective (hσ (σ k) (by omega))
    omega

end Rearranged

end Lib
