import Mathlib.Algebra.Order.Group.Int
import Mathlib.Algebra.Order.Ring.Int
import Mathlib.Order.Defs.LinearOrder

/-!
# Comparators: routines that tell by a sign which of two values comes first

* `IsCmp` — the signs are those of a total order, up to equivalence; positive if the first value
  comes first.
* `IsCmp.of_key`, `IsCmp.comap` — a comparison of keys in a linear order, or of images.
* `IsCmp.orElse`, `IsCmp.reverse` — a second comparison for what the first one leaves equal, and
  the other direction.
-/

namespace Lib

open List

variable {α β : Type*} {f g : α → α → ℤ}

/-- The signs of `f` are those of a total order, up to equivalence. -/
structure IsCmp (f : α → α → ℤ) : Prop where
  flip : ∀ a b, 0 < f a b ↔ f b a < 0
  trans : ∀ a b c, 0 ≤ f a b → 0 ≤ f b c → 0 ≤ f a c

namespace IsCmp

theorem zero_iff (h : IsCmp f) (a b : α) : f a b = 0 ↔ f b a = 0 := by
  have h1 := h.flip a b
  have h2 := h.flip b a
  omega

theorem self (h : IsCmp f) (a : α) : f a a = 0 := by
  have := h.flip a a
  omega

/-- What is equal to `c` compares like `c`. -/
theorem sign_congr (h : IsCmp f) {b c : α} (hbc : f b c = 0) (a : α) :
    (f a b).sign = (f a c).sign := by
  have h1 := h.flip a b
  have h2 := h.flip b a
  have h3 := h.flip a c
  have h4 := h.flip c a
  have h5 := h.flip b c
  have h6 := h.flip c b
  have h7 := h.trans a b c
  have h8 := h.trans a c b
  have h9 := h.trans b c a
  have h10 := h.trans c b a
  rcases lt_trichotomy (f a b) 0 with hlt | heq | hgt
  · rw [Int.sign_eq_neg_one_of_neg hlt, Int.sign_eq_neg_one_of_neg (by omega)]
  · rw [heq, show f a c = 0 by omega]
  · rw [Int.sign_eq_one_of_pos hgt, Int.sign_eq_one_of_pos (by omega)]

theorem sign_flip (h : IsCmp f) (a b : α) : (f b a).sign = -(f a b).sign := by
  have h1 := h.flip a b
  have h2 := h.flip b a
  rcases lt_trichotomy (f a b) 0 with hlt | heq | hgt
  · rw [Int.sign_eq_neg_one_of_neg hlt, Int.sign_eq_one_of_pos (by omega)]
    rfl
  · rw [heq, show f b a = 0 by omega]
    rfl
  · rw [Int.sign_eq_one_of_pos hgt, Int.sign_eq_neg_one_of_neg (by omega)]

/-- Of values that are all told apart, one is equal to `x` if some is. -/
theorem countP_one (h : IsCmp f) {x : α} {ys : List α} (hp : ys.Pairwise fun a b => f a b ≠ 0)
    (hx : ∃ y ∈ ys, f x y = 0) : (ys.countP fun y => f x y = 0) = 1 := by
  induction ys with
  | nil => exact absurd hx (by simp)
  | cons y ys ih =>
    obtain ⟨hy, hys⟩ := pairwise_cons.1 hp
    rw [countP_cons]
    by_cases hxy : f x y = 0
    · have hnone : (ys.countP fun z => f x z = 0) = 0 := by
        refine countP_eq_zero.2 fun z hz hxz => hy z hz ?_
        rw [decide_eq_true_eq] at hxz
        rw [← Int.sign_eq_zero_iff_zero, h.sign_congr ((h.zero_iff x z).1 hxz) y,
          Int.sign_eq_zero_iff_zero]
        exact (h.zero_iff x y).1 hxy
      rw [hnone, if_pos (decide_eq_true hxy)]
    · obtain ⟨z, hz, hxz⟩ := hx
      have hzs : z ∈ ys := (mem_cons.1 hz).resolve_left fun heq => hxy (heq ▸ hxz)
      rw [ih hys ⟨z, hzs, hxz⟩, if_neg (by rwa [decide_eq_true_eq])]

/-- Nothing is told apart. -/
theorem zero : IsCmp fun _ _ : α => 0 := ⟨fun _ _ => by omega, fun _ _ _ _ _ => le_rfl⟩

/-- **Keys** in a linear order. -/
theorem of_key [LinearOrder β] (key : α → β) (hpos : ∀ a b, 0 < f a b ↔ key a < key b)
    (hneg : ∀ a b, f a b < 0 ↔ key b < key a) : IsCmp f where
  flip a b := by rw [hpos, hneg]
  trans a b c hab hbc := by
    have hab' : ¬ key b < key a := by
      rw [← hneg]
      omega
    have hbc' : ¬ key c < key b := by
      rw [← hneg]
      omega
    by_contra hac
    refine not_le_of_gt ((hneg a c).1 (by omega)) ?_
    exact (not_lt.1 hab').trans (not_lt.1 hbc')

/-- The comparison of images. -/
theorem comap (h : IsCmp f) (key : β → α) : IsCmp fun a b => f (key a) (key b) :=
  ⟨fun _ _ => h.flip _ _, fun _ _ _ => h.trans _ _ _⟩

/-- **A second comparison** decides where the first one does not. -/
theorem orElse (hf : IsCmp f) (hg : IsCmp g) :
    IsCmp fun a b => if f a b = 0 then g a b else f a b where
  flip a b := by
    have h1 := hf.flip a b
    have h2 := hf.flip b a
    have h3 := hg.flip a b
    split_ifs <;> omega
  trans a b c hab hbc := by
    have h1 := hf.flip a b
    have h2 := hf.flip b a
    have h3 := hf.flip b c
    have h4 := hf.flip c b
    have h5 := hf.flip a c
    have h6 := hf.flip c a
    have hfab := hf.trans a b c
    have hfca := hf.trans c a b
    have hfbc := hf.trans b c a
    have hgab := hg.trans a b c

    split_ifs at hab hbc ⊢ <;> omega

/-- **The other direction**, for a sign of -1. -/
theorem reverse {r : ℤ} (hr : r = 1 ∨ r = -1) (h : IsCmp f) : IsCmp fun a b => r * f a b := by
  rcases hr with rfl | rfl
  · simpa only [one_mul] using h
  · refine ⟨fun a b => ?_, fun a b c hab hbc => ?_⟩
    · have := h.flip b a
      omega
    · have h1 := h.flip b a
      have h2 := h.flip a b
      have h3 := h.flip b c
      have h4 := h.flip c b
      have h5 := h.flip a c
      have h6 := h.flip c a
      have := h.trans c b a
      omega

end IsCmp

end Lib
