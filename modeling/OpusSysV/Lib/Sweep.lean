import Mathlib.Data.List.Nodup
import Mathlib.Tactic.Common

/-!
# Loops that change one cell at a turn

A loop goes over some places, each once.  Its body reads the cell of the place, changes no other one
and may set flags.

* `Sweep` — such a body, with what it makes of a cell.
* `Sweep.cell_foldl`, `Sweep.flag_foldl` — the cells and a flag after the loop, from those before it.
-/

namespace Lib

open List

variable {σ ι β : Type*}

/-- In states with `I`, the body at a place makes `g` of its cell. -/
structure Sweep (cell : σ → ι → β) (I : σ → Prop) (g : β → β) (body : σ → ι → σ) : Prop where
  keeps : ∀ x i, I x → I (body x i)
  self : ∀ x i, I x → cell (body x i) i = g (cell x i)
  other : ∀ x i j, j ≠ i → cell (body x i) j = cell x j

namespace Sweep

variable {cell : σ → ι → β} {I : σ → Prop} {g : β → β} {body : σ → ι → σ} {l : List ι} {x : σ}

theorem inv (h : Sweep cell I g body) (hx : I x) : I (l.foldl body x) := by
  induction l generalizing x with
  | nil => exact hx
  | cons i l ih => exact ih (h.keeps x i hx)

theorem cell_foldl [DecidableEq ι] (h : Sweep cell I g body) (hl : l.Nodup) (hx : I x) (k : ι) :
    cell (l.foldl body x) k = if k ∈ l then g (cell x k) else cell x k := by
  induction l generalizing x with
  | nil => rfl
  | cons i l ih =>
    obtain ⟨hi, hl⟩ := nodup_cons.mp hl
    rw [foldl_cons, ih hl (h.keeps x i hx)]
    by_cases hk : k = i
    · subst hk
      rw [if_neg hi, if_pos mem_cons_self, h.self x k hx]
    · rw [h.other x i k hk]
      simp [hk]

/-- A flag that the body sets when it sees a cell with `c`. -/
theorem flag_foldl (h : Sweep cell I g body) {f : σ → Bool} {c : β → Bool}
    (hflag : ∀ x i, f (body x i) = (f x || c (cell x i))) (hl : l.Nodup) (hx : I x) :
    f (l.foldl body x) = true ↔ f x = true ∨ ∃ i ∈ l, c (cell x i) = true := by
  induction l generalizing x with
  | nil => simp
  | cons i l ih =>
    obtain ⟨hi, hl⟩ := nodup_cons.mp hl
    have hrest : (∃ j ∈ l, c (cell (body x i) j) = true) ↔ ∃ j ∈ l, c (cell x j) = true :=
      exists_congr fun j => and_congr_right fun hj => by rw [h.other x i j fun e => hi (e ▸ hj)]
    rw [foldl_cons, ih hl (h.keeps x i hx), hrest, hflag, Bool.or_eq_true, exists_mem_cons_iff,
      or_assoc]

end Sweep

end Lib
