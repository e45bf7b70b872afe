import Mathlib.Data.List.Range
import Mathlib.Data.Nat.ModEq

/-!
# Ring buffers

A ring of `P` cells holds a sequence that starts at some position and goes on past the
last cell at the first.  `cells_put` adds at the end, `row_append_cells` takes from the
front what lies in a row, and `ring_ne` says which positions differ.
-/

namespace Lib

open List

variable {α : Type*} {P r k n : ℕ} {f g : ℕ → α}

/-- The `k` cells of a ring of `P` from position `r` on. -/
def cells (P : ℕ) (f : ℕ → α) (r k : ℕ) : List α := (List.range k).map fun i => f ((r + i) % P)

/-- The `k` cells in a row from position `r` on. -/
def row (f : ℕ → α) (r k : ℕ) : List α := (List.range k).map fun i => f (r + i)

@[simp] theorem length_cells : (cells P f r k).length = k := by simp [cells]

@[simp] theorem length_row : (row f r k).length = k := by simp [row]

theorem cells_mod : cells P f (r % P) k = cells P f r k := by
  unfold cells
  refine map_congr_left fun i _ => ?_
  rw [Nat.mod_add_mod]

theorem cells_add (a b : ℕ) : cells P f r (a + b) = cells P f r a ++ cells P f (r + a) b := by
  unfold cells
  rw [range_add, map_append, map_map]
  congr 1
  refine map_congr_left fun i _ => ?_
  simp only [Function.comp_apply, Nat.add_assoc]

theorem cells_congr (h : ∀ i < k, g ((r + i) % P) = f ((r + i) % P)) :
    cells P g r k = cells P f r k := by
  unfold cells
  exact map_congr_left fun i hi => h i (mem_range.mp hi)

/-- Up to the last cell a ring is a row. -/
theorem cells_eq_row (h : r + k ≤ P) : cells P f r k = row f r k := by
  unfold cells row
  refine map_congr_left fun i hi => ?_
  rw [Nat.mod_eq_of_lt]
  have := mem_range.mp hi
  omega

/-- What is taken from the front, in a row, and what is left. -/
theorem row_append_cells (h : r + n ≤ P) :
    row f r n ++ cells P f ((r + n) % P) k = cells P f r (n + k) := by
  rw [cells_add, cells_eq_row h, cells_mod]

/-- What is put at the end. -/
theorem cells_put {xs : List α} (hkeep : ∀ i < k, g ((r + i) % P) = f ((r + i) % P))
    (hput : ∀ i (h : i < xs.length), g ((r + k + i) % P) = xs[i]) :
    cells P g r (k + xs.length) = cells P f r k ++ xs := by
  rw [cells_add, cells_congr hkeep]
  congr 1
  refine ext_getElem (by simp) fun i h1 h2 => ?_
  have hget : (cells P g (r + k) xs.length)[i] = g ((r + k + i) % P) := by simp [cells]
  rw [hget]
  exact hput i h2

/-- Positions less than a round apart differ. -/
theorem ring_ne {i j : ℕ} (hij : i < j) (hj : j < i + P) : (r + i) % P ≠ (r + j) % P := by
  intro h
  have hdvd := (Nat.modEq_iff_dvd' (by omega)).mp h
  have := Nat.le_of_dvd (by omega) hdvd
  omega

end Lib
