import Mathlib.Algebra.BigOperators.Group.Multiset.Basic
import Mathlib.Algebra.Order.Group.Nat
import Mathlib.Logic.Relation

/-!
# Merging the two lightest trees

Huffman's algorithm, for the weights and the heights of the trees only.

* `Merge` — the two lightest trees of a collection become one.
* `Merges.invariant` — what each merge keeps, a run of merges keeps.
* `Merges.sum` — the total weight.
* `Forced`, `Merges.forced` — weights of leaves that grow so fast that each merge takes the tree
  that was made last: one leaf after the other goes under it.
-/

namespace Lib

open List

/-- A tree, by its weight and its height. -/
abbrev Tree := ℕ × ℕ

/-- `p` and `q` are the two lightest trees of `p ::ₘ q ::ₘ rest`, and become one. -/
inductive Merge : Multiset Tree → Multiset Tree → Prop where
  | mk {p q : Tree} {rest : Multiset Tree} (hpq : p.1 ≤ q.1) (hq : ∀ x ∈ rest, q.1 ≤ x.1) :
      Merge (p ::ₘ q ::ₘ rest) ((p.1 + q.1, max p.2 q.2 + 1) ::ₘ rest)

/-- Any number of merges. -/
def Merges : Multiset Tree → Multiset Tree → Prop := Relation.ReflTransGen Merge

variable {M N : Multiset Tree} {root : Tree}

/-- **The invariant rule** for merges. -/
theorem Merges.invariant {P : Multiset Tree → Prop} (hstep : ∀ M N, P M → Merge M N → P N)
    (h : Merges M N) (hM : P M) : P N := by
  induction h with
  | refl => exact hM
  | tail _ hmn ih => exact hstep _ _ ih hmn

/-- A merge leaves the total weight alone. -/
theorem Merge.sum (h : Merge M N) : (N.map Prod.fst).sum = (M.map Prod.fst).sum := by
  cases h
  simp only [Multiset.map_cons, Multiset.sum_cons, add_assoc]

theorem Merges.sum (h : Merges M N) : (N.map Prod.fst).sum = (M.map Prod.fst).sum :=
  h.invariant (P := fun N => (N.map Prod.fst).sum = (M.map Prod.fst).sum)
    (fun _ _ hM hstep => hstep.sum.trans hM) rfl

/-- The root that is left has the total weight. -/
theorem Merges.root_weight (h : Merges M {root}) : root.1 = (M.map Prod.fst).sum := by
  rw [← h.sum, Multiset.map_singleton, Multiset.sum_singleton]

/-! ## A chain -/

/-- The leaves `ws`, beside a tree of weight `s`: the next leaf is no heavier than the others, and
the tree is lighter than those behind it. -/
def Forced : ℕ → List ℕ → Prop
  | _, [] => True
  | s, w :: ws => (∀ x ∈ ws, w ≤ x ∧ s < x) ∧ Forced (s + w) ws

instance decidableForced : ∀ s ws, Decidable (Forced s ws)
  | _, [] => inferInstanceAs (Decidable True)
  | s, w :: ws =>
    have := decidableForced (s + w) ws
    inferInstanceAs (Decidable ((∀ x ∈ ws, w ≤ x ∧ s < x) ∧ Forced (s + w) ws))

/-- The last leaf may be heavier. -/
theorem Forced.heavier {c d : ℕ} (hcd : c ≤ d) : ∀ {s ws}, Forced s (ws ++ [c]) →
    Forced s (ws ++ [d])
  | _, [], _ => ⟨fun _ h => absurd h not_mem_nil, trivial⟩
  | s, w :: ws, ⟨h, hrest⟩ => by
    refine ⟨fun x hx => ?_, hrest.heavier hcd⟩
    rcases mem_append.mp hx with hx | hx
    · exact h x (mem_append_left _ hx)
    · obtain ⟨h1, h2⟩ := h c (mem_append_right _ mem_cons_self)
      rw [mem_singleton.mp hx]
      exact ⟨h1.trans hcd, h2.trans_le hcd⟩

/-- The leaves, as trees. -/
def leaves (ws : List ℕ) : Multiset Tree := (ws : Multiset ℕ).map fun w => (w, 0)

theorem leaves_cons (w : ℕ) (ws : List ℕ) : leaves (w :: ws) = (w, 0) ::ₘ leaves ws := by
  rw [leaves, ← Multiset.cons_coe, Multiset.map_cons]
  rfl

/-- A merge takes the tree and the next leaf. -/
theorem Merge.forced {s h w : ℕ} {ws : List ℕ} (hf : Forced s (w :: ws))
    (hm : Merge ((s, h) ::ₘ leaves (w :: ws)) N) : N = (s + w, h + 1) ::ₘ leaves ws := by
  have hleaf : ∀ x ∈ leaves ws, w ≤ x.1 ∧ s < x.1 ∧ x.2 = 0 := by
    intro x hx
    obtain ⟨y, hy, rfl⟩ := Multiset.mem_map.mp hx
    exact ⟨(hf.1 y hy).1, (hf.1 y hy).2, rfl⟩
  rw [leaves_cons] at hm
  generalize hM : (s, h) ::ₘ (w, 0) ::ₘ leaves ws = M at hm
  cases hm with
  | @mk p q rest hpq hq =>
    have hle {x : Tree} (hx : x ∈ q ::ₘ rest) : q.1 ≤ x.1 := by
      rcases Multiset.mem_cons.mp hx with rfl | hx
      · exact le_rfl
      · exact hq x hx
    have hp : p ∈ (s, h) ::ₘ (w, 0) ::ₘ leaves ws := hM ▸ Multiset.mem_cons_self ..
    rcases Multiset.mem_cons.mp hp with rfl | hp
    · -- the tree first: then a lightest leaf, and leaves of one weight are the same
      have hrest := (Multiset.cons_inj_right _).mp hM
      have hqw : q = (w, 0) := by
        have h1 : q.1 ≤ w := hle (x := (w, 0)) (hrest ▸ Multiset.mem_cons_self ..)
        have h2 : q ∈ (w, 0) ::ₘ leaves ws := hrest ▸ Multiset.mem_cons_self ..
        rcases Multiset.mem_cons.mp h2 with h2 | h2
        · exact h2
        · obtain ⟨h3, -, h4⟩ := hleaf q h2
          exact Prod.ext (le_antisymm h1 h3) h4
      subst hqw
      rw [(Multiset.cons_inj_right _).mp hrest]
      simp only [Nat.max_zero]
    rcases Multiset.mem_cons.mp hp with rfl | hp
    · -- the leaf first: then the tree, which is lighter than the leaves behind
      rw [Multiset.cons_swap] at hM
      have hrest := (Multiset.cons_inj_right _).mp hM
      have hqs : q = (s, h) := by
        have h1 : q.1 ≤ s := hle (x := (s, h)) (hrest ▸ Multiset.mem_cons_self ..)
        have h2 : q ∈ (s, h) ::ₘ leaves ws := hrest ▸ Multiset.mem_cons_self ..
        rcases Multiset.mem_cons.mp h2 with h2 | h2
        · exact h2
        · exact absurd h1 (hleaf q h2).2.1.not_ge
      subst hqs
      rw [(Multiset.cons_inj_right _).mp hrest]
      simp only [Nat.zero_max, add_comm]
    · -- a leaf behind is heavier than the tree
      have h1 : (s, h) ∈ p ::ₘ q ::ₘ rest := hM ▸ Multiset.mem_cons_self ..
      have h2 : p.1 ≤ s := by
        rcases Multiset.mem_cons.mp h1 with h1 | h1
        · rw [← h1]
        · exact hpq.trans (hle h1)
      exact absurd h2 (hleaf p hp).2.1.not_ge

/-- **A chain.**  One leaf after the other goes under the tree, which grows by one level each
time. -/
theorem Merges.forced {s h : ℕ} {ws : List ℕ} (hf : Forced s ws)
    (hm : Merges ((s, h) ::ₘ leaves ws) {root}) : root.2 = h + ws.length := by
  induction ws generalizing s h with
  | nil =>
    generalize hN : ({root} : Multiset Tree) = N at hm
    have hsing : (s, h) ::ₘ leaves [] = {(s, h)} := rfl
    rw [hsing] at hm
    rcases Relation.ReflTransGen.cases_head hm with heq | ⟨N', hstep, -⟩
    · rw [← hN, Multiset.singleton_inj] at heq
      rw [← heq]
      rfl
    · generalize hM : ({(s, h)} : Multiset Tree) = M at hstep
      cases hstep
      have hcard := congrArg Multiset.card hM
      simp only [Multiset.card_singleton, Multiset.card_cons] at hcard
      omega
  | cons w ws ih =>
    rcases Relation.ReflTransGen.cases_head hm with heq | ⟨N', hstep, hrun⟩
    · have hcard := congrArg Multiset.card heq
      rw [leaves_cons] at hcard
      simp only [Multiset.card_singleton, Multiset.card_cons] at hcard
      omega
    · rw [hstep.forced hf] at hrun
      have hroot := ih hf.2 hrun
      rw [hroot, length_cons]
      omega

end Lib
