import Mathlib.Data.List.Perm.Subperm
import Mathlib.Logic.Relation

/-!
# Following a chain of successors

Each element has at most one successor.  A loop that goes from one to the next looks for
a goal and gives up at an element without a successor; on a chain that runs in a circle it
does not end.

* `follow` — the loop, with a bound on its turns; `follow_true`, `follow_false` say what an
  answer means, and `follow_ends` that it answers when no element leads back to itself and
  those with a successor are in a list no longer than the bound.
* `reach_iff` — when the chain stays within some of its links.
* `acyclic_of_new` — a new link that does not close a circle leaves none.
-/

namespace Lib

open List

variable {α : Type*}

/-! ## Circles -/

/-- Nothing leads back to itself. -/
def Acyclic (R : α → α → Prop) : Prop := ∀ a, ¬ Relation.TransGen R a a

theorem Acyclic.mono {R S : α → α → Prop} (h : Acyclic R) (hs : ∀ a b, S a b → R a b) :
    Acyclic S :=
  fun a hc => h a (Relation.TransGen.mono hs a a hc)

/-- A way along `S`, whose only link besides those of `R` is the one from `p` to `q`. -/
theorem transGen_of_new {R S : α → α → Prop} {p q a b : α}
    (hS : ∀ a b, S a b → R a b ∨ (a = p ∧ b = q)) (hpq : ¬ Relation.ReflTransGen R q p)
    (h : Relation.TransGen S a b) :
    Relation.TransGen R a b ∨ (Relation.ReflTransGen R a p ∧ Relation.ReflTransGen R q b) := by
  induction h with
  | single hab =>
    rcases hS _ _ hab with hr | ⟨rfl, rfl⟩
    · exact .inl (.single hr)
    · exact .inr ⟨.refl, .refl⟩
  | tail _ hbc ih =>
    rcases hS _ _ hbc with hr | ⟨rfl, rfl⟩
    · rcases ih with ih | ⟨h1, h2⟩
      · exact .inl (ih.tail hr)
      · exact .inr ⟨h1, h2.tail hr⟩
    · rcases ih with ih | ⟨-, h2⟩
      · exact .inr ⟨ih.to_reflTransGen, .refl⟩
      · exact absurd h2 hpq

/-- **No circle is closed** by a link from `p` to `q` when `q` does not lead to `p`. -/
theorem acyclic_of_new {R S : α → α → Prop} {p q : α} (hR : Acyclic R)
    (hS : ∀ a b, S a b → R a b ∨ (a = p ∧ b = q)) (hpq : ¬ Relation.ReflTransGen R q p) :
    Acyclic S := by
  intro a h
  rcases transGen_of_new hS hpq h with h | ⟨h1, h2⟩
  · exact hR a h
  · exact hpq (h2.trans h1)

/-! ## The loop -/

/-- Go from `a` to its successor and on, until the goal or an element without one;
`none` when the turns do not suffice. -/
def follow [DecidableEq α] (next : α → Option α) (goal : α) : ℕ → α → Option Bool
  | 0, _ => none
  | n + 1, a =>
    if a = goal then some true
    else
      match next a with
      | none => some false
      | some b => follow next goal n b

/-- The links of the chain. -/
def Link (next : α → Option α) (a b : α) : Prop := next a = some b

variable {next : α → Option α} {goal a b : α} {n : ℕ}

/-- Where a way goes from an element with a successor. -/
theorem link_head (h : Relation.ReflTransGen (Link next) a b) (hab : a ≠ b) :
    ∃ c, next a = some c ∧ Relation.ReflTransGen (Link next) c b := by
  rcases Relation.ReflTransGen.cases_head h with rfl | ⟨c, hac, hcb⟩
  · exact absurd rfl hab
  · exact ⟨c, hac, hcb⟩

/-- A chain that leads to a goal does so by links that start at elements with `P`, if and
only if all elements before the goal have `P`. -/
theorem reach_iff {S : α → α → Prop} {P : α → Prop} (hS : ∀ a b, S a b ↔ Link next a b ∧ P a)
    (hgoal : next goal = none) (h : Relation.ReflTransGen (Link next) a goal) :
    Relation.ReflTransGen S a goal ↔
      ∀ b, Relation.ReflTransGen (Link next) a b → b ≠ goal → P b := by
  constructor
  · intro hs
    induction hs using Relation.ReflTransGen.head_induction_on with
    | refl =>
      intro b hb hne
      obtain ⟨c, hc, -⟩ := link_head hb (Ne.symm hne)
      rw [hgoal] at hc
      cases hc
    | head hac hcg ih =>
      obtain ⟨hl, hP⟩ := (hS _ _).mp hac
      intro b hb hne
      rcases Relation.ReflTransGen.cases_head hb with rfl | ⟨c', hac', hcb⟩
      · exact hP
      · obtain rfl : c' = _ := Option.some.inj (hac'.symm.trans hl)
        exact ih (Relation.ReflTransGen.mono (fun a b hab => ((hS a b).mp hab).1) _ _ hcg) b hcb hne
  · intro hP
    induction h using Relation.ReflTransGen.head_induction_on with
    | refl => exact .refl
    | head hac hcg ih =>
      rename_i x y
      by_cases hx : x = goal
      · rw [hx]
      · exact .head ((hS _ _).mpr ⟨hac, hP x .refl hx⟩) (ih fun b hb => hP b (.head hac hb))

variable [DecidableEq α]

/-- A goal that is found is on the chain. -/
theorem follow_true (h : follow next goal n a = some true) :
    Relation.ReflTransGen (Link next) a goal := by
  induction n generalizing a with
  | zero => exact absurd h (by simp [follow])
  | succ n ih =>
    unfold follow at h
    by_cases ha : a = goal
    · rw [ha]
    · rw [if_neg ha] at h
      cases hn : next a with
      | none => simp [hn] at h
      | some b =>
        rw [hn] at h
        exact .head hn (ih h)

/-- A goal that is not found is not on it. -/
theorem follow_false (h : follow next goal n a = some false) :
    ¬ Relation.ReflTransGen (Link next) a goal := by
  induction n generalizing a with
  | zero => exact absurd h (by simp [follow])
  | succ n ih =>
    unfold follow at h
    by_cases ha : a = goal
    · simp [ha] at h
    · rw [if_neg ha] at h
      intro hc
      obtain ⟨c, hac, hcb⟩ := link_head hc ha
      rw [hac] at h
      exact ih h hcb

/-- The elements passed are all different and have a successor. -/
theorem follow_passed (hA : Acyclic (Link next)) {dom visited : List α}
    (hdom : ∀ a b, next a = some b → a ∈ dom) (hnd : visited.Nodup) (hsub : visited ⊆ dom)
    (hto : ∀ v ∈ visited, Relation.TransGen (Link next) v a)
    (hn : dom.length < visited.length + n) : follow next goal n a ≠ none := by
  induction n generalizing a visited with
  | zero =>
    have := (hnd.subperm hsub).length_le
    omega
  | succ n ih =>
    unfold follow
    by_cases ha : a = goal
    · simp [ha]
    · rw [if_neg ha]
      cases hb : next a with
      | none => simp
      | some b =>
        -- the next turn has passed `a` as well
        refine ih (nodup_cons.mpr ⟨fun hm => hA a (hto a hm), hnd⟩)
          (cons_subset.mpr ⟨hdom a b hb, hsub⟩) ?_ (by simp only [length_cons]; omega)
        intro v hv
        rcases mem_cons.mp hv with rfl | hv
        · exact .single hb
        · exact (hto v hv).tail hb

/-- **The loop ends** when there is no circle. -/
theorem follow_ends (hA : Acyclic (Link next)) {dom : List α}
    (hdom : ∀ a b, next a = some b → a ∈ dom) : follow next goal (dom.length + 1) a ≠ none :=
  follow_passed hA hdom nodup_nil (nil_subset _) (fun _ hv => absurd hv not_mem_nil)
    (by simp only [length_nil]; omega)

end Lib
