import Mathlib.Data.List.Basic

/-!
# Merging queues

A merge keeps a list of queues that is ordered by their heads, puts out the first head, and puts the
rest of its queue back where the next head belongs.  Which place that is among equal heads is left
open.

* `KMerge le qs out` — the queues `qs` can be merged to `out`.
* `KMerge.perm` — nothing is lost or invented, in whatever order the queues are.
* `KMerge.sorted` — sorted queues are merged to a sorted list.
-/

namespace Lib

open List

variable {α : Type*} {le : α → α → Prop} {qs l r : List (List α)} {out : List α} {x : α}

/-- Every head of `l` is before `x`, and `x` is before every head of `r`. -/
def HeadsAround (le : α → α → Prop) (l : List (List α)) (x : α) (r : List (List α)) : Prop :=
  (∀ q ∈ l, ∀ z ∈ q.head?, le z x) ∧ ∀ q ∈ r, ∀ z ∈ q.head?, le x z

inductive KMerge (le : α → α → Prop) : List (List α) → List α → Prop
  | nil : KMerge le [] []
  | last {x : α} {qs : List (List α)} {out : List α} (h : KMerge le qs out) :
    KMerge le ([x] :: qs) (x :: out)
  | next {x y : α} {ys : List α} {l r : List (List α)} {out : List α} (hy : HeadsAround le l y r)
    (h : KMerge le (l ++ (y :: ys) :: r) out) : KMerge le ((x :: y :: ys) :: (l ++ r)) (x :: out)

/-- The queues are ordered by their heads. -/
def HeadsSorted (le : α → α → Prop) (qs : List (List α)) : Prop :=
  qs.Pairwise fun p q => ∀ a ∈ p.head?, ∀ b ∈ q.head?, le a b

theorem HeadsSorted.insert (h : HeadsSorted le (l ++ r)) {y : α} {ys : List α}
    (hy : HeadsAround le l y r) : HeadsSorted le (l ++ (y :: ys) :: r) := by
  obtain ⟨h1, h2, h3⟩ := pairwise_append.mp h
  refine pairwise_append.mpr ⟨h1, pairwise_cons.mpr ⟨fun q hq a ha => ?_, h2⟩,
    fun p hp q hq => ?_⟩
  · cases ha
    exact hy.2 q hq
  · rcases mem_cons.mp hq with rfl | hq
    · intro a ha b hb
      cases hb
      exact hy.1 p hp a ha
    · exact h3 p hp q hq

theorem KMerge.perm (h : KMerge le qs out) : out.Perm qs.flatten := by
  induction h with
  | nil => exact .nil
  | last _ ih => exact ih.cons _
  | next _ _ ih =>
    refine (ih.trans ?_).cons _
    rw [flatten_append, flatten_cons, flatten_append]
    exact perm_append_comm_assoc ..

/-- **A merge of sorted queues is sorted.** -/
theorem KMerge.sorted (trans : ∀ a b c, le a b → le b c → le a c) (h : KMerge le qs out)
    (hh : HeadsSorted le qs) (hs : ∀ q ∈ qs, q.Pairwise le) :
    out.Pairwise le ∧ ∀ b, (∀ q ∈ qs, ∀ z ∈ q.head?, le b z) → ∀ z ∈ out, le b z := by
  induction h with
  | nil => exact ⟨.nil, fun _ _ _ h => (nomatch h)⟩
  | @last x qs out _ ih =>
    obtain ⟨h1, h2⟩ := pairwise_cons.mp hh
    obtain ⟨ih1, ih2⟩ := ih h2 fun q hq => hs q (mem_cons_of_mem _ hq)
    refine ⟨pairwise_cons.mpr ⟨ih2 x fun q hq => h1 q hq x rfl, ih1⟩, fun b hb z hz => ?_⟩
    rcases mem_cons.mp hz with rfl | hz
    · exact hb [z] mem_cons_self z rfl
    · exact ih2 b (fun q hq => hb q (mem_cons_of_mem _ hq)) z hz
  | @next x y ys l r out hy _ ih =>
    obtain ⟨h1, h2⟩ := pairwise_cons.mp hh
    have hxs := pairwise_cons.mp (hs _ mem_cons_self)
    have hxy : le x y := hxs.1 y mem_cons_self
    obtain ⟨ih1, ih2⟩ := ih (HeadsSorted.insert h2 hy) (by
      intro q hq
      rcases mem_append.mp hq with hq | hq
      · exact hs q (mem_cons_of_mem _ (mem_append_left _ hq))
      · rcases mem_cons.mp hq with rfl | hq
        · exact hxs.2
        · exact hs q (mem_cons_of_mem _ (mem_append_right _ hq)))
    have hall : ∀ b, (∀ q ∈ (x :: y :: ys) :: (l ++ r), ∀ z ∈ q.head?, le b z) →
        ∀ q ∈ l ++ (y :: ys) :: r, ∀ z ∈ q.head?, le b z := by
      intro b hb q hq z hz
      rcases mem_append.mp hq with hq | hq
      · exact hb q (mem_cons_of_mem _ (mem_append_left _ hq)) z hz
      · rcases mem_cons.mp hq with rfl | hq
        · cases hz
          exact trans b x y (hb _ mem_cons_self x rfl) hxy
        · exact hb q (mem_cons_of_mem _ (mem_append_right _ hq)) z hz
    refine ⟨pairwise_cons.mpr ⟨ih2 x fun q hq z hz => ?_, ih1⟩, fun b hb z hz => ?_⟩
    · rcases mem_append.mp hq with hq | hq
      · exact h1 q (mem_append_left _ hq) x rfl z hz
      · rcases mem_cons.mp hq with rfl | hq
        · cases hz
          exact hxy
        · exact h1 q (mem_append_right _ hq) x rfl z hz
    · rcases mem_cons.mp hz with rfl | hz
      · exact hb _ mem_cons_self z rfl
      · exact ih2 b (hall b hb) z hz

end Lib
