import Mathlib

/-!
# Sorted lists of free extents

The general theory behind a first-fit allocator that keeps its free space as a
list of extents `[base, base + len)`, sorted by address, with no two extents
overlapping or touching (`Coalesced`).

* `allocFirst` cuts the wanted number of units off the first extent that is long
  enough; `release` puts an extent back and merges it with its neighbours.
* Both keep the list coalesced (`Coalesced.allocFirst`, `Coalesced.release`) and
  change the covered units by exactly the extent taken or given back
  (`covers_allocFirst_iff`, `covers_release_iff`).
* `Coalesced.exists_mem_of_filled` — a run of covered units lies inside one
  extent, so first fit finds a run whenever there is one (`allocFirst_eq_none_iff`)
  and the one it finds is the lowest (`allocFirst_lowest`).
* `length_le_of_partition` — the counting argument: free extents are separated by
  units in use, so there is at most one more free extent than ranges in use.
-/

namespace Lib

open List

/-- A range of `len` units starting at `base`. -/
structure Extent where
  base : ℕ
  len : ℕ
  deriving DecidableEq, Inhabited, Repr

namespace Extent

/-- The first unit after the extent. -/
def stop (e : Extent) : ℕ := e.base + e.len

/-- The unit `u` belongs to the extent. -/
def Has (e : Extent) (u : ℕ) : Prop := e.base ≤ u ∧ u < e.stop

/-- The extents have no unit in common. -/
def Apart (e f : Extent) : Prop := ∀ u, ¬ (e.Has u ∧ f.Has u)

theorem Apart.symm {e f : Extent} (h : e.Apart f) : f.Apart e := fun u hu => h u hu.symm

theorem has_base {e : Extent} (h : 0 < e.len) : e.Has e.base := ⟨le_rfl, by unfold stop; omega⟩

end Extent

/-- The unit `u` belongs to some extent of the list. -/
def Covers (l : List Extent) (u : ℕ) : Prop := ∃ e ∈ l, e.Has u

/-- All `n` units from `a` on are covered. -/
def Filled (l : List Extent) (a n : ℕ) : Prop := ∀ u, a ≤ u → u < a + n → Covers l u

/-- Extents of positive length, in increasing order, with a gap between any two. -/
def Coalesced (l : List Extent) : Prop :=
  (∀ e ∈ l, 0 < e.len) ∧ l.Pairwise fun e f => e.stop < f.base

@[simp] theorem covers_nil (u : ℕ) : ¬ Covers [] u := by simp [Covers]

@[simp] theorem covers_cons {e : Extent} {l : List Extent} {u : ℕ} :
    Covers (e :: l) u ↔ e.Has u ∨ Covers l u := by simp [Covers]

@[simp] theorem coalesced_nil : Coalesced [] := by simp [Coalesced]

theorem coalesced_cons {e : Extent} {l : List Extent} :
    Coalesced (e :: l) ↔ 0 < e.len ∧ (∀ f ∈ l, e.stop < f.base) ∧ Coalesced l := by
  simp only [Coalesced, forall_mem_cons, pairwise_cons]
  tauto

theorem Coalesced.tail {e : Extent} {l : List Extent} (h : Coalesced (e :: l)) : Coalesced l :=
  (coalesced_cons.mp h).2.2

/-- Everything after the first extent lies beyond it. -/
theorem Coalesced.stop_lt_of_covers {e : Extent} {l : List Extent} (h : Coalesced (e :: l)) {u : ℕ}
    (hu : Covers l u) : e.stop < u := by
  obtain ⟨f, hf, h1, -⟩ := hu
  exact lt_of_lt_of_le ((coalesced_cons.mp h).2.1 f hf) h1

/-- A coalesced list can be cut at an address: the extents starting at or before it
come first. -/
theorem Coalesced.exists_cut {l : List Extent} (h : Coalesced l) (a : ℕ) :
    ∃ l₁ l₂, l = l₁ ++ l₂ ∧ (∀ e ∈ l₁, e.base ≤ a) ∧ ∀ e ∈ l₂, a < e.base := by
  induction l with
  | nil => exact ⟨[], [], rfl, by simp, by simp⟩
  | cons e l ih =>
    by_cases he : e.base ≤ a
    · obtain ⟨l₁, l₂, rfl, h1, h2⟩ := ih h.tail
      refine ⟨e :: l₁, l₂, rfl, fun f hf => ?_, h2⟩
      rcases mem_cons.mp hf with rfl | hf
      · exact he
      · exact h1 f hf
    · refine ⟨[], e :: l, rfl, by simp, fun f hf => ?_⟩
      rcases mem_cons.mp hf with rfl | hf
      · omega
      · have := (coalesced_cons.mp h).2.1 f hf
        unfold Extent.stop at this
        omega

/-! ## A run of covered units lies in one extent -/

theorem Filled.tail {l : List Extent} {e : Extent} {a n : ℕ}
    (hf : Filled (e :: l) a n) (ha : e.stop ≤ a) : Filled l a n := by
  intro u h1 h2
  rcases covers_cons.mp (hf u h1 h2) with he | hu
  · exact absurd he.2 (by omega)
  · exact hu

/-- **A run of covered units lies inside one extent**: between two extents there
is always a unit that is not covered. -/
theorem Coalesced.exists_mem_of_filled {l : List Extent} (h : Coalesced l) {a n : ℕ} (hn : 0 < n)
    (hf : Filled l a n) : ∃ e ∈ l, e.base ≤ a ∧ a + n ≤ e.stop := by
  induction l with
  | nil => exact absurd (hf a le_rfl (by omega)) (covers_nil a)
  | cons e l ih =>
    by_cases ha : e.stop ≤ a
    · obtain ⟨f, hfl, hf'⟩ := ih h.tail (hf.tail ha)
      exact ⟨f, mem_cons_of_mem _ hfl, hf'⟩
    · refine ⟨e, mem_cons_self, ?_, ?_⟩
      · rcases covers_cons.mp (hf a le_rfl (by omega)) with he | hu
        · exact he.1
        · exact absurd (h.stop_lt_of_covers hu) (by omega)
      · -- otherwise the unit right after `e` would have to be covered
        by_contra hlt
        rcases covers_cons.mp (hf e.stop (by omega) (by omega)) with he | hu
        · exact absurd he.2 (lt_irrefl _)
        · exact absurd (h.stop_lt_of_covers hu) (lt_irrefl _)

/-! ## First fit -/

/-- Cut `n` units off the first extent that has as many. -/
def allocFirst (n : ℕ) : List Extent → Option (ℕ × List Extent)
  | [] => none
  | e :: l =>
    if n ≤ e.len then
      some (e.base, if e.len = n then l else ⟨e.base + n, e.len - n⟩ :: l)
    else (allocFirst n l).map fun p => (p.1, e :: p.2)

theorem mem_of_allocFirst {n a : ℕ} {l l' : List Extent} (h : allocFirst n l = some (a, l')) :
    ∃ e ∈ l, e.base = a ∧ n ≤ e.len := by
  induction l generalizing l' with
  | nil => simp [allocFirst] at h
  | cons e l ih =>
    rw [allocFirst] at h
    split_ifs at h with h1 h2
    · cases h; exact ⟨e, mem_cons_self, rfl, h1⟩
    · cases h; exact ⟨e, mem_cons_self, rfl, h1⟩
    · obtain ⟨⟨a', m⟩, hm, he⟩ := Option.map_eq_some_iff.mp h
      cases he
      obtain ⟨f, hf, hfa⟩ := ih hm
      exact ⟨f, mem_cons_of_mem _ hf, hfa⟩

/-- Every extent of the new list lies inside an extent of the old one. -/
theorem allocFirst_within {n a : ℕ} {l l' : List Extent} (h : allocFirst n l = some (a, l')) :
    ∀ f ∈ l', ∃ e ∈ l, e.base ≤ f.base ∧ f.stop ≤ e.stop := by
  induction l generalizing l' with
  | nil => simp [allocFirst] at h
  | cons e l ih =>
    rw [allocFirst] at h
    split_ifs at h with h1 h2
    · cases h; exact fun f hf => ⟨f, mem_cons_of_mem _ hf, le_rfl, le_rfl⟩
    · cases h
      intro f hf
      rcases mem_cons.mp hf with rfl | hf
      · exact ⟨e, mem_cons_self, Nat.le_add_right _ _, by simp only [Extent.stop]; omega⟩
      · exact ⟨f, mem_cons_of_mem _ hf, le_rfl, le_rfl⟩
    · obtain ⟨⟨a', m⟩, hm, he⟩ := Option.map_eq_some_iff.mp h
      cases he
      intro f hf
      rcases mem_cons.mp hf with rfl | hf
      · exact ⟨f, mem_cons_self, le_rfl, le_rfl⟩
      · obtain ⟨g, hg, hgf⟩ := ih hm f hf
        exact ⟨g, mem_cons_of_mem _ hg, hgf⟩

theorem Coalesced.allocFirst {n a : ℕ} {l l' : List Extent} (hl : Coalesced l)
    (h : allocFirst n l = some (a, l')) : Coalesced l' := by
  induction l generalizing l' with
  | nil => simp [Lib.allocFirst] at h
  | cons e l ih =>
    obtain ⟨he, hgap, hrest⟩ := coalesced_cons.mp hl
    rw [Lib.allocFirst] at h
    split_ifs at h with h1 h2
    · cases h; exact hrest
    · cases h
      refine coalesced_cons.mpr ⟨by simp only; omega, fun f hf => ?_, hrest⟩
      have := hgap f hf
      simp only [Extent.stop] at this ⊢
      omega
    · obtain ⟨⟨a', m⟩, hm, hp⟩ := Option.map_eq_some_iff.mp h
      cases hp
      refine coalesced_cons.mpr ⟨he, fun f hf => ?_, ih hrest hm⟩
      obtain ⟨g, hg, hgf, -⟩ := allocFirst_within hm f hf
      exact lt_of_lt_of_le (hgap g hg) hgf

/-- The units taken were covered, and exactly they stop being covered. -/
theorem covers_allocFirst_iff {n a : ℕ} {l l' : List Extent} (hl : Coalesced l)
    (h : allocFirst n l = some (a, l')) (u : ℕ) :
    Covers l u ↔ Covers l' u ∨ (Extent.mk a n).Has u := by
  induction l generalizing l' with
  | nil => simp [allocFirst] at h
  | cons e l ih =>
    rw [allocFirst] at h
    split_ifs at h with h1 h2
    · cases h
      rw [covers_cons, or_comm]
      simp only [Extent.Has, Extent.stop, h2]
    · cases h
      rw [covers_cons, covers_cons, or_right_comm]
      refine or_congr_left ?_
      simp only [Extent.Has, Extent.stop]
      omega
    · obtain ⟨⟨a', m⟩, hm, hp⟩ := Option.map_eq_some_iff.mp h
      cases hp
      rw [covers_cons, covers_cons, ih hl.tail hm, or_assoc]

theorem not_covers_of_allocFirst {n a : ℕ} {l l' : List Extent} (hl : Coalesced l)
    (h : allocFirst n l = some (a, l')) {u : ℕ} (hu : (Extent.mk a n).Has u) : ¬ Covers l' u := by
  induction l generalizing l' with
  | nil => simp [allocFirst] at h
  | cons e l ih =>
    rw [allocFirst] at h
    simp only [Extent.Has, Extent.stop] at hu
    split_ifs at h with h1 h2
    · cases h
      intro hc
      have := hl.stop_lt_of_covers hc
      simp only [Extent.stop] at this
      omega
    · cases h
      rw [covers_cons]
      rintro (hc | hc)
      · simp only [Extent.Has, Extent.stop] at hc; omega
      · have := hl.stop_lt_of_covers hc
        simp only [Extent.stop] at this
        omega
    · obtain ⟨⟨a', m⟩, hm, hp⟩ := Option.map_eq_some_iff.mp h
      cases hp
      rw [covers_cons]
      rintro (hc | hc)
      · obtain ⟨f, hf, hfa, -⟩ := mem_of_allocFirst hm
        have := (coalesced_cons.mp hl).2.1 f hf
        simp only [Extent.Has, Extent.stop] at hc this
        omega
      · exact ih hl.tail hm hc

/-- **First fit fails only when nothing fits.** -/
theorem allocFirst_eq_none_iff {n : ℕ} (hn : 0 < n) {l : List Extent} (hl : Coalesced l) :
    allocFirst n l = none ↔ ∀ a, ¬ Filled l a n := by
  have hnone : allocFirst n l = none ↔ ∀ e ∈ l, e.len < n := by
    clear hl
    induction l with
    | nil => simp [allocFirst]
    | cons e l ih =>
      rw [allocFirst]
      split_ifs with h1
      · simp only [forall_mem_cons, false_iff, not_and]
        omega
      · simp only [Option.map_eq_none_iff, ih, forall_mem_cons]
        exact ⟨fun h => ⟨by omega, h⟩, fun h => h.2⟩
  rw [hnone]
  constructor
  · intro h a hf
    obtain ⟨e, he, h1, h2⟩ := hl.exists_mem_of_filled hn hf
    have := h e he
    unfold Extent.stop at h2
    omega
  · intro h e he
    by_contra hlt
    refine h e.base fun u h1 h2 => ⟨e, he, h1, ?_⟩
    unfold Extent.stop
    omega

/-- **First fit finds the lowest run that fits.** -/
theorem allocFirst_lowest {n a : ℕ} (hn : 0 < n) {l l' : List Extent} (hl : Coalesced l)
    (h : allocFirst n l = some (a, l')) : Filled l a n ∧ ∀ b < a, ¬ Filled l b n := by
  refine ⟨fun u h1 h2 => ?_, ?_⟩
  · exact (covers_allocFirst_iff hl h u).mpr (Or.inr ⟨h1, h2⟩)
  · induction l generalizing l' with
    | nil => simp [allocFirst] at h
    | cons e l ih =>
      intro b hb hf
      rw [allocFirst] at h
      split_ifs at h with h1 h2
      · cases h
        rcases covers_cons.mp (hf b le_rfl (by omega)) with he | hc
        · exact absurd he.1 (by omega)
        · have := hl.stop_lt_of_covers hc
          simp only [Extent.stop] at this
          omega
      · cases h
        rcases covers_cons.mp (hf b le_rfl (by omega)) with he | hc
        · exact absurd he.1 (by omega)
        · have := hl.stop_lt_of_covers hc
          simp only [Extent.stop] at this
          omega
      · obtain ⟨⟨a', m⟩, hm, hp⟩ := Option.map_eq_some_iff.mp h
        cases hp
        -- a run starting before `a` is not in `e`, which is too short, so it lies beyond `e`
        obtain ⟨f, hfm, h3, h4⟩ := hl.exists_mem_of_filled hn hf
        rcases mem_cons.mp hfm with rfl | hfl
        · unfold Extent.stop at h4; omega
        · have hfb := (coalesced_cons.mp hl).2.1 f hfl
          exact ih hl.tail hm b hb (hf.tail (by omega))

/-! ## Giving an extent back -/

/-- Put an extent in front of a list, merging it with the first one if they touch. -/
def joinNext (e : Extent) : List Extent → List Extent
  | [] => [e]
  | f :: l => if e.stop = f.base then ⟨e.base, e.len + f.len⟩ :: l else e :: f :: l

theorem covers_joinNext_iff {e : Extent} {l : List Extent} (u : ℕ) :
    Covers (joinNext e l) u ↔ e.Has u ∨ Covers l u := by
  cases l with
  | nil => simp [joinNext]
  | cons f l =>
    rw [joinNext]
    split_ifs with h
    · rw [covers_cons, covers_cons, ← or_assoc]
      refine or_congr_left ?_
      simp only [Extent.Has, Extent.stop] at h ⊢
      omega
    · rw [covers_cons]

theorem base_of_mem_joinNext {e : Extent} {l : List Extent} :
    ∀ f ∈ joinNext e l, f.base = e.base ∨ f ∈ l := by
  intro f hf
  cases l with
  | nil => exact Or.inl (by rw [mem_singleton.mp hf])
  | cons g l =>
    rw [joinNext] at hf
    split_ifs at hf with h <;> rcases mem_cons.mp hf with rfl | hf
    · exact Or.inl rfl
    · exact Or.inr (mem_cons_of_mem _ hf)
    · exact Or.inl rfl
    · exact Or.inr hf

theorem coalesced_joinNext {e : Extent} {l : List Extent} (he : 0 < e.len) (hl : Coalesced l)
    (hle : ∀ f ∈ l, e.stop ≤ f.base) : Coalesced (joinNext e l) := by
  cases l with
  | nil => exact coalesced_cons.mpr ⟨he, by simp, coalesced_nil⟩
  | cons f l =>
    obtain ⟨hf, hgap, hrest⟩ := coalesced_cons.mp hl
    have hef := hle f mem_cons_self
    rw [joinNext]
    split_ifs with h
    · refine coalesced_cons.mpr ⟨by simp only; omega, fun g hg => ?_, hrest⟩
      have := hgap g hg
      simp only [Extent.stop] at this h ⊢
      omega
    · refine coalesced_cons.mpr ⟨he, fun g hg => ?_, hl⟩
      rcases mem_cons.mp hg with rfl | hg
      · omega
      · have := hgap g hg
        simp only [Extent.stop] at *
        omega

/-- Insert an extent at its place and merge it with the neighbours it touches. -/
def release (x : Extent) : List Extent → List Extent
  | [] => [x]
  | e :: l =>
    if e.stop < x.base then e :: release x l
    else if e.stop = x.base then joinNext ⟨e.base, e.len + x.len⟩ l
    else joinNext x (e :: l)

theorem release_append {x : Extent} {l m : List Extent} (h : ∀ e ∈ l, e.stop < x.base) :
    release x (l ++ m) = l ++ release x m := by
  induction l with
  | nil => rfl
  | cons e l ih =>
    rw [cons_append, release, if_pos (h e mem_cons_self),
      ih fun f hf => h f (mem_cons_of_mem _ hf), cons_append]

theorem covers_release_iff {x : Extent} {l : List Extent} (u : ℕ) :
    Covers (release x l) u ↔ Covers l u ∨ x.Has u := by
  induction l with
  | nil => simp [release]
  | cons e l ih =>
    rw [release]
    split_ifs with h1 h2
    · rw [covers_cons, covers_cons, ih, or_assoc]
    · rw [covers_joinNext_iff, covers_cons, or_right_comm]
      refine or_congr_left ?_
      simp only [Extent.Has, Extent.stop] at h2 ⊢
      omega
    · rw [covers_joinNext_iff, or_comm]

/-- Every extent of the new list starts where the one given back or an old one does. -/
theorem base_of_mem_release {x : Extent} {l : List Extent} :
    ∀ f ∈ release x l, f.base = x.base ∨ ∃ e ∈ l, e.base = f.base := by
  induction l with
  | nil => simp [release]
  | cons e l ih =>
    intro f hf
    rw [release] at hf
    split_ifs at hf with h1 h2
    · rcases mem_cons.mp hf with rfl | hf
      · exact Or.inr ⟨f, mem_cons_self, rfl⟩
      · rcases ih f hf with h | ⟨g, hg, hgf⟩
        · exact Or.inl h
        · exact Or.inr ⟨g, mem_cons_of_mem _ hg, hgf⟩
    · rcases base_of_mem_joinNext f hf with h | h
      · exact Or.inr ⟨e, mem_cons_self, h.symm⟩
      · exact Or.inr ⟨f, mem_cons_of_mem _ h, rfl⟩
    · rcases base_of_mem_joinNext f hf with h | h
      · exact Or.inl h
      · exact Or.inr ⟨f, h, rfl⟩

/-- An extent that shares no unit with the list lies on one side of each of its members. -/
theorem Coalesced.beside {x : Extent} {l : List Extent} (hl : Coalesced l)
    (hout : ∀ u, x.Has u → ¬ Covers l u) (hx : 0 < x.len) :
    ∀ f ∈ l, x.stop ≤ f.base ∨ f.stop ≤ x.base := by
  intro f hf
  by_contra hc
  have hfpos := hl.1 f hf
  refine hout (max x.base f.base) ?_ ⟨f, hf, ?_⟩ <;>
    simp only [Extent.Has, Extent.stop] at hc ⊢ <;> omega

theorem Coalesced.release {x : Extent} {l : List Extent} (hl : Coalesced l) (hx : 0 < x.len)
    (hout : ∀ u, x.Has u → ¬ Covers l u) : Coalesced (release x l) := by
  induction l with
  | nil => exact coalesced_cons.mpr ⟨hx, by simp, coalesced_nil⟩
  | cons e l ih =>
    obtain ⟨he, hgap, hrest⟩ := coalesced_cons.mp hl
    have hside := hl.beside hout hx
    rw [Lib.release]
    split_ifs with h1 h2
    · refine coalesced_cons.mpr ⟨he, fun f hf => ?_, ih hrest fun u hu hc =>
        hout u hu (covers_cons.mpr (Or.inr hc))⟩
      rcases base_of_mem_release f hf with h | ⟨g, hg, hgf⟩
      · omega
      · have := hgap g hg; omega
    · refine coalesced_joinNext (by simp only; omega) hrest fun f hf => ?_
      have hxf := hside f (mem_cons_of_mem _ hf)
      have := hgap f hf
      simp only [Extent.stop] at *
      omega
    · refine coalesced_joinNext hx hl fun f hf => ?_
      have hxe := hside e mem_cons_self
      rcases mem_cons.mp hf with rfl | hf
      · omega
      · have := hgap f hf
        simp only [Extent.stop] at *
        omega

/-! ## The counting argument -/

/-- The unit right after each extent but the last one. -/
def gaps : List Extent → List ℕ
  | [] => []
  | [_] => []
  | e :: f :: l => e.stop :: gaps (f :: l)

theorem length_gaps (l : List Extent) : (gaps l).length = l.length - 1 := by
  induction l with
  | nil => rfl
  | cons e l ih =>
    cases l with
    | nil => rfl
    | cons f l => simp only [gaps, length_cons, ih]; omega

/-- Between a gap unit and the next one lies the start of an extent. -/
theorem exists_base_of_mem_gaps {e : Extent} {l : List Extent} (h : Coalesced (e :: l)) {v : ℕ}
    (hv : v ∈ gaps (e :: l)) : e.stop ≤ v ∧ (e.stop < v → ∃ f ∈ l, e.stop < f.base ∧ f.base < v) ∧
      (∃ f ∈ l, v < f.base) ∧ ¬ Covers (e :: l) v := by
  induction l generalizing e with
  | nil => simp [gaps] at hv
  | cons f l ih =>
    obtain ⟨he, hgap, hrest⟩ := coalesced_cons.mp h
    have hef := hgap f mem_cons_self
    rw [gaps, mem_cons] at hv
    rcases hv with rfl | hv
    · refine ⟨le_rfl, fun hlt => absurd hlt (lt_irrefl _), ⟨f, mem_cons_self, hef⟩, ?_⟩
      rw [covers_cons]
      rintro (hc | hc)
      · exact absurd hc.2 (lt_irrefl _)
      · exact absurd (h.stop_lt_of_covers hc) (lt_irrefl _)
    · obtain ⟨h1, h2, ⟨g, hg, hvg⟩, h4⟩ := ih hrest hv
      have hfpos : f.base < f.stop := by
        have := (coalesced_cons.mp hrest).1
        unfold Extent.stop; omega
      refine ⟨by omega, fun _ => ⟨f, mem_cons_self, hef, by omega⟩,
        ⟨g, mem_cons_of_mem _ hg, hvg⟩, ?_⟩
      rw [covers_cons]
      rintro (hc | hc)
      · have := hc.2; omega
      · exact h4 hc

theorem pairwise_gaps {l : List Extent} (h : Coalesced l) :
    (gaps l).Pairwise fun v w => ∃ f ∈ l, v < f.base ∧ f.base < w := by
  induction l with
  | nil => simp [gaps]
  | cons e l ih =>
    cases l with
    | nil => simp [gaps]
    | cons f l =>
      obtain ⟨he, hgap, hrest⟩ := coalesced_cons.mp h
      have hef := hgap f mem_cons_self
      rw [gaps, pairwise_cons]
      refine ⟨fun w hw => ⟨f, by simp, hef, ?_⟩, (ih hrest).imp ?_⟩
      · have h1 := (exists_base_of_mem_gaps hrest hw).1
        have := (coalesced_cons.mp hrest).1
        unfold Extent.stop at h1
        omega
      · rintro v w ⟨g, hg, hgv⟩
        exact ⟨g, mem_cons_of_mem _ hg, hgv⟩

/-- **The counting argument.**  If every unit strictly inside the free space that
is not free belongs to a range in use, and no range in use meets a free extent,
then there is at most one more free extent than there are ranges in use. -/
theorem length_le_of_partition {l used : List Extent} (hl : Coalesced l)
    (hin : ∀ v, (∃ f ∈ l, v < f.base) → (∃ e ∈ l, e.stop ≤ v) → ¬ Covers l v → Covers used v)
    (hout : ∀ u, Covers used u → ¬ Covers l u) : l.length ≤ used.length + 1 := by
  classical
  have hused : ∀ v ∈ gaps l, ∃ x ∈ used, x.Has v := by
    intro v hv
    cases l with
    | nil => simp [gaps] at hv
    | cons e l =>
      obtain ⟨h1, -, ⟨f, hf, hvf⟩, h4⟩ := exists_base_of_mem_gaps hl hv
      exact hin v ⟨f, mem_cons_of_mem _ hf, hvf⟩ ⟨e, mem_cons_self, h1⟩ h4
  choose! owner hmem hhas using hused
  -- two gap units cannot belong to one range: it would contain the extent between them
  have hnd : ((gaps l).map owner).Nodup := by
    rw [List.Nodup, pairwise_map]
    refine List.Pairwise.imp_of_mem ?_ (pairwise_gaps hl)
    rintro v w hv hw ⟨f, hf, h1, h2⟩ heq
    have hov := hhas v hv
    have how := hhas w hw
    rw [← heq] at how
    refine hout f.base ⟨owner v, hmem v hv, ?_, ?_⟩ ⟨f, hf, Extent.has_base (hl.1 f hf)⟩
    · exact le_trans hov.1 h1.le
    · exact lt_trans h2 how.2
  have hsub : (gaps l).map owner ⊆ used := by
    intro x hx
    obtain ⟨v, hv, rfl⟩ := mem_map.mp hx
    exact hmem v hv
  have hle : ((gaps l).map owner).length ≤ used.length := (hnd.subperm hsub).length_le
  rw [length_map, length_gaps] at hle
  omega

end Lib
