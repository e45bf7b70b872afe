import OpusSysV.Lib.Linked
import Mathlib

/-!
# Programs on lists linked both ways

The loops and assignments that programs make on cells with a pointer each way.

* `skip` — go on while a condition holds, or to the end; `seek` does not test for the end.
* `steps` — go on a number of cells.
* `unlink`, `linkBefore`, `linkAfter` — take a cell out, put one in; they fail on a null pointer.

Each has the theorem that says what it does to a list that is `Doubly` linked.  `sorted_split` cuts
a sorted list where a bound lies.
-/

namespace Lib

open Function List Option

variable {α : Type*} {next prev : α → Option α} {first last : Option α} {a b : α}
variable {l l₁ l₂ : List α} {c : α → Bool} {n : ℕ}

/-! ## Walking -/

/-- Go on while `c`, at most `n` cells; a null pointer ends the loop. -/
def skip (next : α → Option α) (c : α → Bool) : ℕ → Option α → Option (Option α)
  | _, none => some none
  | 0, some _ => none
  | n + 1, some a => if c a then skip next c n (next a) else some (some a)

/-- Go on while `c`, at most `n` cells; a null pointer is followed. -/
def seek (next : α → Option α) (c : α → Bool) (n : ℕ) (first : Option α) : Option α :=
  (skip next c n first).join

/-- Go on `m` cells. -/
def steps (next : α → Option α) : ℕ → Option α → Option α
  | 0, p => p
  | m + 1, p => steps next m (p.bind next)

theorem Linked.skip_eq (h : Linked next first l) (hn : l.length ≤ n) :
    skip next c n first = some (l.find? fun a => !c a) := by
  induction l generalizing first n with
  | nil =>
    obtain rfl : first = none := h
    unfold skip
    rfl
  | cons a l ih =>
    obtain ⟨rfl, h⟩ := h
    cases n with
    | zero => exact absurd hn (by simp)
    | succ n =>
      rw [skip, List.find?_cons, ih h (by simpa using hn)]
      cases c a <;> rfl

theorem Linked.seek_eq (h : Linked next first l) (hn : l.length ≤ n) :
    seek next c n first = l.find? fun a => !c a := by
  rw [seek, h.skip_eq hn, Option.join_some]

theorem Linked.steps_eq (h : Linked next first l) (m : ℕ) : steps next m first = l[m]? := by
  induction m generalizing first l with
  | zero => rw [steps, h.head?, List.head?_eq_getElem?]
  | succ m ih =>
    cases l with
    | nil =>
      obtain rfl : first = none := h
      exact ih (l := []) rfl
    | cons a l =>
      obtain ⟨rfl, h⟩ := h
      exact ih h

/-- The next to last cell is the first with nothing behind the next one. -/
theorem Linked.penult {x y : α} (h : Linked next first (l ++ [x, y])) :
    (l ++ [x, y]).find? (fun a => !((next a).bind next).isSome) = some x := by
  induction l generalizing first with
  | nil =>
    obtain ⟨-, hx, hy⟩ := h
    have hy : next y = none := hy
    rw [nil_append, List.find?_cons, hx, bind_some, hy]
    rfl
  | cons a l ih =>
    have ha : ((next a).bind next).isSome = true := by
      cases l with
      | nil =>
        obtain ⟨-, hx, hy, -⟩ := h
        rw [hx, bind_some, hy]
        rfl
      | cons b l =>
        obtain ⟨-, hb, hc⟩ := h
        rw [hb, bind_some, hc.head?]
        cases l <;> rfl
    rw [cons_append, List.find?_cons, ha, ih h.2]
    rfl

theorem Doubly.suffix (h : Doubly next prev first last (l₁ ++ l₂)) : Linked next l₂.head? l₂ :=
  h.next_linked.suffix

/-- The list from one of its cells back. -/
theorem Doubly.back (h : Doubly next prev first last (l₁ ++ l₂)) :
    Linked prev l₁.getLast? l₁.reverse := by
  have hp := h.prev_linked
  rw [reverse_append] at hp
  have := hp.suffix
  rwa [List.head?_reverse] at this

/-- The last cell of a first part that fails a test which all cells behind pass. -/
theorem find?_reverse_append (h₁ : ∀ x ∈ l₁, c x = true) (h₂ : ∀ x ∈ l₂, c x = false) :
    (l₁ ++ l₂).reverse.find? c = l₁.getLast? := by
  rw [reverse_append, List.find?_append,
    List.find?_eq_none.mpr fun x hx => by simp [h₂ x (mem_reverse.mp hx)], none_or,
    ← List.head?_reverse]
  cases hr : l₁.reverse with
  | nil => rfl
  | cons x xs =>
    rw [List.find?_cons, h₁ x (mem_reverse.mp (by rw [hr]; exact mem_cons_self))]
    rfl

theorem Doubly.self (h : Doubly next prev first last l) :
    Doubly next prev l.head? l.getLast? l := by
  have hf := h.first_eq
  have hl := h.last_eq
  rwa [hf, hl] at h

/-! ## Sorted lists -/

/-- A bound cuts a sorted list in two. -/
theorem sorted_split {β : Type*} [LinearOrder β] (f : α → β) (t : β)
    (h : l.Pairwise fun x y => f x ≤ f y) :
    ∃ l₁ l₂, l = l₁ ++ l₂ ∧ (∀ x ∈ l₁, f x ≤ t) ∧ ∀ x ∈ l₂, t < f x := by
  induction l with
  | nil => exact ⟨[], [], rfl, fun _ h => (nomatch h), fun _ h => nomatch h⟩
  | cons a l ih =>
    obtain ⟨ha, hl⟩ := pairwise_cons.mp h
    by_cases hat : f a ≤ t
    · obtain ⟨l₁, l₂, rfl, h₁, h₂⟩ := ih hl
      exact ⟨a :: l₁, l₂, rfl, forall_mem_cons.mpr ⟨hat, h₁⟩, h₂⟩
    · have hat := lt_of_not_ge hat
      refine ⟨[], a :: l, rfl, fun _ h => (nomatch h), forall_mem_cons.mpr ⟨hat, ?_⟩⟩
      exact fun x hx => lt_of_lt_of_le hat (ha x hx)

/-- The longest first part with a property, where it is known. -/
theorem takeWhile_append_eq (l₁ l₂ : List α) (h₁ : ∀ x ∈ l₁, c x = true)
    (h₂ : ∀ x ∈ l₂, c x = false) :
    (l₁ ++ l₂).takeWhile c = l₁ ∧ (l₁ ++ l₂).dropWhile c = l₂ := by
  induction l₁ with
  | nil =>
    cases l₂ with
    | nil => exact ⟨rfl, rfl⟩
    | cons x l =>
      have hx := h₂ x mem_cons_self
      rw [nil_append, takeWhile_cons, dropWhile_cons, hx]
      exact ⟨rfl, rfl⟩
  | cons a l ih =>
    obtain ⟨ha, hl⟩ := forall_mem_cons.mp h₁
    obtain ⟨h3, h4⟩ := ih hl
    rw [cons_append, takeWhile_cons, dropWhile_cons, ha, h3, h4]
    exact ⟨rfl, rfl⟩

/-- Numbers below a bound that are all different are not more than the bound. -/
theorem length_le_of_lt {l : List ℕ} (hnd : l.Nodup) (h : ∀ x ∈ l, x < n) : l.length ≤ n := by
  have hsub : l ⊆ List.range n := fun x hx => mem_range.mpr (h x hx)
  have hle := (hnd.subperm hsub).length_le
  rwa [length_range] at hle

/-! ## Linking -/

/-- What the ends of a list are when the cell between two parts is left out or not. -/
theorem Doubly.ends (h : Doubly next prev first last (l₁ ++ l₂)) (h₁ : l₁ ≠ []) (h₂ : l₂ ≠ []) :
    first = l₁.head? ∧ last = l₂.getLast? := by
  refine ⟨?_, ?_⟩
  · rw [h.first_eq, List.head?_append_of_ne_nil _ h₁]
  · rw [h.last_eq, List.getLast?_append_of_ne_nil _ h₂]

variable [DecidableEq α]

/-- `(a->prev)->next = a->next; (a->next)->prev = a->prev`. -/
def unlink (next prev : α → Option α) (a : α) : Option ((α → Option α) × (α → Option α)) :=
  (prev a).bind fun p =>
    let next := update next p (next a)
    (next a).map fun q => (next, update prev q (prev a))

/-- `a->prev = b->prev; a->next = b; (b->prev)->next = a; b->prev = a`. -/
def linkBefore (next prev : α → Option α) (a b : α) :
    Option ((α → Option α) × (α → Option α)) :=
  (prev b).map fun p => (update (update next a (some b)) p (some a),
    update (update prev a (some p)) b (some a))

/-- `a->next = b->next; a->prev = b; (b->next)->prev = a; b->next = a`. -/
def linkAfter (next prev : α → Option α) (a b : α) :
    Option ((α → Option α) × (α → Option α)) :=
  (next b).map fun q => (update (update next a (some q)) b (some a),
    update (update prev a (some b)) q (some a))

/-- The cells next to one inside the list are linked to each other. -/
theorem Doubly.cut {p q : α} (h : Doubly next prev first last (l₁ ++ p :: a :: q :: l₂))
    (hnd : (l₁ ++ p :: a :: q :: l₂).Nodup) :
    Doubly (update next p (some q)) (update prev q (some p)) first last
      (l₁ ++ p :: q :: l₂) := by
  have hold : l₁ ++ p :: a :: q :: l₂ = (l₁ ++ [p]) ++ a :: q :: l₂ := by simp
  have hnew : l₁ ++ p :: q :: l₂ = (l₁ ++ [p]) ++ q :: l₂ := by simp
  rw [hold] at h hnd
  have hne : l₁ ++ [p] ≠ [] := by simp
  have hends := h.ends hne (cons_ne_nil _ _)
  rw [hnew]
  refine h.remove hnd ?_ ?_ (fun z hz => ?_) (fun z hz => ?_) (fun b _ hb => ?_) fun b _ hb => ?_
  · rw [hends.1, List.head?_append_of_ne_nil _ hne]
  · rw [hends.2, List.getLast?_cons_cons, List.getLast?_append_of_ne_nil _ (by simp)]
  · rw [List.getLast?_concat] at hz
    cases hz
    exact update_self ..
  · cases hz
    rw [List.getLast?_concat]
    exact update_self ..
  · rw [List.getLast?_concat] at hb
    exact update_of_ne (fun h => hb (by rw [h])) _ _
  · exact update_of_ne (fun h => hb (by rw [h]; rfl)) _ _

/-- **A cell inside the list is taken out**; its own pointers stay. -/
theorem Doubly.unlink (h : Doubly next prev first last (l₁ ++ a :: l₂))
    (hnd : (l₁ ++ a :: l₂).Nodup) (h₁ : l₁ ≠ []) (h₂ : l₂ ≠ []) :
    ∃ next' prev', Lib.unlink next prev a = some (next', prev') ∧
      Doubly next' prev' first last (l₁ ++ l₂) ∧ next' a = next a ∧ prev' a = prev a := by
  obtain ⟨l, p, rfl⟩ := (eq_nil_or_concat' l₁).resolve_left h₁
  obtain ⟨q, m, rfl⟩ := exists_cons_of_ne_nil h₂
  have hprev : prev a = some p := by rw [h.prev_eq, List.getLast?_concat]
  have hnext : next a = some q := by rw [h.next_eq]; rfl
  have hap : a ≠ p := by
    rintro rfl
    exact (disjoint_of_nodup_append hnd) (by simp) mem_cons_self
  have haq : a ≠ q := by
    rintro rfl
    exact (nodup_cons.mp (List.Nodup.of_append_right hnd)).1 mem_cons_self
  rw [append_assoc, singleton_append] at h hnd
  refine ⟨update next p (some q), update prev q (some p), ?_, ?_,
    update_of_ne hap _ _, update_of_ne haq _ _⟩
  · rw [Lib.unlink, hprev, bind_some]
    simp only [update_of_ne hap, hnext, map_some]
  · rw [append_assoc, singleton_append]
    exact h.cut hnd

/-- A cell is put behind the last one. -/
theorem Doubly.snoc {p : α} (h : Doubly next prev first (some p) l) (hnd : l.Nodup) (ha : a ∉ l) :
    Doubly (update (update next p (some a)) a none)
      (update prev a (some p)) first (some a) (l ++ [a]) := by
  have hlast : l.getLast? = some p := h.last_eq.symm
  have hap : a ≠ p := by
    rintro rfl
    exact ha (mem_of_getLast? hlast)
  have hne : l ≠ [] := by
    rintro rfl
    exact nomatch hlast
  rw [← append_nil l] at h hnd
  refine h.insert hnd ?_ rfl ?_ ?_ (fun z hz => ?_) (fun z hz => nomatch hz) (fun b hb hne => ?_)
    fun b hb _ => ?_
  · rw [h.first_eq, append_nil]
    cases hl : l with
    | nil => exact absurd hl hne
    | cons x xs => rfl
  · exact update_self ..
  · rw [update_self, hlast]
  · cases hlast.symm.trans hz
    rw [update_of_ne hap.symm, update_self]
  · rw [append_nil] at hb
    rw [update_of_ne (fun h => ha (by rw [← h]; exact hb)),
      update_of_ne (fun h => hne (by rw [h, hlast]))]
  · rw [append_nil] at hb
    exact update_of_ne (fun h => ha (by rw [← h]; exact hb)) _ _

/-- What is put inside a list keeps its ends. -/
theorem Doubly.put {next' prev' : α → Option α} {p q : α}
    (h : Doubly next prev first last (l₁ ++ p :: q :: l₂)) (hnd : (l₁ ++ p :: q :: l₂).Nodup)
    (ha : a ∉ l₁ ++ p :: q :: l₂)
    (hn : next' = update (update next a (some q)) p (some a))
    (hp : prev' = update (update prev a (some p)) q (some a)) :
    Doubly next' prev' first last (l₁ ++ p :: a :: q :: l₂) := by
  have hsplit : l₁ ++ p :: a :: q :: l₂ = (l₁ ++ [p]) ++ a :: q :: l₂ := by simp
  have hold : l₁ ++ p :: q :: l₂ = (l₁ ++ [p]) ++ q :: l₂ := by simp
  have hap : a ≠ p := by rintro rfl; exact ha (by simp)
  have haq : a ≠ q := by rintro rfl; exact ha (by simp)
  rw [hold] at h hnd ha
  have hends := h.ends (by simp) (cons_ne_nil _ _)
  rw [hsplit]
  refine h.insert hnd ?_ ?_ ?_ ?_ (fun z hz => ?_) (fun z hz => ?_) (fun b hb hne => ?_)
    fun b hb hne => ?_
  · rw [hends.1]
    cases l₁ <;> rfl
  · rw [hends.2, List.getLast?_cons]
    rfl
  · rw [hn, update_of_ne hap, update_self]
    rfl
  · rw [hp, update_of_ne haq, update_self, List.getLast?_concat]
  · rw [List.getLast?_concat] at hz
    cases hz
    rw [hn, update_self]
  · cases hz
    rw [hp, update_self]
  · rw [List.getLast?_concat] at hne
    rw [hn, update_of_ne (fun h => hne (by rw [h])),
      update_of_ne (fun h => ha (by rw [← h]; exact hb))]
  · rw [hp, update_of_ne (fun h => hne (by rw [h]; rfl)),
      update_of_ne (fun h => ha (by rw [← h]; exact hb))]

/-- **A cell is put before another one** that is not the first. -/
theorem Doubly.linkBefore (h : Doubly next prev first last (l₁ ++ b :: l₂))
    (hnd : (l₁ ++ b :: l₂).Nodup) (h₁ : l₁ ≠ []) (ha : a ∉ l₁ ++ b :: l₂) :
    ∃ next' prev', Lib.linkBefore next prev a b = some (next', prev') ∧
      Doubly next' prev' first last (l₁ ++ a :: b :: l₂) := by
  obtain ⟨l, p, rfl⟩ := (eq_nil_or_concat' l₁).resolve_left h₁
  have hprev : prev b = some p := by rw [h.prev_eq, List.getLast?_concat]
  rw [append_assoc, singleton_append] at h hnd ha ⊢
  exact ⟨_, _, by rw [Lib.linkBefore, hprev, map_some], h.put hnd ha rfl rfl⟩

/-- **A cell is put behind another one** that is not the last. -/
theorem Doubly.linkAfter (h : Doubly next prev first last (l₁ ++ b :: l₂))
    (hnd : (l₁ ++ b :: l₂).Nodup) (h₂ : l₂ ≠ []) (ha : a ∉ l₁ ++ b :: l₂) :
    ∃ next' prev', Lib.linkAfter next prev a b = some (next', prev') ∧
      Doubly next' prev' first last (l₁ ++ b :: a :: l₂) := by
  obtain ⟨q, m, rfl⟩ := exists_cons_of_ne_nil h₂
  have hnext : next b = some q := by rw [h.next_eq]; rfl
  exact ⟨_, _, by rw [Lib.linkAfter, hnext, map_some], h.put hnd ha rfl rfl⟩

end Lib
