import Mathlib.Data.List.Nodup
import Mathlib.Logic.Function.Basic

/-!
# Linked lists

Cells that each name the next one, and a head.  `Linked next first l` says that from
`first` on the cells are those of `l`, in this order.

* `Linked.congr` — cells outside the list do not matter.
* `Linked.push`, `Linked.pop` — at the head; `Linked.snoc`, `Linked.append` — at the end;
  `Linked.delete` — anywhere, given the cell before.
* `Linked.insert`, `Linked.remove` — anywhere, where the cell before may be missing.
* `Linked.unique` — a head belongs to one list, which `walk` computes.
* `Doubly` — lists that are linked both ways, with `Doubly.insert` and `Doubly.remove`.
-/

namespace Lib

open List

variable {α : Type*}

/-- The cells from `first` on are those of the list, the last one naming none. -/
def Linked (next : α → Option α) : Option α → List α → Prop
  | first, [] => first = none
  | first, a :: l => first = some a ∧ Linked next (next a) l

variable {next next' : α → Option α} {first first' : Option α} {a z : α} {l l' l₁ l₂ : List α}

@[simp] theorem linked_cons : Linked next first (a :: l) ↔ first = some a ∧ Linked next (next a) l :=
  Iff.rfl

section

variable (h : Linked next first l)

include h

theorem Linked.congr (hn : ∀ a ∈ l, next' a = next a) :
    Linked next' first l := by
  induction l generalizing first with
  | nil => exact h
  | cons a l ih =>
    obtain ⟨h1, h2⟩ := h
    refine ⟨h1, ?_⟩
    rw [hn a mem_cons_self]
    exact ih h2 fun b hb => hn b (mem_cons_of_mem _ hb)

theorem Linked.head? : first = l.head? := by
  cases l with
  | nil => exact h
  | cons a l => exact h.1

theorem Linked.unique (h' : Linked next first l') : l = l' := by
  induction l generalizing first l' with
  | nil =>
    have hf : first = none := h
    cases l' with
    | nil => rfl
    | cons b l' => simp [hf] at h'
  | cons a l ih =>
    obtain ⟨rfl, h⟩ := h
    cases l' with
    | nil => cases h'
    | cons b l' =>
      obtain ⟨hb, h'⟩ := h'
      cases hb
      rw [ih h h']

/-- A cell is put in front. -/
theorem Linked.push (hl : ∀ b ∈ l, next' b = next b)
    (ha : next' a = first) : Linked next' (some a) (a :: l) := by
  refine ⟨rfl, ?_⟩
  rw [ha]
  exact h.congr hl

end

/-- The cell in front is taken. -/
theorem Linked.pop (h : Linked next (some a) l) : ∃ l', l = a :: l' ∧ Linked next (next a) l' := by
  cases l with
  | nil => cases h
  | cons b l =>
    obtain ⟨hb, h⟩ := h
    cases hb
    exact ⟨l, rfl, h⟩

/-- A list is put behind the last cell, `z`. -/
theorem Linked.append {m : List α} (h : Linked next first (l ++ [z]))
    (hl : ∀ b ∈ l, next' b = next b) (hm : Linked next' (next' z) m) :
    Linked next' first (l ++ z :: m) := by
  induction l generalizing first with
  | nil => exact ⟨h.1, hm⟩
  | cons b l ih =>
    refine ⟨h.1, ?_⟩
    rw [hl b mem_cons_self]
    exact ih h.2 fun c hc => hl c (mem_cons_of_mem _ hc)

/-- A cell is put behind the last one, `z`. -/
theorem Linked.snoc (h : Linked next first (l ++ [z])) (hl : ∀ b ∈ l, next' b = next b)
    (hz : next' z = some a) (ha : next' a = none) : Linked next' first (l ++ [z, a]) :=
  h.append hl ⟨hz, ha⟩

/-- The cell behind `z` is unlinked. -/
theorem Linked.delete (h : Linked next first (l₁ ++ z :: a :: l₂))
    (hl : ∀ b ∈ l₁ ++ l₂, next' b = next b) (hz : next' z = next a) :
    Linked next' first (l₁ ++ z :: l₂) := by
  induction l₁ generalizing first with
  | nil =>
    obtain ⟨h1, -, h2⟩ := h
    refine ⟨h1, ?_⟩
    rw [hz]
    exact h2.congr hl
  | cons b l ih =>
    refine ⟨h.1, ?_⟩
    rw [hl b mem_cons_self]
    exact ih h.2 fun c hc => hl c (mem_cons_of_mem _ hc)

theorem getLast?_cons_ne_head {c : α} (ha : a ∉ c :: l) : (a :: c :: l).getLast? ≠ some a := by
  rw [List.getLast?_cons_cons]
  exact fun h => ha (mem_of_getLast? h)

theorem getLast?_cons_ne {b : α} (hab : a ≠ b) (h : l.getLast? ≠ some b) :
    (a :: l).getLast? ≠ some b := by
  rw [List.getLast?_cons]
  cases hl : l.getLast? with
  | none => exact fun heq => hab (Option.some.inj heq)
  | some z =>
    rw [hl] at h
    exact h

/-- The list from one of its cells on. -/
theorem Linked.suffix (h : Linked next first (l₁ ++ l₂)) : Linked next l₂.head? l₂ := by
  induction l₁ generalizing first with
  | nil => exact h.head? ▸ h
  | cons b l ih => exact ih h.2

/-- The list goes on otherwise behind `l₁`, whose last cell, if there is one, is made to name the
first cell of the rest. -/
theorem Linked.splice (h : Linked next first (l₁ ++ l₂)) (hnd : l₁.Nodup)
    (hfirst : first' = (l₁ ++ l).head?) (hrest : Linked next' l.head? l)
    (hz : ∀ z, l₁.getLast? = some z → next' z = l.head?)
    (hkeep : ∀ b ∈ l₁, l₁.getLast? ≠ some b → next' b = next b) :
    Linked next' first' (l₁ ++ l) := by
  induction l₁ generalizing first first' with
  | nil =>
    rw [hfirst]
    exact hrest
  | cons b l₁ ih =>
    obtain ⟨-, h⟩ := h
    obtain ⟨hb, hnd⟩ := nodup_cons.mp hnd
    refine ⟨hfirst, ih h hnd ?_ ?_ ?_⟩
    · cases l₁ with
      | nil => exact hz b rfl
      | cons c l₁ =>
        rw [hkeep b mem_cons_self (getLast?_cons_ne_head hb), h.1]
        rfl
    · intro z hlast
      refine hz z ?_
      rw [List.getLast?_cons, hlast]
      rfl
    · intro c hc hlast
      refine hkeep c (mem_cons_of_mem _ hc) (getLast?_cons_ne ?_ hlast)
      exact fun heq => hb (heq ▸ hc)

/-- The last cell of the first part is none of the second one. -/
theorem getLast?_ne_of_mem {b : α} (hnd : (l₁ ++ l₂).Nodup) (hb : b ∈ l₂) :
    l₁.getLast? ≠ some b :=
  fun h => (disjoint_of_nodup_append hnd) (mem_of_getLast? h) hb

/-- A cell is put between two parts of the list; the last cell of the first part, if there is
one, is made to name it. -/
theorem Linked.insert (h : Linked next first (l₁ ++ l₂)) (hnd : (l₁ ++ l₂).Nodup)
    (hfirst : first' = l₁.head?.or (some a)) (ha : next' a = l₂.head?)
    (hz : ∀ z, l₁.getLast? = some z → next' z = some a)
    (hkeep : ∀ b ∈ l₁ ++ l₂, l₁.getLast? ≠ some b → next' b = next b) :
    Linked next' first' (l₁ ++ a :: l₂) := by
  refine h.splice hnd.of_append_left ?_ ⟨rfl, ?_⟩ hz fun b hb =>
    hkeep b (mem_append_left _ hb)
  · rw [hfirst, List.head?_append]
    rfl
  · rw [ha]
    exact h.suffix.congr fun b hb =>
      hkeep b (mem_append_right _ hb) (getLast?_ne_of_mem hnd hb)

/-- A cell is unlinked; the one before, if there is one, is made to name the one behind. -/
theorem Linked.remove (h : Linked next first (l₁ ++ a :: l₂)) (hnd : (l₁ ++ a :: l₂).Nodup)
    (hfirst : first' = (l₁ ++ l₂).head?)
    (hz : ∀ z, l₁.getLast? = some z → next' z = l₂.head?)
    (hkeep : ∀ b ∈ l₁ ++ l₂, l₁.getLast? ≠ some b → next' b = next b) :
    Linked next' first' (l₁ ++ l₂) := by
  refine h.splice hnd.of_append_left hfirst ?_ hz fun b hb => hkeep b (mem_append_left _ hb)
  have hrest : Linked next l₂.head? l₂ := h.suffix.2.head? ▸ h.suffix.2
  exact hrest.congr fun b hb => hkeep b (mem_append_right _ hb)
    (getLast?_ne_of_mem hnd (mem_cons_of_mem _ hb))

/-- The cell that a cell of the list names. -/
theorem Linked.next_eq (h : Linked next first (l₁ ++ a :: l₂)) : next a = l₂.head? := by
  induction l₁ generalizing first with
  | nil => exact h.2.head?
  | cons b l ih => exact ih h.2

/-- The cells found in at most `n` steps from `first` on. -/
def walk (next : α → Option α) : ℕ → Option α → List α
  | _, none => []
  | 0, some _ => []
  | n + 1, some a => a :: walk next n (next a)

theorem Linked.walk_eq (h : Linked next first l) {n : ℕ} (hn : l.length ≤ n) :
    walk next n first = l := by
  induction l generalizing first n with
  | nil =>
    obtain rfl : first = none := h
    cases n <;> rfl
  | cons a l ih =>
    obtain ⟨rfl, h⟩ := h
    cases n with
    | zero => simp at hn
    | succ n => rw [walk, ih h (by simpa using hn)]

/-! ## Lists linked both ways -/

/-- The cells from `first` to `last` are those of the list, each naming the one behind and the
one before. -/
structure Doubly (next prev : α → Option α) (first last : Option α) (l : List α) : Prop where
  next_linked : Linked next first l
  prev_linked : Linked prev last l.reverse

section doubly

variable {prev prev' : α → Option α} {last last' : Option α}

theorem doubly_nil : Doubly next prev none none [] := ⟨rfl, rfl⟩

theorem Doubly.first_eq (h : Doubly next prev first last l) : first = l.head? :=
  h.next_linked.head?

theorem Doubly.last_eq (h : Doubly next prev first last l) : last = l.getLast? := by
  rw [h.prev_linked.head?, List.head?_reverse]

section

variable (h : Doubly next prev first last (l₁ ++ a :: l₂))

include h

theorem Doubly.next_eq : next a = l₂.head? :=
  h.next_linked.next_eq

theorem Doubly.prev_eq :
    prev a = l₁.getLast? := by
  have hp := h.prev_linked
  rw [reverse_append, reverse_cons, append_assoc, singleton_append] at hp
  rw [hp.next_eq, List.head?_reverse]

omit h in
/-- A cell is put between two parts of the list. -/
theorem Doubly.insert (h : Doubly next prev first last (l₁ ++ l₂)) (hnd : (l₁ ++ l₂).Nodup)
    (hfirst : first' = l₁.head?.or (some a)) (hlast : last' = l₂.getLast?.or (some a))
    (hnext : next' a = l₂.head?) (hprev : prev' a = l₁.getLast?)
    (hbefore : ∀ z, l₁.getLast? = some z → next' z = some a)
    (hbehind : ∀ z, l₂.head? = some z → prev' z = some a)
    (hkeepn : ∀ b ∈ l₁ ++ l₂, l₁.getLast? ≠ some b → next' b = next b)
    (hkeepp : ∀ b ∈ l₁ ++ l₂, l₂.head? ≠ some b → prev' b = prev b) :
    Doubly next' prev' first' last' (l₁ ++ a :: l₂) := by
  refine ⟨h.next_linked.insert hnd hfirst hnext hbefore hkeepn, ?_⟩
  have hp := h.prev_linked
  rw [reverse_append] at hp
  rw [reverse_append, reverse_cons, append_assoc, singleton_append]
  refine hp.insert ?_ ?_ ?_ ?_ ?_
  · rw [← reverse_append]
    exact nodup_reverse.mpr hnd
  · rw [List.head?_reverse, hlast]
  · rw [List.head?_reverse, hprev]
  · rw [List.getLast?_reverse]
    exact hbehind
  · intro b hb
    rw [List.getLast?_reverse]
    rw [← reverse_append, mem_reverse] at hb
    exact hkeepp b hb

/-- A cell is unlinked. -/
theorem Doubly.remove
    (hnd : (l₁ ++ a :: l₂).Nodup)
    (hfirst : first' = (l₁ ++ l₂).head?) (hlast : last' = (l₁ ++ l₂).getLast?)
    (hbefore : ∀ z, l₁.getLast? = some z → next' z = l₂.head?)
    (hbehind : ∀ z, l₂.head? = some z → prev' z = l₁.getLast?)
    (hkeepn : ∀ b ∈ l₁ ++ l₂, l₁.getLast? ≠ some b → next' b = next b)
    (hkeepp : ∀ b ∈ l₁ ++ l₂, l₂.head? ≠ some b → prev' b = prev b) :
    Doubly next' prev' first' last' (l₁ ++ l₂) := by
  refine ⟨h.next_linked.remove hnd hfirst hbefore hkeepn, ?_⟩
  have hp := h.prev_linked
  rw [reverse_append, reverse_cons, append_assoc, singleton_append] at hp
  rw [reverse_append]
  refine hp.remove ?_ ?_ ?_ ?_
  · rw [← singleton_append, ← append_assoc, ← reverse_cons, ← reverse_append]
    exact nodup_reverse.mpr hnd
  · rw [← reverse_append, List.head?_reverse, hlast]
  · rw [List.getLast?_reverse, List.head?_reverse]
    exact hbehind
  · intro b hb
    rw [List.getLast?_reverse]
    rw [← reverse_append, mem_reverse] at hb
    exact hkeepp b hb

end

end doubly

end Lib
