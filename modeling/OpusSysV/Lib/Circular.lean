import Mathlib.Data.List.Nodup
import Mathlib.Logic.Function.Basic

/-!
# Circular lists

Cells that each name the next one, up to a given last cell.  A list that ends at the cell it
starts from is circular; its head is a cell like the others.

* `Path next a l b` — from `a` through the cells of `l` to `b`.  `Path.insert`, `Path.remove`.
* `Circ next prev h l` — a circular list linked both ways, with head `h`.  `Circ.push`,
  `Circ.snoc`, `Circ.remove`, `Circ.move` are the assignments that programs make; `Circ.rotate` takes another
  cell as the head.
-/

namespace Lib

open Function List

variable {α : Type*} {next next' prev prev' : α → Option α} {a b c h n p x : α}
variable {l l₁ l₂ : List α}

/-- From `a` through the cells of the list to `b`. -/
def Path (next : α → Option α) : α → List α → α → Prop
  | a, [], b => next a = some b
  | a, x :: l, b => next a = some x ∧ Path next x l b

@[simp] theorem path_nil : Path next a [] b ↔ next a = some b := Iff.rfl

@[simp] theorem path_cons : Path next a (x :: l) b ↔ next a = some x ∧ Path next x l b := Iff.rfl

theorem path_append : Path next a (l₁ ++ x :: l₂) b ↔ Path next a l₁ x ∧ Path next x l₂ b := by
  induction l₁ generalizing a with
  | nil => rfl
  | cons y l ih => rw [cons_append, path_cons, path_cons, ih, and_assoc]

/-- Cells outside the path do not matter, nor does what the last one names. -/
theorem Path.congr (h : Path next a l b) (hn : ∀ c ∈ a :: l, next' c = next c) :
    Path next' a l b := by
  induction l generalizing a with
  | nil => exact (hn a mem_cons_self).trans h
  | cons x l ih =>
    exact ⟨(hn a mem_cons_self).trans h.1, ih h.2 fun c hc => hn c (mem_cons_of_mem _ hc)⟩

/-- The first cell names the second. -/
theorem Path.head (h : Path next a l b) : next a = some (l.headD b) := by
  cases l with
  | nil => exact h
  | cons x l => exact h.1

/-- The last cell names the end. -/
theorem Path.last (h : Path next a l b) : next (l.getLastD a) = some b := by
  induction l generalizing a with
  | nil => exact h
  | cons x l ih =>
    rw [getLastD_cons]
    exact ih h.2

theorem mem_getLastD : l.getLastD a ∈ a :: l := by
  induction l generalizing a with
  | nil => exact mem_singleton_self a
  | cons x l ih =>
    rw [getLastD_cons]
    exact mem_cons_of_mem _ ih

/-- A cell is put behind the last one of a first part. -/
theorem Path.insert (h : Path next a (l₁ ++ l₂) b) (hnd : (a :: (l₁ ++ l₂)).Nodup)
    (hz : next' (l₁.getLastD a) = some x) (hx : next' x = next (l₁.getLastD a))
    (hkeep : ∀ c ∈ a :: (l₁ ++ l₂), c ≠ l₁.getLastD a → next' c = next c) :
    Path next' a (l₁ ++ x :: l₂) b := by
  induction l₁ generalizing a with
  | nil =>
    refine ⟨hz, ?_⟩
    have hnd' := nodup_cons.mp hnd
    cases l₂ with
    | nil => exact hx.trans h
    | cons y l =>
      refine ⟨hx.trans h.1, h.2.congr fun c hc => hkeep c (mem_cons_of_mem _ hc) ?_⟩
      rintro rfl
      exact hnd'.1 hc
  | cons y l ih =>
    rw [getLastD_cons] at hz hx hkeep
    have hnd' := nodup_cons.mp hnd
    refine ⟨?_, ih h.2 hnd'.2 hz hx fun c hc => hkeep c (mem_cons_of_mem _ hc)⟩
    rw [hkeep a mem_cons_self ?_]
    · exact h.1
    · rintro he
      refine hnd'.1 (he ▸ ?_)
      have hm : l.getLastD y ∈ y :: l := mem_getLastD
      exact mem_append_left l₂ hm

/-- A cell is unlinked. -/
theorem Path.remove (h : Path next a (l₁ ++ x :: l₂) b) (hnd : (a :: (l₁ ++ x :: l₂)).Nodup)
    (hz : next' (l₁.getLastD a) = next x)
    (hkeep : ∀ c ∈ a :: (l₁ ++ l₂), c ≠ l₁.getLastD a → next' c = next c) :
    Path next' a (l₁ ++ l₂) b := by
  induction l₁ generalizing a with
  | nil =>
    have hnd' := nodup_cons.mp hnd
    cases l₂ with
    | nil => exact hz.trans h.2
    | cons y l =>
      refine ⟨hz.trans h.2.1, h.2.2.congr fun c hc => hkeep c (mem_cons_of_mem _ hc) ?_⟩
      rintro rfl
      exact hnd'.1 (mem_cons_of_mem _ hc)
  | cons y l ih =>
    rw [getLastD_cons] at hz hkeep
    have hnd' := nodup_cons.mp hnd
    refine ⟨?_, ih h.2 hnd'.2 hz fun c hc => hkeep c (mem_cons_of_mem _ hc)⟩
    rw [hkeep a mem_cons_self ?_]
    · exact h.1
    · intro he
      refine hnd'.1 (he ▸ ?_)
      have hm : l.getLastD y ∈ y :: l := mem_getLastD
      exact mem_append_left (x :: l₂) hm

/-- A circular list with head `h`, linked both ways. -/
structure Circ (next prev : α → Option α) (h : α) (l : List α) : Prop where
  fwd : Path next h l h
  bwd : Path prev h l.reverse h
  nodup : (h :: l).Nodup

theorem Circ.symm (hc : Circ next prev h l) : Circ prev next h l.reverse :=
  ⟨hc.bwd, by rw [reverse_reverse]; exact hc.fwd, by
    have h1 := nodup_cons.mp hc.nodup
    exact nodup_cons.mpr ⟨by rw [mem_reverse]; exact h1.1, nodup_reverse.mpr h1.2⟩⟩

theorem Circ.congr (hc : Circ next prev h l) (hn : ∀ c ∈ h :: l, next' c = next c)
    (hp : ∀ c ∈ h :: l, prev' c = prev c) : Circ next' prev' h l := by
  refine ⟨hc.fwd.congr hn, hc.bwd.congr fun c hm => hp c ?_, hc.nodup⟩
  rw [mem_cons, mem_reverse] at hm
  exact mem_cons.mpr hm

/-- The empty list: the head names itself. -/
theorem circ_nil (hn : next h = some h) (hp : prev h = some h) : Circ next prev h [] :=
  ⟨hn, hp, nodup_singleton h⟩

/-- The cells next to a cell of the list. -/
theorem Circ.next_eq (hc : Circ next prev h (l₁ ++ x :: l₂)) : next x = some (l₂.headD h) :=
  (path_append.mp hc.fwd).2.head

theorem Circ.prev_eq (hc : Circ next prev h (l₁ ++ x :: l₂)) : prev x = some (l₁.getLastD h) := by
  have h1 := hc.bwd
  rw [reverse_append, reverse_cons, append_assoc, singleton_append] at h1
  rw [(path_append.mp h1).2.head, headD_eq_head?_getD, List.head?_reverse,
    getLastD_eq_getLast?]

/-- The next cell becomes the head. -/
theorem Circ.rotate (hc : Circ next prev h (x :: l)) : Circ next prev x (l ++ [h]) := by
  have hf := path_cons.mp hc.fwd
  have hb := hc.bwd
  rw [reverse_cons, path_append, path_nil] at hb
  refine ⟨path_append.mpr ⟨hf.2, hf.1⟩, ?_, ?_⟩
  · rw [reverse_append, reverse_singleton, singleton_append]
    exact ⟨hb.2, hb.1⟩
  · exact (perm_append_singleton h (x :: l)).nodup_iff.mpr hc.nodup

/-- The last cell becomes the head. -/
theorem Circ.rotate_back (hc : Circ next prev h (l ++ [x])) : Circ next prev x (h :: l) := by
  have hs := hc.symm
  rw [reverse_append, reverse_singleton, singleton_append] at hs
  have h1 := hs.rotate.symm
  rwa [reverse_append, reverse_singleton, reverse_reverse] at h1

variable [DecidableEq α]

/-- **A cell is unlinked**: `x->prev->next = x->next; x->next->prev = x->prev`. -/
theorem Circ.remove (hc : Circ next prev h (l₁ ++ x :: l₂)) (hp : prev x = some p)
    (hn : next x = some n) :
    Circ (update next p (some n)) (update prev n (some p)) h (l₁ ++ l₂) := by
  have hp' : p = l₁.getLastD h := Option.some.inj (hp.symm.trans hc.prev_eq)
  have hn' : n = l₂.headD h := Option.some.inj (hn.symm.trans hc.next_eq)
  have hrev : (l₁ ++ x :: l₂).reverse = l₂.reverse ++ x :: l₁.reverse := by simp
  have hlast : l₂.reverse.getLastD h = n := by
    rw [hn']
    cases l₂ <;> simp
  refine ⟨?_, ?_, ?_⟩
  · refine hc.fwd.remove hc.nodup ?_ fun c _ hne => ?_
    · rw [← hp', update_self, hn]
    · rw [← hp'] at hne
      rw [update_of_ne hne]
  · have hb := hc.symm
    rw [hrev] at hb
    rw [reverse_append]
    refine hb.fwd.remove hb.nodup ?_ fun c _ hne => ?_
    · rw [hlast, update_self, hp]
    · rw [hlast] at hne
      rw [update_of_ne hne]
  · have hnd := nodup_cons.mp hc.nodup
    refine nodup_cons.mpr ⟨fun hm => hnd.1 ?_, ?_⟩
    · rcases mem_append.mp hm with h1 | h2
      · exact mem_append_left _ h1
      · exact mem_append_right _ (mem_cons_of_mem _ h2)
    · exact hnd.2.sublist (List.Sublist.append_left (sublist_cons_self x l₂) l₁)

/-- **A cell is put in front**: `x->next = h->next; x->prev = h; h->next = x;
x->next->prev = x`. -/
theorem Circ.push (hc : Circ next prev h l) (hx : x ∉ h :: l) (hn : next h = some n) :
    Circ (update (update next x (some n)) h (some x))
      (update (update prev x (some h)) n (some x)) h (x :: l) := by
  have hn' : n = l.headD h := Option.some.inj (hn.symm.trans hc.fwd.head)
  have hxh : x ≠ h := fun he => hx (he ▸ mem_cons_self)
  have hnm : n ∈ h :: l := by
    rw [hn']
    cases l <;> simp
  have hxn : x ≠ n := fun he => hx (he ▸ hnm)
  refine ⟨?_, ?_, ?_⟩
  · have hfwd : Path next h ([] ++ l) h := hc.fwd
    show Path _ h ([] ++ x :: l) h
    refine hfwd.insert hc.nodup ?_ ?_ fun c hcm hne => ?_
    · exact update_self h (some x) (update next x (some n))
    · rw [update_of_ne hxh, update_self]
      exact hn.symm
    · have hcx : c ≠ x := fun he => hx (he ▸ hcm)
      have hch : c ≠ h := hne
      rw [update_of_ne hch, update_of_ne hcx]
  · have hlast : l.reverse.getLastD h = n := by
      rw [hn']
      cases l <;> simp
    have hb := hc.symm
    rw [reverse_cons]
    have h1 := hb.fwd
    have h2 := hb.nodup
    rw [← append_nil l.reverse] at h1 h2
    refine h1.insert h2 ?_ ?_ fun c hcm hne => ?_
    · rw [hlast, update_self]
    · rw [append_nil] at h1
      rw [update_of_ne hxn, update_self, h1.last]
    · rw [hlast] at hne
      rw [append_nil, mem_cons, mem_reverse] at hcm
      have hcx : c ≠ x := fun he => hx (he ▸ mem_cons.mpr hcm)
      rw [update_of_ne hne, update_of_ne hcx]
  · rw [nodup_cons, mem_cons, not_or, nodup_cons]
    have hnd := nodup_cons.mp hc.nodup
    exact ⟨⟨hxh.symm, hnd.1⟩, fun hm => hx (mem_cons_of_mem _ hm), hnd.2⟩

/-- **A cell is put at the end**: `x->prev = h->prev; x->next = h; h->prev = x;
x->prev->next = x`. -/
theorem Circ.snoc (hc : Circ next prev h l) (hx : x ∉ h :: l) (hp : prev h = some p) :
    Circ (update (update next x (some h)) p (some x))
      (update (update prev x (some p)) h (some x)) h (l ++ [x]) := by
  have hx' : x ∉ h :: l.reverse := by
    rw [mem_cons, mem_reverse]
    rwa [mem_cons] at hx
  have h1 := (hc.symm.push hx' hp).symm
  rwa [reverse_cons, reverse_reverse] at h1

/-- **The first cell of a list is put in front of another list**, that has no cell of the first. -/
theorem Circ.move {g : α} {m : List α} (hc : Circ next prev h (x :: l)) (hm : Circ next prev g m)
    (hd : ∀ y ∈ h :: x :: l, y ∉ g :: m) (hn : next x = some n)
    (hnext : next' = update next h (some n)) (hprev : prev' = update prev n (some h)) :
    ∃ k, next' g = some k ∧
      Circ (update (update next' x (some k)) g (some x)) (update (update prev' x (some g)) k (some x))
        h l ∧
      Circ (update (update next' x (some k)) g (some x)) (update (update prev' x (some g)) k (some x))
        g (x :: m) := by
  subst hnext hprev
  have hfirst : Circ next prev h ([] ++ x :: l) := hc
  have hnm : n ∈ h :: x :: l := by
    rw [Option.some.inj (hn.symm.trans hfirst.next_eq)]
    cases l <;> simp
  have hrem : Circ (update next h (some n)) (update prev n (some h)) h l :=
    hfirst.remove hfirst.prev_eq hn
  have hm' : Circ (update next h (some n)) (update prev n (some h)) g m :=
    hm.congr (fun y hy => update_of_ne (fun he : y = h => hd h mem_cons_self (he ▸ hy)) _ _)
      fun y hy => update_of_ne (fun he : y = n => hd n hnm (he ▸ hy)) _ _
  have hk : m.headD g ∈ g :: m := by cases m <;> simp
  have hcell : ∀ y ∈ h :: l, y ≠ g ∧ y ≠ x ∧ y ≠ m.headD g := by
    intro y hy
    have hy' : y ∉ g :: m := hd y (by simp only [mem_cons] at hy ⊢; tauto)
    refine ⟨fun he => hy' (he ▸ mem_cons_self), ?_, fun he => hy' (he ▸ hk)⟩
    rintro rfl
    have := hc.nodup
    simp only [nodup_cons, mem_cons] at this hy
    tauto
  refine ⟨_, hm'.fwd.head, hrem.congr (fun y hy => ?_) fun y hy => ?_,
    hm'.push (hd x (by simp)) hm'.fwd.head⟩
  · rw [update_of_ne (hcell y hy).1, update_of_ne (hcell y hy).2.1]
  · rw [update_of_ne (hcell y hy).2.2, update_of_ne (hcell y hy).2.1]

end Lib
