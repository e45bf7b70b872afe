import OpusSysV.Lib.Comparator
import OpusSysV.Lib.Slots
import Mathlib.Data.Int.Notation
import Mathlib.Data.List.Perm.Subperm

/-!
# `qksort` of `sort/sort.c`

The pointers to lines are an array; with `-u` a line whose like is kept is emptied, and its slot
is none.  A comparison of an empty slot gives none.  Lines that come later come first in the
sorted array: `msort` takes them from its end.

* `Part`, `turn`, `part` — the pointers `i`, `lp`, `hp`, `j`, one turn of the partition, and all.
* `qksort` — the routine, at most so many calls deep.
* `Sides` — the slots below `i` come after the pivot, those above `j` before it, and those between
  `lp` and `hp` are like it.
* `turn_sides`, `part_spec` — a turn keeps this, and goes on towards the end.
* `qksort_spec` — the piece is sorted; nothing is lost, or with `-u` one line of each kind is kept.
-/

namespace Cmd

open Lib Function List Option

variable {α : Type} (compare : α → α → ℤ)

/-- `(*compare)(*p, *q)` -/
def cmpAt (v : ℕ → Option α) (p q : ℕ) : Option ℤ :=
  (v p).bind fun x => (v q).bind fun y => some (compare x y)

/-- `qsexc(p, q)` -/
def qsexc (v : ℕ → Option α) (p q : ℕ) : ℕ → Option α :=
  update (update v p (v q)) q (v p)

/-- `qstexc(p, q, r)` -/
def qstexc (v : ℕ → Option α) (p q r : ℕ) : ℕ → Option α :=
  let t := v p
  let v := update v p (v r)
  let v := update v r (v q)
  update v q t

/-- The array and the pointers into it. -/
structure Part (α : Type) where
  v : ℕ → Option α
  i : ℕ
  j : ℕ
  lp : ℕ
  hp : ℕ

namespace Part

/-- `loop:` one turn from there: none at the end, or whether it goes to `loop` again. -/
def loopTurn (s : Part α) : Option (Option (Bool × Part α)) :=
  if s.j > s.hp then
    (cmpAt compare s.v s.hp s.j).bind fun c =>
      if c = 0 then
        some (some (true, { s with hp := s.hp + 1, v := qsexc s.v (s.hp + 1) s.j }))
      else if c > 0 then
        if s.i = s.lp then
          some (some (true, { s with
            v := qstexc s.v s.i (s.hp + 1) s.j, hp := s.hp + 1, lp := s.lp + 1, i := s.lp + 1 }))
        else some (some (false, { s with v := qsexc s.v s.i s.j, j := s.j - 1, i := s.i + 1 }))
      else some (some (true, { s with j := s.j - 1 }))
  else if s.i = s.lp then some none
  else
    some (some (false, { s with
      lp := s.lp - 1, v := qstexc s.v s.j (s.lp - 1) s.i, hp := s.hp - 1, j := s.hp - 1 }))

/-- `for(;;)`: one turn, from `loop` or from the top. -/
def turn (loop : Bool) (s : Part α) : Option (Option (Bool × Part α)) :=
  if ¬ loop ∧ s.i < s.lp then
    (cmpAt compare s.v s.i s.lp).bind fun c =>
      if c = 0 then some (some (false, { s with lp := s.lp - 1, v := qsexc s.v s.i (s.lp - 1) }))
      else if c < 0 then some (some (false, { s with i := s.i + 1 }))
      else s.loopTurn compare
  else s.loopTurn compare

/-- The turns, at most `k`. -/
def part : ℕ → Bool → Part α → Option (Part α)
  | 0, _, _ => none
  | k + 1, loop, s =>
    (s.turn compare loop).bind fun
      | none => some s
      | some (loop, s) => part k loop s

end Part

/-- `MTHRESH` -/
def MTHRESH : ℕ := 8

/-- `if (n >= MTHRESH)`: the pivot, the median of three. -/
def pivot (v : ℕ → Option α) (a n : ℕ) : Option ℕ :=
  if n ≥ MTHRESH then
    let lp := a + n
    (cmpAt compare v lp (lp - 1)).bind fun c1 => (cmpAt compare v lp (lp + 1)).bind fun c2 =>
      let delta := (c1.sign + c2.sign).tdiv 2
      if delta ≠ 0 then
        (cmpAt compare v (lp - 1) (lp + 1)).bind fun c =>
          if c > 0 then some (n - delta).toNat
          else if c < 0 then some (n + delta).toNat
          else some n
      else some n
  else some n

/-- `for(k=lp; k<hp;) **k++ = '\0';` -/
def mark (lp hp : ℕ) (v : ℕ → Option α) : ℕ → Option α :=
  fun k => if lp ≤ k ∧ k < hp then none else v k

/-- `qksort(a, l)`, with at most so many calls and tail calls. -/
def qksort (uflg : Bool) : ℕ → ℕ → ℕ → (ℕ → Option α) → Option (ℕ → Option α)
  | k, a, l, v =>
    if l - a ≤ 1 then some v
    else
      match k with
      | 0 => none
      | k + 1 =>
        (pivot compare v a ((l - a) / 2)).bind fun n =>
        (Part.part compare (l - a) false ⟨v, a, l - 1, a + n, a + n⟩).bind fun s =>
          let v := if uflg then mark s.lp s.hp s.v else s.v
          if s.lp - a ≥ l - s.hp then
            (qksort uflg k (s.hp + 1) l v).bind (qksort uflg k a s.lp)
          else (qksort uflg k a s.lp v).bind (qksort uflg k (s.hp + 1) l)

/-! ## Exchanges -/

section exchange

variable {v : ℕ → Option α} {p q r a l : ℕ}

theorem qsexc_apply (v : ℕ → Option α) (p q k : ℕ) :
    qsexc v p q k = if k = q then v p else if k = p then v q else v k := by
  unfold qsexc
  rw [update_apply, update_apply]

theorem qstexc_apply (hpq : p ≠ q) (v : ℕ → Option α) (r k : ℕ) :
    qstexc v p q r k = if k = q then v p else if k = r then v q else if k = p then v r else v k := by
  unfold qstexc
  rw [update_apply, update_apply, update_apply, update_apply,
    if_neg hpq.symm]

theorem qsexc_rearranged (hp : a ≤ p ∧ p < l) (hq : a ≤ q ∧ q < l) :
    Rearranged a l v (qsexc v p q) := by
  have hswap : qsexc v p q = v ∘ Equiv.swap p q := by
    funext k
    rw [qsexc_apply, Function.comp_apply, Equiv.swap_apply_def]
    split_ifs <;> simp_all
  rw [hswap]
  exact .swap hp hq

theorem qstexc_rearranged (hpq : p ≠ q) (hpr : p ≠ r) (hp : a ≤ p ∧ p < l) (hq : a ≤ q ∧ q < l)
    (hr : a ≤ r ∧ r < l) : Rearranged a l v (qstexc v p q r) := by
  have htwo : qstexc v p q r = qsexc (qsexc v p r) r q := by
    funext k
    rw [qstexc_apply hpq, qsexc_apply, qsexc_apply, qsexc_apply, qsexc_apply]
    split_ifs <;> simp_all
  rw [htwo]
  exact (qsexc_rearranged hp hr).trans (qsexc_rearranged hr hq)

end exchange

/-! ## The partition -/

/-- How the entry of a slot compares with the pivot. -/
def side (p : α) : Option α → Option ℤ := Option.map fun x => (compare x p).sign

variable {compare}

/-- A comparison with an entry that is like the pivot. -/
theorem cmpAt_side (ho : IsCmp compare) {p : α} {v : ℕ → Option α} {k m : ℕ} (hk : (v k).isSome)
    (hm : side compare p (v m) = some 0) :
    (∃ c, cmpAt compare v k m = some c ∧ side compare p (v k) = some c.sign) ∧
      ∃ c, cmpAt compare v m k = some c ∧ side compare p (v k) = some (-c.sign) := by
  obtain ⟨x, hx⟩ := isSome_iff_exists.1 hk
  obtain ⟨y, hy, hyp⟩ := map_eq_some_iff.1 hm
  have hyp' : compare y p = 0 := Int.sign_eq_zero_iff_zero.1 hyp
  have hsign := ho.sign_congr hyp' x
  unfold cmpAt side
  rw [hx, hy]
  refine ⟨⟨compare x y, rfl, ?_⟩, compare y x, rfl, ?_⟩
  · rw [map_some, hsign]
  · rw [map_some, ho.sign_flip x y, hsign, neg_neg]

/-- What holds between the turns of the partition of the slots from `a` to before `l` of `v`; at
`loop` the entry at `i` is not to be left where it is. -/
structure Sides (compare : α → α → ℤ) (p : α) (a l : ℕ) (v : ℕ → Option α) (loop : Bool)
    (s : Part α) : Prop where
  order : a ≤ s.i ∧ s.i ≤ s.lp ∧ s.lp ≤ s.hp ∧ s.hp ≤ s.j ∧ s.j < l
  low : ∀ k, a ≤ k → k < s.i → side compare p (s.v k) = some (-1)
  mid : ∀ k, s.lp ≤ k → k ≤ s.hp → side compare p (s.v k) = some 0
  high : ∀ k, s.j < k → k < l → side compare p (s.v k) = some 1
  full : ∀ k, a ≤ k → k < l → (s.v k).isSome
  wrong : loop = true → s.i = s.lp ∨ side compare p (s.v s.i) = some 1
  same : Rearranged a l v s.v

/-- The slots that were not looked at. -/
def Part.size (s : Part α) : ℕ := (s.lp - s.i) + (s.j - s.hp)

/-- What a turn comes to. -/
def Goes (compare : α → α → ℤ) (p : α) (a l : ℕ) (v : ℕ → Option α) (s : Part α) :
    Option (Bool × Part α) → Prop
  | none => s.i = s.lp ∧ s.j = s.hp
  | some (loop, t) => Sides compare p a l v loop t ∧ t.size < s.size

section turns

variable {p : α} {a l : ℕ} {v : ℕ → Option α} {s : Part α} {loop : Bool}

/-- The pointers and the array after a turn. -/
theorem Sides.goes (h : Sides compare p a l v loop s) (loop' : Bool) {w : ℕ → Option α}
    {i j lp hp : ℕ} (order : a ≤ i ∧ i ≤ lp ∧ lp ≤ hp ∧ hp ≤ j ∧ j < l)
    (low : ∀ k, a ≤ k → k < i → side compare p (w k) = some (-1))
    (mid : ∀ k, lp ≤ k → k ≤ hp → side compare p (w k) = some 0)
    (high : ∀ k, j < k → k < l → side compare p (w k) = some 1)
    (wrong : loop' = true → i = lp ∨ side compare p (w i) = some 1)
    (hre : Rearranged a l s.v w) (hsize : (lp - i) + (j - hp) < s.size) :
    Goes compare p a l v s (some (loop', ⟨w, i, j, lp, hp⟩)) :=
  ⟨⟨order, low, mid, high, hre.isSome h.full, wrong, h.same.trans hre⟩, hsize⟩

/-- **A turn from `loop`** looks at a slot above, or puts the entry at `i` above. -/
theorem loopTurn_sides (ho : IsCmp compare) (h : Sides compare p a l v true s) :
    ∃ r, s.loopTurn compare = some r ∧ Goes compare p a l v s r := by
  obtain ⟨hai, hil, hlh, hhj, hjl⟩ := h.order
  have hlow := h.low
  have hmid := h.mid
  have hhigh := h.high
  have hwrong := h.wrong rfl
  have hsize : s.size = (s.lp - s.i) + (s.j - s.hp) := rfl
  unfold Part.loopTurn
  split
  · obtain ⟨c, hc, hside⟩ := (cmpAt_side ho (h.full s.j (by omega) hjl) (hmid s.hp hlh le_rfl)).2
    rw [hc, bind_some]
    split_ifs with h0 hpos hi
    · -- like the pivot
      have happ := qsexc_apply s.v (s.hp + 1) s.j
      refine ⟨_, rfl, h.goes true (by omega) ?_ ?_ ?_ ?_ ?_ (by omega)⟩
      · grind
      · grind
      · grind
      · grind
      · exact qsexc_rearranged (by omega) (by omega)
    · -- behind the pivot, and there is no entry to exchange it with
      have happ := qstexc_apply (by omega : s.i ≠ s.hp + 1) s.v s.j
      refine ⟨_, rfl, h.goes true (by omega) ?_ ?_ ?_ ?_ ?_ (by omega)⟩
      · grind
      · grind
      · grind
      · grind
      · exact qstexc_rearranged (by omega) (by omega) (by omega) (by omega) (by omega)
    · have happ := qsexc_apply s.v s.i s.j
      refine ⟨_, rfl, h.goes false (by omega) ?_ ?_ ?_ nofun ?_ (by omega)⟩
      · grind
      · grind
      · grind
      · exact qsexc_rearranged (by omega) (by omega)
    · -- before the pivot
      have hc1 := Int.sign_eq_neg_one_of_neg (show c < 0 by omega)
      refine ⟨_, rfl, h.goes true (by omega) hlow hmid ?_ (fun _ => hwrong) (.refl ..) (by omega)⟩
      grind
  · split_ifs with hi
    · exact ⟨_, rfl, hi, by omega⟩
    · have happ := qstexc_apply (by omega : s.j ≠ s.lp - 1) s.v s.i
      refine ⟨_, rfl, h.goes false (by omega) ?_ ?_ ?_ nofun ?_ (by omega)⟩
      · grind
      · grind
      · grind
      · exact qstexc_rearranged (by omega) (by omega) (by omega) (by omega) (by omega)

/-- **A turn** keeps the sides apart, and there are fewer slots to look at. -/
theorem turn_sides (ho : IsCmp compare) (h : Sides compare p a l v loop s) :
    ∃ r, s.turn compare loop = some r ∧ Goes compare p a l v s r := by
  obtain ⟨hai, hil, hlh, hhj, hjl⟩ := h.order
  have hlow := h.low
  have hmid := h.mid
  have hhigh := h.high
  have hsize : s.size = (s.lp - s.i) + (s.j - s.hp) := rfl
  unfold Part.turn
  split_ifs with htop
  · obtain ⟨c, hc, hside⟩ := (cmpAt_side ho (h.full s.i hai (by omega)) (hmid s.lp le_rfl hlh)).1
    rw [hc, bind_some]
    split_ifs with h0 hneg
    · have happ := qsexc_apply s.v s.i (s.lp - 1)
      refine ⟨_, rfl, h.goes false (by omega) ?_ ?_ ?_ nofun ?_ (by omega)⟩
      · grind
      · grind
      · grind
      · exact qsexc_rearranged (by omega) (by omega)
    · have hc1 := Int.sign_eq_neg_one_of_neg hneg
      refine ⟨_, rfl, h.goes false (by omega) ?_ hmid hhigh nofun (.refl ..) (by omega)⟩
      grind
    · have hc1 := Int.sign_eq_one_of_pos (show 0 < c by omega)
      exact loopTurn_sides ho ⟨h.order, hlow, hmid, hhigh, h.full,
        fun _ => .inr (by rw [hside, hc1]), h.same⟩
  · refine loopTurn_sides ho ⟨h.order, hlow, hmid, hhigh, h.full, fun _ => ?_, h.same⟩
    cases loop with
    | true => exact h.wrong rfl
    | false =>
      have : ¬ s.i < s.lp := fun hlt => htop ⟨Bool.false_ne_true, hlt⟩
      exact .inl (by omega)

/-- **The partition** ends, with the entries like the pivot from `lp` to `hp`. -/
theorem part_spec (ho : IsCmp compare) (k : ℕ) (h : Sides compare p a l v loop s)
    (hk : s.size < k) :
    ∃ t, Part.part compare k loop s = some t ∧ Sides compare p a l v true t ∧ t.i = t.lp ∧
      t.j = t.hp := by
  induction k generalizing loop s with
  | zero => omega
  | succ k ih =>
    obtain ⟨r, hr, hgoes⟩ := turn_sides ho h
    unfold Part.part
    rw [hr, bind_some]
    cases r with
    | none =>
      obtain ⟨hi, hj⟩ := hgoes
      exact ⟨s, rfl, ⟨h.order, h.low, h.mid, h.high, h.full, fun _ => .inl hi, h.same⟩, hi, hj⟩
    | some r =>
      obtain ⟨loop', t⟩ := r
      obtain ⟨ht, hlt⟩ := hgoes
      exact ih ht (by omega)

end turns

/-! ## The routine -/

/-- What is kept of some lines: all, or with `-u` some that all are like. -/
def Reduced (compare : α → α → ℤ) (uflg : Bool) (old new : List α) : Prop :=
  if uflg then new.Subperm old ∧ ∀ x ∈ old, ∃ y ∈ new, compare x y = 0 else new.Perm old

namespace Reduced

variable {uflg : Bool} {old old' new new' : List α}

theorem refl (ho : IsCmp compare) (uflg : Bool) (old : List α) :
    Reduced compare uflg old old := by
  unfold Reduced
  split_ifs
  · exact ⟨.refl _, fun x hx => ⟨x, hx, ho.self x⟩⟩
  · exact .refl _

section

variable (h : Reduced compare uflg old new)

include h

theorem append (h' : Reduced compare uflg old' new') :
    Reduced compare uflg (old ++ old') (new ++ new') := by
  unfold Reduced at h h' ⊢
  split_ifs at h h' ⊢
  · refine ⟨h.1.append h'.1, fun x hx => ?_⟩
    rcases mem_append.1 hx with hx | hx
    · obtain ⟨y, hy, hxy⟩ := h.2 x hx
      exact ⟨y, mem_append_left _ hy, hxy⟩
    · obtain ⟨y, hy, hxy⟩ := h'.2 x hx
      exact ⟨y, mem_append_right _ hy, hxy⟩
  · exact h.append h'

theorem perm (hp : old.Perm old') :
    Reduced compare uflg old' new := by
  unfold Reduced at h ⊢
  split_ifs at h ⊢
  · exact ⟨h.1.trans hp.subperm, fun x hx => h.2 x (hp.mem_iff.2 hx)⟩
  · exact h.trans hp

theorem length_le : new.length ≤ old.length := by
  unfold Reduced at h
  split_ifs at h
  · exact h.1.length_le
  · exact h.length_eq.le

theorem mem {x : α} (hx : x ∈ new) : x ∈ old := by
  unfold Reduced at h
  split_ifs at h
  · exact h.1.subset hx
  · exact h.mem_iff.1 hx

end

end Reduced

/-- What the slots from `a` to before `l` hold in `v` is sorted in `w`, the lines that come later
first. -/
structure InOrder (compare : α → α → ℤ) (uflg : Bool) (a l : ℕ) (v w : ℕ → Option α) : Prop where
  order : (filled w a l).Pairwise fun x y => 0 ≤ compare y x
  content : Reduced compare uflg (filled v a l) (filled w a l)
  last : a < l → (w (l - 1)).isSome
  full : uflg = false → ∀ k, a ≤ k → k < l → (w k).isSome

namespace InOrder

variable {uflg : Bool} {a b l : ℕ} {v w w' : ℕ → Option α}

/-- Only the slots of the piece matter. -/
theorem congr (h : InOrder compare uflg a l v w) (v' : ℕ → Option α)
    (hv : ∀ k, a ≤ k → k < l → v' k = v k)
    (hw : ∀ k, a ≤ k → k < l → w' k = w k) : InOrder compare uflg a l v' w' := by
  refine ⟨?_, ?_, fun hal => ?_, fun hu k hak hkl => ?_⟩
  · rw [filled_congr hw]
    exact h.order
  · rw [filled_congr hw, filled_congr hv]
    exact h.content
  · rw [hw (l - 1) (by omega) (by omega)]
    exact h.last hal
  · rw [hw k hak hkl]
    exact h.full hu k hak hkl

/-- One slot is in order. -/
theorem one (ho : IsCmp compare) (uflg : Bool) (hl : l ≤ a + 1)
    (hv : ∀ k, a ≤ k → k < l → (v k).isSome) : InOrder compare uflg a l v v := by
  refine ⟨?_, .refl ho uflg _, fun hal => hv _ (by omega) (by omega), fun _ => hv⟩
  exact filled_pairwise fun j k y z _ _ _ => by omega

/-- **Two neighbouring pieces**, the first of which comes later. -/
theorem join (hab : a ≤ b) (hbl : b ≤ l) (h : InOrder compare uflg a b v w)
    (h' : InOrder compare uflg b l v w)
    (hcross : ∀ x ∈ filled w a b, ∀ y ∈ filled w b l, 0 ≤ compare y x) :
    InOrder compare uflg a l v w := by
  refine ⟨?_, ?_, fun hal => ?_, fun hu k hak hkl => ?_⟩
  · rw [filled_append hab hbl]
    exact pairwise_append.2 ⟨h.order, h'.order, hcross⟩
  · rw [filled_append hab hbl, filled_append hab hbl]
    exact h.content.append h'.content
  · rcases Nat.lt_or_eq_of_le hbl with hlt | rfl
    · exact h'.last hlt
    · exact h.last hal
  · rcases Nat.lt_or_ge k b with hlt | hge
    · exact h.full hu k hak hlt
    · exact h'.full hu k hge hkl

end InOrder

/-- The piece from `a` to before `l` of `v` is sorted in `w`, and nothing else is changed. -/
structure Quick (compare : α → α → ℤ) (uflg : Bool) (a l : ℕ) (v w : ℕ → Option α) : Prop
    extends InOrder compare uflg a l v w where
  outside : ∀ k, k < a ∨ l ≤ k → w k = v k

section routine

variable {uflg : Bool} {a l : ℕ} {v w : ℕ → Option α} {p : α} {s : Part α}

theorem cmpAt_some {j k : ℕ} (hj : (v j).isSome) (hk : (v k).isSome) :
    ∃ c, cmpAt compare v j k = some c := by
  obtain ⟨x, hx⟩ := isSome_iff_exists.1 hj
  obtain ⟨y, hy⟩ := isSome_iff_exists.1 hk
  unfold cmpAt
  rw [hx, hy]
  exact ⟨_, rfl⟩

/-- The pivot is a slot of the piece. -/
theorem pivot_spec (hv : ∀ k, a ≤ k → k < l → (v k).isSome) (hl : 2 ≤ l - a) :
    ∃ n, pivot compare v a ((l - a) / 2) = some n ∧ a + n < l := by
  unfold pivot MTHRESH
  split_ifs with hbig
  · have hsome : ∀ j k, a ≤ j → j < l → a ≤ k → k < l → ∃ c, cmpAt compare v j k = some c :=
      fun j k h1 h2 h3 h4 => cmpAt_some (hv j h1 h2) (hv k h3 h4)
    obtain ⟨c1, h1⟩ := hsome (a + (l - a) / 2) (a + (l - a) / 2 - 1) (by omega) (by omega)
      (by omega) (by omega)
    obtain ⟨c2, h2⟩ := hsome (a + (l - a) / 2) (a + (l - a) / 2 + 1) (by omega) (by omega)
      (by omega) (by omega)
    obtain ⟨c3, h3⟩ := hsome (a + (l - a) / 2 - 1) (a + (l - a) / 2 + 1) (by omega) (by omega)
      (by omega) (by omega)
    dsimp only
    rw [h1, bind_some, h2, bind_some, h3, bind_some]
    have hdelta : -1 ≤ (c1.sign + c2.sign).tdiv 2 ∧ (c1.sign + c2.sign).tdiv 2 ≤ 1 := by
      rcases Int.sign_trichotomy c1 with h | h | h <;>
      rcases Int.sign_trichotomy c2 with h' | h' | h' <;> rw [h, h'] <;> decide
    split_ifs
    · exact ⟨_, rfl, by omega⟩
    · exact ⟨_, rfl, by omega⟩
    · exact ⟨_, rfl, by omega⟩
    · exact ⟨_, rfl, by omega⟩
  · exact ⟨_, rfl, by omega⟩

/-- What is like the pivot, or comes before it, comes before what is like it, or comes after. -/
theorem around_pivot (ho : IsCmp compare) {x y : α} {c d : ℤ}
    (hx : (compare x p).sign = c) (hc : c ≤ 0) (hy : (compare y p).sign = d) (hd : 0 ≤ d) :
    0 ≤ compare y x := by
  have hpx : 0 ≤ compare p x := by
    have := ho.sign_flip x p
    rw [hx] at this
    exact Int.sign_nonneg_iff.1 (by omega)
  exact ho.trans y p x (Int.sign_nonneg_iff.1 (by omega)) hpx

/-- The entries like the pivot, of which `-u` keeps the last one. -/
theorem mid_inOrder (ho : IsCmp compare) (h : Sides compare p a l v true s) (uflg : Bool) :
    InOrder compare uflg s.lp (s.hp + 1) s.v (if uflg then mark s.lp s.hp s.v else s.v) := by
  obtain ⟨hai, hil, hlh, hhj, hjl⟩ := h.order
  have hlike : ∀ x ∈ filled s.v s.lp (s.hp + 1), (compare x p).sign = 0 := by
    intro x hx
    obtain ⟨k, hlk, hkh, hk⟩ := mem_filled.1 hx
    have := h.mid k hlk (by omega)
    rw [hk] at this
    exact some_inj.1 this
  have hsome : ∀ k, s.lp ≤ k → k < s.hp + 1 → (s.v k).isSome := fun k h1 h2 =>
    h.full k (by omega) (by omega)
  cases uflg with
  | false =>
    refine ⟨?_, .refl ho _ _, fun _ => hsome _ (by omega) (by omega), fun _ => hsome⟩
    refine filled_pairwise fun j k y z hj hjk hk hy hz => ?_
    exact around_pivot ho (hlike y (mem_filled.2 ⟨j, hj, by omega, hy⟩)) le_rfl
      (hlike z (mem_filled.2 ⟨k, by omega, hk, hz⟩)) le_rfl
  | true =>
    rw [if_pos rfl]
    have hmark : ∀ k, s.hp ≤ k → mark s.lp s.hp s.v k = s.v k := fun k hk => by
      unfold mark
      rw [if_neg (by omega)]
    have hnone : filled (mark s.lp s.hp s.v) s.lp s.hp = [] := by
      refine eq_nil_iff_forall_not_mem.2 fun x hx => ?_
      obtain ⟨k, hlk, hkh, hk⟩ := mem_filled.1 hx
      unfold mark at hk
      rw [if_pos ⟨hlk, hkh⟩] at hk
      exact nomatch hk
    obtain ⟨x, hx⟩ := isSome_iff_exists.1 (hsome s.hp hlh (by omega))
    have hkept : filled (mark s.lp s.hp s.v) s.lp (s.hp + 1) = [x] := by
      rw [filled_append hlh (by omega), hnone, filled_one, hmark s.hp le_rfl, hx]
      rfl
    have hxold : x ∈ filled s.v s.lp (s.hp + 1) := mem_filled.2 ⟨s.hp, hlh, by omega, hx⟩
    refine ⟨?_, ?_, fun _ => ?_, nofun⟩
    · rw [hkept]
      exact pairwise_singleton _ _
    · rw [hkept]
      refine ⟨singleton_subperm_iff.2 hxold, fun y hy => ⟨x, mem_singleton_self x, ?_⟩⟩
      have hxp : compare x p = 0 := Int.sign_eq_zero_iff_zero.1 (hlike x hxold)
      rw [← Int.sign_eq_zero_iff_zero, ho.sign_congr hxp y]
      exact hlike y hy
    · rw [Nat.add_sub_cancel, hmark s.hp le_rfl]
      exact hsome s.hp hlh (by omega)

/-- **The three parts**, when the two outer ones are sorted. -/
theorem parts_inOrder (ho : IsCmp compare) (h : Sides compare p a l v true s) (hi : s.i = s.lp)
    (hj : s.j = s.hp)
    (hlow : InOrder compare uflg a s.lp (if uflg then mark s.lp s.hp s.v else s.v) w)
    (hhigh : InOrder compare uflg (s.hp + 1) l (if uflg then mark s.lp s.hp s.v else s.v) w)
    (hmid : ∀ k, s.lp ≤ k → k < s.hp + 1 → w k = (if uflg then mark s.lp s.hp s.v else s.v) k) :
    InOrder compare uflg a l v w := by
  obtain ⟨hai, hil, hlh, hhj, hjl⟩ := h.order
  have hkeep : ∀ k, k < s.lp ∨ s.hp ≤ k →
      s.v k = (if uflg then mark s.lp s.hp s.v else s.v) k := fun k hk => by
    split_ifs
    · unfold mark
      rw [if_neg (by omega)]
    · rfl
  have hlow' := hlow.congr s.v (fun k _ hk => hkeep k (.inl hk)) fun _ _ _ => rfl
  have hhigh' := hhigh.congr s.v (fun k hk _ => hkeep k (.inr (by omega))) fun _ _ _ => rfl
  have hmid' := (mid_inOrder ho h uflg).congr _ (fun _ _ _ => rfl) hmid
  -- where the entries of each part came from
  have hsign : ∀ {b c : ℕ} {d : ℤ}, InOrder compare uflg b c s.v w →
      (∀ k, b ≤ k → k < c → side compare p (s.v k) = some d) →
      ∀ x ∈ filled w b c, (compare x p).sign = d := by
    intro b c d hin hd x hx
    obtain ⟨k, hbk, hkc, hk⟩ := mem_filled.1 (hin.content.mem hx)
    have := hd k hbk hkc
    rw [hk] at this
    exact some_inj.1 this
  have hneg := hsign hlow' fun k hk hkl => h.low k hk (by omega)
  have hzero := hsign hmid' fun k hk hkh => h.mid k hk (by omega)
  have hpos := hsign hhigh' fun k hk hkl => h.high k (by omega) hkl
  have hupper := hmid'.join (by omega) (by omega) hhigh' fun x hx y hy =>
    around_pivot ho (hzero x hx) le_rfl (hpos y hy) (by decide)
  have hall := hlow'.join (by omega) (by omega) hupper fun x hx y hy => by
    rw [filled_append (b := s.hp + 1) (by omega) (by omega), mem_append] at hy
    rcases hy with hy | hy
    · exact around_pivot ho (hneg x hx) (by decide) (hzero y hy) le_rfl
    · exact around_pivot ho (hneg x hx) (by decide) (hpos y hy) (by decide)
  exact ⟨hall.order, hall.content.perm h.same.perm, hall.last, hall.full⟩

/-- **`qksort` sorts a piece**, and compares no emptied line. -/
theorem qksort_spec (ho : IsCmp compare) (uflg : Bool) (k a l : ℕ) (v : ℕ → Option α)
    (hk : l - a ≤ k) (hv : ∀ j, a ≤ j → j < l → (v j).isSome) :
    ∃ w, qksort compare uflg k a l v = some w ∧ Quick compare uflg a l v w := by
  induction k generalizing a l v with
  | zero =>
    refine ⟨v, ?_, .one ho uflg (by omega) hv, fun _ _ => rfl⟩
    rw [qksort, if_pos (by omega)]
  | succ k ih =>
    by_cases hsmall : l - a ≤ 1
    · refine ⟨v, ?_, .one ho uflg (by omega) hv, fun _ _ => rfl⟩
      rw [qksort, if_pos hsmall]
    rw [qksort, if_neg hsmall]
    obtain ⟨n, hn, hnl⟩ := pivot_spec hv (by omega)
    obtain ⟨p, hp⟩ := isSome_iff_exists.1 (hv (a + n) (by omega) hnl)
    have hstart : Sides compare p a l v false ⟨v, a, l - 1, a + n, a + n⟩ := by
      refine ⟨by dsimp only; omega, fun j h1 h2 => absurd h2 (not_lt.2 h1), fun j h1 h2 => ?_, ?_,
        hv, nofun, .refl ..⟩
      · obtain rfl : j = a + n := le_antisymm h2 h1
        dsimp only
        rw [hp]
        unfold side
        rw [map_some, ho.self p]
        rfl
      · dsimp only
        omega
    obtain ⟨s, hs, hsides, hi, hj⟩ := part_spec ho (l - a) hstart (by unfold Part.size; dsimp only; omega)
    dsimp only
    rw [hn, bind_some, hs, bind_some]
    obtain ⟨hai, hil, hlh, hhj, hjl⟩ := hsides.order
    obtain ⟨u, hu⟩ : ∃ u, u = if uflg then mark s.lp s.hp s.v else s.v := ⟨_, rfl⟩
    have hufull : ∀ j, a ≤ j → j < l → j < s.lp ∨ s.hp ≤ j → (u j).isSome := by
      intro j h1 h2 h3
      rw [hu]
      split_ifs
      · unfold mark
        rw [if_neg (by omega)]
        exact hsides.full j h1 h2
      · exact hsides.full j h1 h2
    have hout : ∀ j, j < a ∨ l ≤ j → u j = v j := by
      intro j hj
      rw [hu, ← hsides.same.outside hj]
      split_ifs
      · unfold mark
        rw [if_neg (by omega)]
      · rfl
    rw [← hu]
    -- the two outer parts, in the one order or the other
    split_ifs with hlong
    · obtain ⟨w₁, hw₁, h₁⟩ := ih (s.hp + 1) l u (by omega) fun j h1 h2 =>
        hufull j (by omega) h2 (by omega)
      obtain ⟨w, hw, h₂⟩ := ih a s.lp w₁ (by omega) fun j h1 h2 => by
        rw [h₁.outside j (by omega)]
        exact hufull j h1 (by omega) (by omega)
      refine ⟨w, by rw [hw₁, bind_some, hw], ?_, fun j hj => ?_⟩
      · refine parts_inOrder ho hsides hi hj ?_ ?_ fun j h1 h2 => ?_ <;> rw [← hu]
        · exact h₂.congr _ (fun j _ h2 => (h₁.outside j (by omega)).symm) fun _ _ _ => rfl
        · exact h₁.congr _ (fun _ _ _ => rfl) fun j h1 _ => h₂.outside j (by omega)
        · rw [h₂.outside j (by omega), h₁.outside j (by omega)]
      · rw [h₂.outside j (by omega), h₁.outside j (by omega), hout j hj]
    · obtain ⟨w₁, hw₁, h₁⟩ := ih a s.lp u (by omega) fun j h1 h2 =>
        hufull j h1 (by omega) (by omega)
      obtain ⟨w, hw, h₂⟩ := ih (s.hp + 1) l w₁ (by omega) fun j h1 h2 => by
        rw [h₁.outside j (by omega)]
        exact hufull j (by omega) h2 (by omega)
      refine ⟨w, by rw [hw₁, bind_some, hw], ?_, fun j hj => ?_⟩
      · refine parts_inOrder ho hsides hi hj ?_ ?_ fun j h1 h2 => ?_ <;> rw [← hu]
        · exact h₁.congr _ (fun _ _ _ => rfl) fun j _ h2 => h₂.outside j (by omega)
        · exact h₂.congr _ (fun j h1 _ => (h₁.outside j (by omega)).symm) fun _ _ _ => rfl
        · rw [h₂.outside j (by omega), h₁.outside j (by omega)]
      · rw [h₂.outside j (by omega), h₁.outside j (by omega), hout j hj]

end routine

end Cmd
