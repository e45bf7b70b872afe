import Mathlib

/-!
# Trees of blocks

A root in each of several slots names a block or is zero, and so does each of the entries of a
block, down to the depth of the slot.  The place of a block is its slot and the indices that
lead to it, the last one first.

* `node` — the block at a place, or zero.
* `Injective` — no block is at two places; `node_fill`, `node_fill_root` and `Injective.fill`
  say what it is to fill an empty entry with a new block.
* `index` — the indices that lead to a leaf with a number; `index_injective`.
* `blocks` — the blocks below a block, children first; `blocks_eq` gives them by place, and
  with `Injective` no block comes twice (`nodup_allBlocks`, `mem_allBlocks`).
-/

namespace Lib

open List

namespace Radix

variable {ι : Type*}

/-- The block at a place. -/
def node (root : ι → ℕ) (ent : ℕ → ℕ → ℕ) (t : ι) : List ℕ → ℕ
  | [] => root t
  | i :: p => if node root ent t p = 0 then 0 else ent (node root ent t p) i

/-- A place of a tree whose blocks have `n` entries each. -/
def Valid (depth : ι → ℕ) (n : ℕ) (t : ι) (p : List ℕ) : Prop :=
  p.length ≤ depth t ∧ ∀ i ∈ p, i < n

/-- No block is at two places. -/
def Injective (depth : ι → ℕ) (n : ℕ) (root : ι → ℕ) (ent : ℕ → ℕ → ℕ) : Prop :=
  ∀ t p t' p', Valid depth n t p → Valid depth n t' p' → node root ent t p ≠ 0 →
    node root ent t p = node root ent t' p' → t = t' ∧ p = p'

section node

variable {depth : ι → ℕ} {n : ℕ} {root root' : ι → ℕ} {ent ent' : ℕ → ℕ → ℕ}
variable {t t' : ι} {p q : List ℕ} {i v : ℕ}

theorem Valid.tail (h : Valid depth n t (i :: p)) : Valid depth n t p :=
  ⟨Nat.le_of_succ_le h.1, fun j hj => h.2 j (mem_cons_of_mem _ hj)⟩

theorem Valid.head_lt (h : Valid depth n t (i :: p)) : i < n := h.2 i mem_cons_self

theorem Valid.length_lt (h : Valid depth n t (i :: p)) : p.length < depth t := h.1

theorem node_cons (hp : node root ent t p ≠ 0) :
    node root ent t (i :: p) = ent (node root ent t p) i := if_neg hp

theorem node_cons_zero (hp : node root ent t p = 0) : node root ent t (i :: p) = 0 := if_pos hp

/-- Only the entries of blocks above the leaves matter. -/
theorem node_congr (h : ∀ p, Valid depth n t p → p.length < depth t → node root ent t p ≠ 0 →
      ∀ i < n, ent' (node root ent t p) i = ent (node root ent t p) i)
    (hv : Valid depth n t p) : node root ent' t p = node root ent t p := by
  induction p with
  | nil => rfl
  | cons i p ih =>
    have hp := ih hv.tail
    by_cases h0 : node root ent t p = 0
    · rw [node_cons_zero h0, node_cons_zero (by rw [hp, h0])]
    · rw [node_cons h0, node_cons (by rw [hp]; exact h0), hp]
      exact h p hv.tail hv.length_lt h0 i hv.head_lt

/-- An empty entry of the block at a place is filled with a new block, whose own entries are
cleared. -/
theorem node_fill (hinj : Injective depth n root ent) (hv : Valid depth n t (i :: p))
    (hblock : node root ent t p ≠ 0) (hempty : ent (node root ent t p) i = 0)
    (hfresh : ∀ t' q, Valid depth n t' q → node root ent t' q ≠ v)
    (hclear : ∀ j < n, ent' v j = 0)
    (hent : ∀ b, b ≠ v → ∀ j < n,
      ent' b j = if b = node root ent t p ∧ j = i then v else ent b j)
    (hq : Valid depth n t' q) :
    (t' = t ∧ q = i :: p → node root ent' t' q = v) ∧
      (¬ (t' = t ∧ q = i :: p) → node root ent' t' q = node root ent t' q) := by
  induction q with
  | nil => exact ⟨fun h => absurd h.2 (by simp), fun _ => rfl⟩
  | cons j q ih =>
    obtain ⟨hnew, hold⟩ := ih hq.tail
    by_cases hplace : t' = t ∧ q = i :: p
    · -- below the new block there is nothing
      have hne : ¬ (t' = t ∧ j :: q = i :: p) := by
        rintro ⟨-, h⟩
        have hlen := congrArg List.length h
        rw [hplace.2] at hlen
        simp at hlen
      refine ⟨fun h => absurd h hne, fun _ => ?_⟩
      have hold0 : node root ent t' (j :: q) = 0 := by
        refine node_cons_zero ?_
        rw [hplace.1, hplace.2, node_cons hblock, hempty]
      rw [hold0]
      by_cases h0 : node root ent' t' q = 0
      · exact node_cons_zero h0
      · rw [node_cons h0, hnew hplace]
        exact hclear j hq.head_lt
    · have hsame := hold hplace
      by_cases h0 : node root ent t' q = 0
      · have hnot : ¬ (t' = t ∧ j :: q = i :: p) := by
          rintro ⟨rfl, h⟩
          cases h
          exact hblock h0
        refine ⟨fun h => absurd h hnot, fun _ => ?_⟩
        rw [node_cons_zero h0, node_cons_zero (by rw [hsame, h0])]
      · rw [node_cons h0, node_cons (by rw [hsame]; exact h0), hsame,
          hent _ (hfresh t' q hq.tail) j hq.head_lt]
        by_cases heq : node root ent t' q = node root ent t p ∧ j = i
        · obtain ⟨rfl, rfl⟩ := hinj t' q t p hq.tail hv.tail h0 heq.1
          rw [if_pos heq, heq.2]
          exact ⟨fun _ => rfl, fun h => absurd ⟨rfl, rfl⟩ h⟩
        · rw [if_neg heq]
          refine ⟨?_, fun _ => rfl⟩
          rintro ⟨rfl, h⟩
          cases h
          exact absurd ⟨rfl, rfl⟩ heq

/-- An empty slot is filled with a new block. -/
theorem node_fill_root (hempty : root t = 0)
    (hfresh : ∀ t' q, Valid depth n t' q → node root ent t' q ≠ v)
    (hclear : ∀ j < n, ent' v j = 0) (hent : ∀ b, b ≠ v → ∀ j < n, ent' b j = ent b j)
    (hself : root' t = v) (hroot : ∀ t', t' ≠ t → root' t' = root t')
    (hq : Valid depth n t' q) :
    (t' = t ∧ q = [] → node root' ent' t' q = v) ∧
      (¬ (t' = t ∧ q = []) → node root' ent' t' q = node root ent t' q) := by
  induction q with
  | nil =>
    refine ⟨fun h => by rw [h.1]; exact hself, fun h => ?_⟩
    exact hroot t' fun ht => h ⟨ht, rfl⟩
  | cons j q ih =>
    obtain ⟨hnew, hold⟩ := ih hq.tail
    refine ⟨fun h => absurd h.2 (by simp), fun _ => ?_⟩
    by_cases hplace : t' = t ∧ q = []
    · have hold0 : node root ent t' (j :: q) = 0 := by
        refine node_cons_zero ?_
        rw [hplace.1, hplace.2]
        exact hempty
      rw [hold0]
      by_cases h0 : node root' ent' t' q = 0
      · exact node_cons_zero h0
      · rw [node_cons h0, hnew hplace]
        exact hclear j hq.head_lt
    · have hsame := hold hplace
      by_cases h0 : node root ent t' q = 0
      · rw [node_cons_zero h0, node_cons_zero (by rw [hsame, h0])]
      · rw [node_cons h0, node_cons (by rw [hsame]; exact h0), hsame]
        exact hent _ (hfresh t' q hq.tail) j hq.head_lt

/-- A new block at an empty place keeps blocks apart. -/
theorem Injective.fill (hinj : Injective depth n root ent)
    (hfresh : ∀ t' q, Valid depth n t' q → node root ent t' q ≠ v)
    (hnode : ∀ t' q, Valid depth n t' q →
      (t' = t ∧ q = p → node root' ent' t' q = v) ∧
        (¬ (t' = t ∧ q = p) → node root' ent' t' q = node root ent t' q)) :
    Injective depth n root' ent' := by
  intro t₁ p₁ t₂ p₂ hv₁ hv₂ hne heq
  by_cases h₁ : t₁ = t ∧ p₁ = p
  · by_cases h₂ : t₂ = t ∧ p₂ = p
    · exact ⟨h₁.1.trans h₂.1.symm, h₁.2.trans h₂.2.symm⟩
    · rw [(hnode _ _ hv₁).1 h₁, (hnode _ _ hv₂).2 h₂] at heq
      exact absurd heq.symm (hfresh _ _ hv₂)
  · by_cases h₂ : t₂ = t ∧ p₂ = p
    · rw [(hnode _ _ hv₁).2 h₁, (hnode _ _ hv₂).1 h₂] at heq
      exact absurd heq (hfresh _ _ hv₁)
    · rw [(hnode _ _ hv₁).2 h₁] at hne heq
      rw [(hnode _ _ hv₂).2 h₂] at heq
      exact hinj _ _ _ _ hv₁ hv₂ hne heq

end node

/-! ## Numbers of leaves -/

/-- The indices of leaf `x` in a tree of depth `d`. -/
def index (n : ℕ) : ℕ → ℕ → List ℕ
  | 0, _ => []
  | d + 1, x => x % n :: index n d (x / n)

section index

variable {n d x y : ℕ}

@[simp] theorem length_index : (index n d x).length = d := by
  induction d generalizing x with
  | zero => rfl
  | succ d ih => rw [index, length_cons, ih]

theorem index_lt (hn : 0 < n) : ∀ i ∈ index n d x, i < n := by
  induction d generalizing x with
  | zero => intro i hi; cases hi
  | succ d ih =>
    intro i hi
    rcases mem_cons.mp hi with rfl | hi
    · exact Nat.mod_lt x hn
    · exact ih i hi

/-- The first index on the way from the root is the last of the list. -/
theorem index_succ_eq : index n (d + 1) x = index n d x ++ [x / n ^ d % n] := by
  induction d generalizing x with
  | zero => simp [index]
  | succ d ih =>
    rw [index, ih, index, cons_append, Nat.div_div_eq_div_mul, ← Nat.pow_succ']

theorem index_injective (hx : x < n ^ d) (hy : y < n ^ d) (h : index n d x = index n d y) :
    x = y := by
  induction d generalizing x y with
  | zero =>
    rw [Nat.pow_zero] at hx hy
    omega
  | succ d ih =>
    obtain ⟨hmod, htail⟩ := List.cons.inj h
    rw [Nat.pow_succ'] at hx hy
    have hdiv := ih (Nat.div_lt_of_lt_mul hx) (Nat.div_lt_of_lt_mul hy) htail
    rw [← Nat.div_add_mod x n, ← Nat.div_add_mod y n, hmod, hdiv]

end index

/-! ## All blocks -/

/-- The places below a place, children from the last one on and before their parent. -/
def under (n : ℕ) : ℕ → List ℕ → List (List ℕ)
  | 0, p => [p]
  | k + 1, p => ((List.range n).reverse.flatMap fun i => under n k (i :: p)) ++ [p]

/-- The blocks below a block, in the same order. -/
def blocks (n : ℕ) (ent : ℕ → ℕ → ℕ) : ℕ → ℕ → List ℕ
  | 0, b => [b]
  | k + 1, b =>
    ((List.range n).reverse.flatMap fun i =>
      if ent b i = 0 then [] else blocks n ent k (ent b i)) ++ [b]

/-- The blocks of all slots. -/
def allBlocks (n : ℕ) (depth : ι → ℕ) (root : ι → ℕ) (ent : ℕ → ℕ → ℕ) (slots : List ι) :
    List ℕ :=
  slots.flatMap fun t => if root t = 0 then [] else blocks n ent (depth t) (root t)

section blocks

variable {depth : ι → ℕ} {n k b : ℕ} {root : ι → ℕ} {ent ent' : ℕ → ℕ → ℕ}
variable {t : ι} {p q : List ℕ} {slots : List ι}

theorem mem_under : q ∈ under n k p ↔ ∃ r, q = r ++ p ∧ r.length ≤ k ∧ ∀ i ∈ r, i < n := by
  induction k generalizing p q with
  | zero =>
    rw [under, mem_singleton]
    constructor
    · rintro rfl
      exact ⟨[], rfl, le_rfl, by simp⟩
    · rintro ⟨r, rfl, hr, -⟩
      rw [length_eq_zero_iff.mp (Nat.le_zero.mp hr)]
      rfl
  | succ k ih =>
    rw [under, mem_append, mem_flatMap, mem_singleton]
    constructor
    · rintro (⟨i, hi, hq⟩ | rfl)
      · obtain ⟨r, rfl, hr, hlt⟩ := ih.mp hq
        rw [mem_reverse, mem_range] at hi
        refine ⟨r ++ [i], by simp, by simpa using hr, fun j hj => ?_⟩
        rcases mem_append.mp hj with hj | hj
        · exact hlt j hj
        · rw [mem_singleton.mp hj]
          exact hi
      · exact ⟨[], rfl, Nat.zero_le _, by simp⟩
    · rintro ⟨r, rfl, hr, hlt⟩
      rcases eq_nil_or_concat r with rfl | ⟨r, i, rfl⟩
      · exact .inr rfl
      · left
        refine ⟨i, ?_, ?_⟩
        · rw [mem_reverse, mem_range]
          exact hlt i (by simp)
        · refine ih.mpr ⟨r, by simp, by simpa using hr, fun j hj => hlt j (by simp [hj])⟩

theorem suffix_of_mem_under (h : q ∈ under n k p) : p <:+ q := by
  obtain ⟨r, rfl, -, -⟩ := mem_under.mp h
  exact suffix_append r p

theorem nodup_under : (under n k p).Nodup := by
  induction k generalizing p with
  | zero => exact nodup_singleton p
  | succ k ih =>
    rw [under, nodup_append]
    refine ⟨nodup_flatMap.mpr ⟨fun i _ => ih, ?_⟩, nodup_singleton p, ?_⟩
    · -- the last index tells two children apart
      refine (nodup_reverse.mpr nodup_range).imp fun {i j} hij q hi hj => hij ?_
      have h1 := suffix_of_mem_under hi
      have h2 := suffix_of_mem_under hj
      have heq := (suffix_of_suffix_length_le h1 h2 le_rfl).eq_of_length rfl
      exact (List.cons.inj heq).1
    · intro q hq q' hq' heq
      rw [mem_singleton.mp hq'] at heq
      obtain ⟨i, -, hq⟩ := mem_flatMap.mp hq
      have := (suffix_of_mem_under hq).length_le
      rw [heq, length_cons] at this
      omega

/-- The blocks below a block by their places. -/
theorem blocks_eq (hb : node root ent t p ≠ 0) : blocks n ent k (node root ent t p) =
    ((under n k p).map (node root ent t)).filter (· ≠ 0) := by
  induction k generalizing p with
  | zero =>
    rw [blocks, under, map_singleton, filter_singleton]
    simp [hb]
  | succ k ih =>
    rw [blocks, under, map_append, filter_append, map_flatMap, filter_flatMap]
    congr 1
    · refine flatMap_congr fun i _ => ?_
      split_ifs with h0
      · -- nothing is below an empty entry
        have hzero : ∀ q ∈ under n k (i :: p), node root ent t q = 0 := by
          intro q hq
          obtain ⟨r, rfl, -, -⟩ := mem_under.mp hq
          induction r with
          | nil =>
            rw [nil_append, node_cons hb, h0]
          | cons j r ihr =>
            refine node_cons_zero (ihr ?_)
            obtain ⟨r', heq, hlen, hlt⟩ := mem_under.mp hq
            refine mem_under.mpr ⟨r, rfl, ?_, ?_⟩
            · have := congrArg List.length heq
              simp at this
              omega
            · have hr' : j :: r = r' := append_cancel_right heq
              exact fun x hx => hlt x (hr' ▸ mem_cons_of_mem _ hx)
        symm
        rw [filter_eq_nil_iff]
        intro x hx
        obtain ⟨q, hq, rfl⟩ := mem_map.mp hx
        simp [hzero q hq]
      · have hnode : node root ent t (i :: p) = ent (node root ent t p) i := node_cons hb
        rw [← hnode]
        exact ih (by rw [hnode]; exact h0)
    · rw [map_singleton, filter_singleton]
      simp [hb]

theorem blocks_root_eq (h : root t ≠ 0) : blocks n ent k (root t) =
    ((under n k []).map (node root ent t)).filter (· ≠ 0) :=
  blocks_eq (p := []) h

/-- Only the entries of the blocks below matter. -/
theorem blocks_congr (h : ∀ c ∈ blocks n ent k b, ∀ i < n, ent' c i = ent c i) :
    blocks n ent' k b = blocks n ent k b := by
  induction k generalizing b with
  | zero => rfl
  | succ k ih =>
    rw [blocks] at h ⊢
    rw [blocks]
    congr 1
    refine flatMap_congr fun i hi => ?_
    rw [mem_reverse, mem_range] at hi
    rw [h b (by simp) i hi]
    split_ifs with h0
    · rfl
    · refine ih fun c hc j hj => h c (mem_append_left _ (mem_flatMap.mpr ⟨i, ?_, ?_⟩)) j hj
      · rw [mem_reverse, mem_range]
        exact hi
      · rw [if_neg h0]
        exact hc

theorem mem_blocks_root {x : ℕ} : x ∈ (if root t = 0 then [] else
      blocks n ent (depth t) (root t)) ↔
    ∃ p, Valid depth n t p ∧ node root ent t p = x ∧ x ≠ 0 := by
  split_ifs with h0
  · refine ⟨fun h => absurd h (by simp), ?_⟩
    rintro ⟨p, -, rfl, hne⟩
    -- nothing is below an empty slot
    refine absurd ?_ hne
    induction p with
    | nil => exact h0
    | cons i p ih =>
      by_cases hp : node root ent t p = 0
      · exact node_cons_zero hp
      · exact absurd (ih hp) hp
  · rw [blocks_root_eq h0, mem_filter, mem_map]
    constructor
    · rintro ⟨⟨q, hq, rfl⟩, hne⟩
      obtain ⟨r, rfl, hlen, hlt⟩ := mem_under.mp hq
      exact ⟨r ++ [], ⟨by simpa using hlen, by simpa using hlt⟩, rfl, of_decide_eq_true hne⟩
    · rintro ⟨q, hv, rfl, hne⟩
      exact ⟨⟨q, mem_under.mpr ⟨q, by simp, hv.1, hv.2⟩, rfl⟩, decide_eq_true hne⟩

theorem mem_allBlocks {x : ℕ} : x ∈ allBlocks n depth root ent slots ↔
    ∃ t ∈ slots, ∃ p, Valid depth n t p ∧ node root ent t p = x ∧ x ≠ 0 := by
  rw [allBlocks, mem_flatMap]
  constructor
  · rintro ⟨t, ht, hx⟩
    exact ⟨t, ht, mem_blocks_root.mp hx⟩
  · rintro ⟨t, ht, hx⟩
    exact ⟨t, ht, mem_blocks_root.mpr hx⟩

theorem nodup_allBlocks (hinj : Injective depth n root ent) (hslots : slots.Nodup) :
    (allBlocks n depth root ent slots).Nodup := by
  refine nodup_flatMap.mpr ⟨fun t _ => ?_, ?_⟩
  · split_ifs with h0
    · exact nodup_nil
    · rw [blocks_root_eq h0, filter_map]
      refine List.Nodup.map_on (fun q hq q' hq' hnode => ?_) (nodup_under.filter _)
      obtain ⟨hq, hne⟩ := mem_filter.mp hq
      obtain ⟨r, rfl, hlen, hlt⟩ := mem_under.mp hq
      obtain ⟨r', rfl, hlen', hlt'⟩ := mem_under.mp (mem_filter.mp hq').1
      exact (hinj t _ t _ ⟨by simpa using hlen, by simpa using hlt⟩
        ⟨by simpa using hlen', by simpa using hlt'⟩ (of_decide_eq_true hne) hnode).2
  · refine hslots.imp fun {t t'} hne x hx hx' => hne ?_
    obtain ⟨p, hv, rfl, hne0⟩ := mem_blocks_root.mp hx
    obtain ⟨p', hv', heq, -⟩ := mem_blocks_root.mp hx'
    exact (hinj t p t' p' hv hv' hne0 heq.symm).1

end blocks

end Radix

end Lib
