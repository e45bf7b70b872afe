import OpusSysV.Cmd.PackTree
import Mathlib.Algebra.BigOperators.Group.Finset.Piecewise
import Mathlib.Algebra.Order.BigOperators.Group.Finset
import Mathlib.Data.Nat.Fib.Basic

/-!
# How long a file must be for a deep tree

The end of the file counts 1 and each character 2, so that one tree at most has an odd weight.

* `FibInv` — a tree of height `h` weighs at least `2 * fib (h + 2) - 1`; a merge keeps this.
* `chainFile` — a file whose characters occur as often as the Fibonacci numbers say; its tree is a
  chain.
* `pack_fits` — files of a given length all stay inside the arrays of `pack` if and only if they
  have less than 196417 characters, far below the `2**24` of the comment in the source;
  `pack_leaves_arrays` is a file that does not.
-/

namespace Cmd

open Lib Function List

namespace Pack

variable {M N rest : Multiset Tree} {p q : Tree} {file : List (Fin 256)} {count : ℕ → ℕ}
variable {n x : ℕ}

/-! ## The weights at the start -/

theorem input_foldl (count : ℕ → ℕ) (c : Fin 256) :
    file.foldl countChar count c = count c + 2 * file.count c := by
  induction file generalizing count with
  | nil => rfl
  | cons d file ih =>
    rw [foldl_cons, ih, count_cons, countChar]
    rcases eq_or_ne c d with rfl | hne
    · simp only [update_self, beq_self_eq_true, if_true]
      omega
    · have hval : (c : ℕ) ≠ d := fun h => hne (Fin.ext h)
      simp only [update_of_ne hval, beq_iff_eq, hne.symm, if_false, add_zero]

/-- **Each character counts twice.** -/
theorem input_eq (file : List (Fin 256)) (c : Fin 256) : input file c = 2 * file.count c := by
  rw [input, input_foldl, Nat.zero_add]

theorem counts_char (hx : x < END) : counts file x = 2 * file.count ⟨x, hx⟩ := by
  rw [counts, update_of_ne hx.ne]
  exact input_eq file ⟨x, hx⟩

theorem counts_END : counts file END = 1 := update_self ..

theorem sum_input (file : List (Fin 256)) (count : ℕ → ℕ) :
    ∑ x ∈ Finset.range END, file.foldl countChar count x =
      ∑ x ∈ Finset.range END, count x + 2 * file.length := by
  induction file generalizing count with
  | nil => rw [foldl_nil, length_nil, Nat.mul_zero, Nat.add_zero]
  | cons c file ih =>
    have hc : (c : ℕ) ∈ Finset.range END := Finset.mem_range.mpr c.isLt
    have hstep : ∑ x ∈ Finset.range END, countChar count c x =
        ∑ x ∈ Finset.range END, count x + 2 := by
      unfold countChar
      rw [Finset.sum_update_of_mem hc, Finset.sum_eq_add_sum_sdiff_singleton_of_mem hc count]
      omega
    rw [foldl_cons, ih, length_cons, hstep]
    omega

/-- The weight of the trees of some characters. -/
theorem sum_leafCells (count : ℕ → ℕ) (n : ℕ) (height : ℕ → ℕ) :
    ((trees (leafCells count n) height).map Prod.fst).sum = ∑ x ∈ Finset.range n, count x := by
  induction n with
  | zero => rfl
  | succ n ih =>
    rw [leafCells, Finset.sum_range_succ, ← ih]
    split
    next =>
      rw [trees_cons, Multiset.map_cons, Multiset.sum_cons, add_comm]
    next h =>
      rw [Nat.eq_zero_of_not_pos h, add_zero]

/-- **The total weight** is twice the length, and one for the end. -/
theorem sum_leafTrees (file : List (Fin 256)) :
    ((leafTrees file).map Prod.fst).sum = 2 * file.length + 1 := by
  have hsame : ∑ x ∈ Finset.range END, counts file x = ∑ x ∈ Finset.range END, input file x :=
    Finset.sum_congr rfl fun x hx => update_of_ne (Finset.mem_range.mp hx).ne ..
  rw [leafTrees, sum_leafCells, Finset.sum_range_succ, counts_END, hsame, input, sum_input,
    Finset.sum_const_zero, Nat.zero_add]

/-- The trees at the start: the end of the file, and the characters that occur. -/
theorem leafTrees_eq (file : List (Fin 256)) :
    leafTrees file = (1, 0) ::ₘ trees (leafCells (counts file) END) fun _ => 0 := by
  rw [leafTrees, leafCells, counts_END, if_pos one_pos, trees_cons]

theorem mem_trees_leafCells (hp : p ∈ trees (leafCells count n) fun _ => 0) :
    ∃ x < n, 0 < count x ∧ p = (count x, 0) := by
  induction n with
  | zero => exact absurd hp (Multiset.notMem_zero p)
  | succ n ih =>
    have hrest (h : p ∈ trees (leafCells count n) fun _ => 0) :
        ∃ x < n + 1, 0 < count x ∧ p = (count x, 0) := by
      obtain ⟨x, hx, hpos, rfl⟩ := ih h
      exact ⟨x, by omega, hpos, rfl⟩
    rw [leafCells] at hp
    split at hp
    next hpos =>
      rw [trees_cons, Multiset.mem_cons] at hp
      rcases hp with rfl | hp
      · exact ⟨n, Nat.lt_succ_self n, hpos, rfl⟩
      · exact hrest hp
    next => exact hrest hp

/-! ## A high tree is heavy -/

/-- The trees of odd weight. -/
def odds (M : Multiset Tree) : Multiset Tree := M.filter fun p => p.1 % 2 = 1

/-- The weights against the heights: `child` speaks of the higher child that a tree was made of, and
of the trees that were no lighter then. -/
structure FibInv (M : Multiset Tree) : Prop where
  weight : ∀ p ∈ M, 2 * Nat.fib (p.2 + 2) ≤ p.1 + 1
  child : ∀ p ∈ M, ∀ q ∈ M, 0 < p.2 → 2 * Nat.fib (p.2 + 1) ≤ q.1 + 1
  odd : (odds M).card ≤ 1

theorem odds_cons (p : Tree) (M : Multiset Tree) :
    (odds (p ::ₘ M)).card = p.1 % 2 + (odds M).card := by
  rw [odds, odds]
  by_cases h : p.1 % 2 = 1
  · rw [Multiset.filter_cons_of_pos (p := fun p => p.1 % 2 = 1) M h, Multiset.card_cons, h,
      add_comm]
  · rw [Multiset.filter_cons_of_neg (p := fun p => p.1 % 2 = 1) M h, Nat.mod_two_ne_one.mp h,
      Nat.zero_add]

/-- The two trees of a merge: the higher one is as heavy as its height says, the other one as the
height of a child of it. -/
theorem FibInv.pair (h : FibInv (p ::ₘ q ::ₘ rest)) :
    2 * Nat.fib (max p.2 q.2 + 3) ≤ p.1 + q.1 + 1 := by
  have hp : p ∈ p ::ₘ q ::ₘ rest := Multiset.mem_cons_self ..
  have hq : q ∈ p ::ₘ q ::ₘ rest := Multiset.mem_cons_of_mem (Multiset.mem_cons_self ..)
  have hodd := h.odd
  rw [odds_cons, odds_cons] at hodd
  have hsplit (k : ℕ) : Nat.fib (k + 3) = Nat.fib (k + 1) + Nat.fib (k + 2) := Nat.fib_add_two
  have hpw := h.weight p hp
  have hqw := h.weight q hq
  rw [hsplit]
  rcases le_total p.2 q.2 with hle | hle
  · rw [max_eq_right hle]
    rcases Nat.eq_zero_or_pos q.2 with h0 | hpos
    · have hp0 : p.2 = 0 := by omega
      rw [hp0] at hpw
      rw [h0] at hqw ⊢
      simp only [Nat.zero_add, Nat.fib_one, Nat.fib_two] at hpw hqw ⊢
      omega
    · have hchild := h.child q hq p hp hpos
      omega
  · rw [max_eq_left hle]
    rcases Nat.eq_zero_or_pos p.2 with h0 | hpos
    · have hq0 : q.2 = 0 := by omega
      rw [hq0] at hqw
      rw [h0] at hpw ⊢
      simp only [Nat.zero_add, Nat.fib_one, Nat.fib_two] at hpw hqw ⊢
      omega
    · have hchild := h.child p hp q hq hpos
      omega

/-- **A merge keeps the bound.** -/
theorem FibInv.merge (h : FibInv M) (hm : Merge M N) : FibInv N := by
  cases hm with
  | @mk p q rest hpq hq =>
    have hpair := h.pair
    have hrest {x : Tree} (hx : x ∈ rest) : x ∈ p ::ₘ q ::ₘ rest :=
      Multiset.mem_cons_of_mem (Multiset.mem_cons_of_mem hx)
    have hmp : p ∈ p ::ₘ q ::ₘ rest := Multiset.mem_cons_self ..
    have hmq : q ∈ p ::ₘ q ::ₘ rest := Multiset.mem_cons_of_mem (Multiset.mem_cons_self ..)
    -- the higher one of the two
    have hhigh : 2 * Nat.fib (max p.2 q.2 + 2) ≤ q.1 + 1 := by
      rcases le_total p.2 q.2 with hle | hle
      · rw [max_eq_right hle]
        exact h.weight q hmq
      · rw [max_eq_left hle]
        exact (h.weight p hmp).trans (Nat.succ_le_succ hpq)
    constructor
    case weight =>
      intro x hx
      rcases Multiset.mem_cons.mp hx with rfl | hx
      · exact hpair
      · exact h.weight x (hrest hx)
    case child =>
      intro x hx y hy hpos
      rcases Multiset.mem_cons.mp hx with rfl | hx
      · refine le_trans hhigh (Nat.succ_le_succ ?_)
        rcases Multiset.mem_cons.mp hy with rfl | hy
        · exact Nat.le_add_left _ _
        · exact hq y hy
      · rcases Multiset.mem_cons.mp hy with rfl | hy
        · have hp := h.child x (hrest hx) p hmp hpos
          dsimp only
          omega
        · exact h.child x (hrest hx) y (hrest hy) hpos
    case odd =>
      have hodd := h.odd
      rw [odds_cons, odds_cons] at hodd
      rw [odds_cons]
      dsimp only
      omega

/-- The trees at the start are single characters, with the end as the only odd one. -/
theorem fibInv_leafTrees (file : List (Fin 256)) : FibInv (leafTrees file) := by
  have hflat : ∀ p ∈ leafTrees file, 0 < p.1 ∧ p.2 = 0 := by
    intro p hp
    obtain ⟨x, -, hpos, rfl⟩ := mem_trees_leafCells hp
    exact ⟨hpos, rfl⟩
  constructor
  case weight =>
    intro p hp
    obtain ⟨hpos, h0⟩ := hflat p hp
    rw [h0, Nat.zero_add, Nat.fib_two]
    omega
  case child =>
    intro p hp _ _ hpos
    exact absurd (hflat p hp).2 hpos.ne'
  case odd =>
    have heven : odds (trees (leafCells (counts file) END) fun _ => 0) = 0 := by
      refine Multiset.filter_eq_nil.mpr fun p hp => ?_
      obtain ⟨x, hx, -, rfl⟩ := mem_trees_leafCells hp
      rw [counts_char hx]
      omega
    rw [leafTrees_eq, odds_cons, heven]
    exact le_rfl

/-- **A high tree needs a long file.** -/
theorem fib_le_length {root : Tree} (h : Merges (leafTrees file) {root}) :
    Nat.fib (root.2 + 2) ≤ file.length + 1 := by
  have hinv := h.invariant (P := FibInv) (fun _ _ hM hm => hM.merge hm) (fibInv_leafTrees file)
  have hweight := hinv.weight root (Multiset.mem_singleton_self root)
  have hsum := h.root_weight
  rw [sum_leafTrees] at hsum
  omega

/-! ## A file with a deep tree -/

/-- The first `n` characters, `times i` times the character `i`. -/
def runs (times : ℕ → ℕ) : ℕ → List (Fin 256)
  | 0 => []
  | n + 1 => runs times n ++ List.replicate (times n) (Fin.ofNat 256 n)

theorem count_runs (times : ℕ → ℕ) (c : Fin 256) (hn : n ≤ 256) :
    (runs times n).count c = if (c : ℕ) < n then times c else 0 := by
  induction n with
  | zero => rfl
  | succ n ih =>
    have hval : (Fin.ofNat 256 n : Fin 256).1 = n := Nat.mod_eq_of_lt hn
    have hlast : (List.replicate (times n) (Fin.ofNat 256 n)).count c =
        if (c : ℕ) = n then times c else 0 := by
      rw [count_replicate]
      by_cases heq : (c : ℕ) = n
      · rw [if_pos (beq_iff_eq.mpr (Fin.ext (hval.trans heq.symm))), if_pos heq, heq]
      · have hne : ¬ (Fin.ofNat 256 n == c) = true := fun h => by
          rw [← beq_iff_eq.mp h, hval] at heq
          exact heq rfl
        rw [if_neg hne, if_neg heq]
    rw [runs, count_append, ih (by omega), hlast]
    split_ifs <;> omega

theorem length_runs (times : ℕ → ℕ) (n : ℕ) :
    (runs times n).length = ∑ i ∈ Finset.range n, times i := by
  induction n with
  | zero => rfl
  | succ n ih => rw [runs, length_append, length_replicate, ih, Finset.sum_range_succ]

/-- Characters behind the last one that occurs give no trees. -/
theorem leafCells_of_zero {k : ℕ} (h : ∀ x, n ≤ x → x < n + k → count x = 0) :
    leafCells count (n + k) = leafCells count n := by
  induction k with
  | zero => rfl
  | succ k ih =>
    rw [← Nat.add_assoc, leafCells, if_neg (by rw [h (n + k) (by omega) (by omega)]; omega)]
    exact ih fun x h1 h2 => h x h1 (by omega)

/-- The leaves of characters that all occur. -/
theorem trees_eq_leaves (h : ∀ x < n, 0 < count x) :
    trees (leafCells count n) (fun _ => 0) = leaves ((List.range n).map count) := by
  induction n with
  | zero => rfl
  | succ n ih =>
    have hperm : ((List.range n).map count ++ [count n]).Perm
        (count n :: (List.range n).map count) := perm_append_singleton _ _
    have hsnoc : leaves ((List.range n).map count ++ [count n]) =
        leaves (count n :: (List.range n).map count) :=
      congrArg (Multiset.map _) (Multiset.coe_eq_coe.mpr hperm)
    rw [leafCells, if_pos (h n (Nat.lt_succ_self n)), trees_cons, ih fun x hx => h x (by omega),
      range_succ, map_append, map_singleton, hsnoc, leaves_cons]

/-- The first 24 Fibonacci numbers, and a last one. -/
def fibTimes (last i : ℕ) : ℕ := if i < 24 then Nat.fib (i + 1) else last

/-- The file whose first 25 characters occur as often. -/
def chainFile (last : ℕ) : List (Fin 256) := runs (fibTimes last) 25

theorem sum_fib : ∑ i ∈ Finset.range 24, Nat.fib (i + 1) = 121392 := by decide +kernel

theorem length_chainFile (last : ℕ) : (chainFile last).length = 121392 + last := by
  have hsum : ∑ i ∈ Finset.range 24, fibTimes last i = 121392 := by
    rw [← sum_fib]
    exact Finset.sum_congr rfl fun i hi => if_pos (Finset.mem_range.mp hi)
  rw [chainFile, length_runs, Finset.sum_range_succ, hsum, fibTimes, if_neg (lt_irrefl 24)]

/-- The leaves beside the end of the file. -/
def chainLeaves (last : ℕ) : List ℕ := (List.range 24).map (fun i => 2 * Nat.fib (i + 1)) ++ [last]

/-- The smallest last leaf with which the tree becomes a chain. -/
theorem forced_checked : Forced 1 (chainLeaves 150050) := by decide +kernel

theorem counts_chainFile (last : ℕ) (hx : x < END) :
    counts (chainFile last) x = if x < 25 then 2 * fibTimes last x else 0 := by
  rw [counts_char hx, chainFile, count_runs _ _ (by omega)]
  split <;> rfl

theorem map_counts_chainFile (last : ℕ) :
    (List.range 25).map (counts (chainFile last)) = chainLeaves (2 * last) := by
  have hEND : END = 256 := rfl
  have hcounts {x : ℕ} (hx : x < 25) : counts (chainFile last) x = 2 * fibTimes last x := by
    rw [counts_chainFile last (by omega), if_pos hx]
  have hfirst : (List.range 24).map (counts (chainFile last)) =
      (List.range 24).map fun i => 2 * Nat.fib (i + 1) := by
    refine map_congr_left fun x hx => ?_
    have hx : x < 24 := mem_range.mp hx
    rw [hcounts (by omega), fibTimes, if_pos hx]
  rw [range_succ, map_append, map_singleton, hfirst, hcounts (by omega), fibTimes,
    if_neg (lt_irrefl 24), chainLeaves]

theorem leafTrees_chainFile {last : ℕ} (hlast : 0 < last) :
    leafTrees (chainFile last) = (1, 0) ::ₘ leaves (chainLeaves (2 * last)) := by
  obtain ⟨k, hk⟩ : ∃ k, END = 25 + k := ⟨231, rfl⟩
  have hzero : ∀ x, 25 ≤ x → x < 25 + k → counts (chainFile last) x = 0 := fun x h1 h2 => by
    rw [counts_chainFile last (by omega), if_neg (by omega)]
  have hpos : ∀ x < 25, 0 < counts (chainFile last) x := fun x hx => by
    rw [counts_chainFile last (by omega), if_pos hx, fibTimes]
    split
    next => exact Nat.mul_pos two_pos (Nat.fib_pos.mpr (Nat.succ_pos x))
    next => omega
  rw [leafTrees_eq, hk, leafCells_of_zero hzero, trees_eq_leaves hpos, map_counts_chainFile]

/-- **The tree of the file is a chain** of 25 levels, for which the array `levcount` is too
small. -/
theorem chainFile_fails {last : ℕ} (hlast : 75025 ≤ last) (g : Globals) :
    packfile g (chainFile last) = none := by
  have hleaves := @leafTrees_chainFile last (by omega)
  obtain ⟨htwo, -⟩ | ⟨-, root, hrun, -, hdeep⟩ := packfile_spec g (chainFile last)
  · have hcard := congrArg Multiset.card hleaves
    rw [leafTrees, trees, Multiset.coe_card, length_map, htwo, Multiset.card_cons, leaves,
      Multiset.card_map, Multiset.coe_card, chainLeaves, length_append, length_map,
      length_range, length_singleton] at hcard
    omega
  · rw [hleaves] at hrun
    have hforced : Forced 1 (chainLeaves (2 * last)) := forced_checked.heavier (by omega)
    have hroot := hrun.forced hforced
    rw [chainLeaves, length_append, length_map, length_range,
      length_singleton] at hroot
    exact hdeep (by omega)

/-! ## The length that decides -/

theorem fib_checked : Nat.fib 27 = 196418 := by decide +kernel

/-- **The files of a length below `2^24` all stay inside the arrays if and only if the length is
below 196417.** -/
theorem pack_fits {L : ℕ} (_ : L < 2 ^ 24) :
    (∀ file : List (Fin 256), file.length = L → Fits file) ↔ L < 196417 := by
  constructor
  · intro h
    by_contra hge
    have hlen : (chainFile (L - 121392)).length = L := by
      rw [length_chainFile]
      omega
    obtain ⟨o, ho, -⟩ := h _ hlen
      ⟨fun _ => 0, fun _ => ⟨0, 0⟩, fun _ => 0, fun _ => 0, fun _ => 0, false⟩
    rw [chainFile_fails (by omega)] at ho
    cases ho
  · rintro h file rfl g
    obtain ⟨-, htrivial⟩ | ⟨-, root, hrun, hshort, -⟩ := packfile_spec g file
    · exact ⟨_, htrivial, trivial⟩
    · refine hshort ?_
      by_contra hdeep
      have hfib := fib_le_length hrun
      have hmono : Nat.fib 27 ≤ Nat.fib (root.2 + 2) := Nat.fib_mono (by omega)
      rw [fib_checked] at hmono
      omega

theorem pack_fits_short : (196416 : ℕ) < 2 ^ 24 ∧
    ∀ file : List (Fin 256), file.length = 196416 → Fits file :=
  ⟨by decide, (pack_fits (by decide)).mpr (by decide)⟩

/-- **A file of 196417 characters leaves an array**, with nothing but Fibonacci numbers as counts. -/
theorem pack_leaves_arrays :
    (chainFile 75025).length = 196417 ∧ ¬ Fits (chainFile 75025) := by
  refine ⟨length_chainFile _, fun h => ?_⟩
  obtain ⟨o, ho, -⟩ := h ⟨fun _ => 0, fun _ => ⟨0, 0⟩, fun _ => 0, fun _ => 0, fun _ => 0, false⟩
  rw [chainFile_fails le_rfl] at ho
  cases ho

end Pack

end Cmd
