import OpusSysV.Lib.Huffman
import OpusSysV.Lib.Slots
import Mathlib.Data.Nat.Bitwise
import Mathlib.Tactic.Common

/-!
# The tree of pack

`packfile` counts the characters of a file, builds Huffman's tree with a heap, and gives each
character the length and the pattern of its code.

* `load`, `store` — accesses to the arrays, which fail when the index is not inside.
* `heapify`, `gather`, `buildHeap`, `mergeLoop`, `levels`, `patterns`, `packfile` — the program.
* `siftLoop_spec`, `heapify_spec` — a heap is one again after a change at one place.
* `Fits` — what a run comes to that stays inside the arrays.
-/

namespace Cmd

open Lib Function Option

namespace Pack

/-! ## The arrays -/

/-- The end of the file, as a character. -/
def END : ℕ := 256

/-- A cell of the heap. -/
structure Heap where
  count : ℕ
  node : ℕ

/-- `heap [END+2]` -/
def HEAPSIZE : ℕ := END + 2

/-- `parent [2*END+1]` -/
def PARENTS : ℕ := 2 * END + 1

/-- `levcount [25]` -/
def LEVELS : ℕ := 25

/-- `length [END+1]` and `bits [END+1]` -/
def CHARS : ℕ := END + 1

variable {α : Type*}

/-- `a[i]`, for an array of the given size. -/
def load (size : ℕ) (a : ℕ → α) (i : ℕ) : Option α := if i < size then some (a i) else none

/-- `a[i] = x` -/
def store (size : ℕ) (a : ℕ → α) (i : ℕ) (x : α) : Option (ℕ → α) :=
  if i < size then some (update a i x) else none

theorem load_eq {size : ℕ} {a : ℕ → α} {i : ℕ} (h : i < size) : load size a i = some (a i) :=
  if_pos h

theorem store_eq {size : ℕ} {a : ℕ → α} {i : ℕ} {x : α} (h : i < size) :
    store size a i x = some (update a i x) := if_pos h

/-! ## heapify -/

/-- The `while` loop of `heapify` and the move behind it.  The first argument bounds the turns. -/
def siftLoop (n : ℕ) (heapsubi : Heap) : ℕ → (ℕ → Heap) → ℕ → Option (ℕ → Heap)
  | 0, _, _ => none
  | m + 1, heap, i =>
    if i ≤ n / 2 then do
      let a ← load HEAPSIZE heap (2 * i)
      let b ← load HEAPSIZE heap (2 * i + 1)
      let k := if b.count < a.count ∧ 2 * i < n then 2 * i + 1 else 2 * i
      let c ← load HEAPSIZE heap k
      if heapsubi.count < c.count then store HEAPSIZE heap i heapsubi
      else
        let heap ← store HEAPSIZE heap i c
        siftLoop n heapsubi m heap k
    else store HEAPSIZE heap i heapsubi

/-- Makes a heap out of `heap[i],...,heap[n]`. -/
def heapify (n : ℕ) (heap : ℕ → Heap) (i : ℕ) : Option (ℕ → Heap) := do
  let heapsubi ← load HEAPSIZE heap i
  siftLoop n heapsubi (n + 1) heap i

/-! ## packfile -/

/-- `count[inbuff[--i]&0377] += 2;` -/
def countChar (count : ℕ → ℕ) (c : Fin 256) : ℕ → ℕ := update count c (count c + 2)

/-- `input`: the counts of the characters of a file. -/
def input (file : List (Fin 256)) : ℕ → ℕ := file.foldl countChar fun _ => 0

/-- The variables that the first loop sets. -/
structure Gather where
  parent : ℕ → ℕ
  heap : ℕ → Heap
  n : ℕ
  diffbytes : ℤ
  insize : ℕ

/-- The loop that puts the occurring characters in the heap, from the one before `i` down. -/
def gather (count : ℕ → ℕ) : ℕ → Gather → Option Gather
  | 0, g => some g
  | i + 1, g => do
    let parent ← store PARENTS g.parent i 0
    if 0 < count i then
      let heap ← store HEAPSIZE g.heap (g.n + 1) ⟨count i, i⟩
      gather count i ⟨parent, heap, g.n + 1, g.diffbytes + 1, g.insize + count i⟩
    else gather count i { g with parent := parent }

/-- `for (i=n/2; i>=1; i--) heapify(i);` -/
def buildHeap (n : ℕ) : ℕ → (ℕ → Heap) → Option (ℕ → Heap)
  | 0, heap => some heap
  | i + 1, heap => do
    let heap ← heapify n heap (i + 1)
    buildHeap n i heap

/-- `while (n > 1)`: the tree is built, and `parent` and `lastnode` are left. -/
def mergeLoop : ℕ → (ℕ → Heap) → (ℕ → ℕ) → ℕ → Option ((ℕ → ℕ) × ℕ)
  | n + 2, heap, parent, lastnode => do
    let top ← load HEAPSIZE heap 1
    let parent ← store PARENTS parent top.node (lastnode + 1)
    let inc := top.count
    let last ← load HEAPSIZE heap (n + 2)
    let heap ← store HEAPSIZE heap 1 last
    let heap ← heapify (n + 1) heap 1
    let top ← load HEAPSIZE heap 1
    let parent ← store PARENTS parent top.node (lastnode + 1)
    let heap ← store HEAPSIZE heap 1 ⟨top.count + inc, lastnode + 1⟩
    let heap ← heapify (n + 1) heap 1
    mergeLoop (n + 1) heap parent (lastnode + 1)
  | _, _, parent, lastnode => some (parent, lastnode)

/-- `for (p=parent[i]; p!=0; p=parent[p]) c++;` from some `p` on.  The first argument bounds the
turns. -/
def depth (parent : ℕ → ℕ) : ℕ → ℕ → ℕ → Option ℕ
  | 0, _, _ => none
  | m + 1, p, c =>
    if p = 0 then some c
    else do
      let q ← load PARENTS parent p
      depth parent m q (c + 1)

/-- The variables that the loop over the levels sets. -/
structure Levels where
  levcount : ℕ → ℕ
  length : ℕ → ℕ
  maxlev : ℕ
  bitsout : ℕ

/-- The loop that assigns lengths, from the character `i` on.  The first argument counts the
characters that are left. -/
def levels (count parent : ℕ → ℕ) : ℕ → ℕ → Levels → Option Levels
  | 0, _, l => some l
  | m + 1, i, l => do
    let p ← load PARENTS parent i
    let c ← depth parent PARENTS p 0
    let k ← load LEVELS l.levcount c
    let levcount ← store LEVELS l.levcount c (k + 1)
    let length ← store CHARS l.length i c
    levels count parent m (i + 1)
      ⟨levcount, length, max l.maxlev c, l.bitsout + c * (count i >>> 1)⟩

/-- The loop over the characters for the patterns of one length. -/
def patternsAt (length : ℕ → ℕ) (i inc : ℕ) : ℕ → ℕ → (ℕ → ℕ) × ℕ → Option ((ℕ → ℕ) × ℕ)
  | 0, _, r => some r
  | m + 1, c, (bits, mask) => do
    let l ← load CHARS length c
    if l = i then
      let bits ← store CHARS bits c mask
      patternsAt length i inc m (c + 1) (bits, mask + inc)
    else patternsAt length i inc m (c + 1) (bits, mask)

/-- The loop over the lengths, from `i` down. -/
def patterns (length : ℕ → ℕ) : ℕ → ℕ → (ℕ → ℕ) × ℕ → Option (ℕ → ℕ)
  | 0, _, (bits, _) => some bits
  | i + 1, inc, r => do
    let (bits, mask) ← patternsAt length (i + 1) inc CHARS 0 r
    patterns length i (inc <<< 1) (bits, mask.ldiff inc)

/-- What a call of `packfile` finds in the arrays, from the file before. -/
structure Globals where
  parent : ℕ → ℕ
  heap : ℕ → Heap
  levcount : ℕ → ℕ
  length : ℕ → ℕ
  bits : ℕ → ℕ
  force : Bool

/-- The variables before the loop over the levels: the counters from 1 to 24 are cleared. -/
def startLevels (g : Globals) : Levels :=
  ⟨fun i => if 1 ≤ i ∧ i ≤ 24 then 0 else g.levcount i, g.length, 0, 0⟩

/-- How `packfile` ends, when it does not leave an array. -/
inductive Outcome where
  /-- `trivial file` -/
  | trivialFile
  /-- `Huffman tree has too many levels` -/
  | tooManyLevels
  /-- `no saving` -/
  | noSaving (length : ℕ → ℕ)
  /-- The codes for `output`. -/
  | codes (length bits : ℕ → ℕ)

/-- The size of a block of output. -/
def BUFSIZ : ℕ := 1024

/-- `packfile`, up to `output`; `none` if an index is outside its array. -/
def packfile (g : Globals) (file : List (Fin 256)) : Option Outcome := do
  let count := update (input file) END 1
  let r ← gather count (END + 1) ⟨g.parent, g.heap, 0, -1, 0⟩
  if r.diffbytes = 1 then some .trivialFile
  else
    let insize := r.insize >>> 1
    let heap ← buildHeap r.n (r.n / 2) r.heap
    let (parent, lastnode) ← mergeLoop r.n heap r.parent END
    let parent ← store PARENTS parent lastnode 0
    let l ← levels count parent (END + 1) 0 (startLevels g)
    if 24 < l.maxlev then some .tooManyLevels
    else
      let outsize := ((l.bitsout + 7) >>> 3 : ℕ) + 6 + l.maxlev + r.diffbytes
      if (insize + BUFSIZ - 1) / BUFSIZ ≤ (outsize + BUFSIZ - 1) / BUFSIZ ∧ ¬ g.force then
        some (.noSaving l.length)
      else
        let bits ← patterns l.length l.maxlev ((1 <<< 24) >>> l.maxlev) (g.bits, 0)
        some (.codes l.length bits)

/-- The code of no character is longer than 24 bits. -/
def Outcome.Short : Outcome → Prop
  | .trivialFile => True
  | .tooManyLevels => False
  | .noSaving length | .codes length _ => ∀ i ≤ END, length i ≤ 24

/-- **The tree stays in bounds**: no index is outside its array, and no code is too long. -/
def Fits (file : List (Fin 256)) : Prop := ∀ g, ∃ o, packfile g file = some o ∧ o.Short

/-! ## Heaps -/

/-- The cells from 1 to `n`. -/
def cells (heap : ℕ → Heap) (n : ℕ) : List Heap := filled (some ∘ heap) 1 (n + 1)

section Sift

variable {n m i k lo : ℕ} {heap heap' : ℕ → Heap} {sub : Heap}

theorem mem_cells {x : Heap} : x ∈ cells heap n ↔ ∃ k, 1 ≤ k ∧ k ≤ n ∧ heap k = x := by
  rw [cells, mem_filled]
  simp only [Function.comp_apply, Option.some.injEq, Nat.lt_succ_iff]

theorem cells_succ : cells heap (n + 1) = cells heap n ++ [heap (n + 1)] := by
  rw [cells, filled_append (b := n + 1) (by omega) (by omega), filled_one]
  rfl

theorem cells_congr (h : ∀ k, 1 ≤ k → k ≤ n → heap' k = heap k) : cells heap' n = cells heap n :=
  filled_congr fun k h1 h2 => by rw [Function.comp_apply, Function.comp_apply, h k h1 (by omega)]

/-- The cells from 1 to `n` are moved among themselves. -/
def Moved (n : ℕ) (heap heap' : ℕ → Heap) : Prop :=
  Rearranged 1 (n + 1) (some ∘ heap) (some ∘ heap')

theorem Moved.cells (h : Moved n heap heap') : (cells heap' n).Perm (cells heap n) := h.perm

/-- The parents from `lo` on are no heavier than their children. -/
def HeapFrom (heap : ℕ → Heap) (n lo : ℕ) : Prop :=
  ∀ j ≤ n, lo ≤ j / 2 → 0 < j / 2 → (heap (j / 2)).count ≤ (heap j).count

/-- The same but for the cell `i`, which is at its parent's place for its children. -/
def HeapBut (heap : ℕ → Heap) (n lo i : ℕ) : Prop :=
  (∀ j ≤ n, lo ≤ j / 2 → 0 < j / 2 → j / 2 ≠ i → (heap (j / 2)).count ≤ (heap j).count) ∧
    ∀ j ≤ n, j / 2 = i → lo ≤ i / 2 → 0 < i / 2 → (heap (i / 2)).count ≤ (heap j).count

/-- The cell at `i` goes down by one place, and the lighter child up. -/
theorem HeapBut.swap (h : HeapBut heap n lo i) (hi : 0 < i) (hlo : lo ≤ i) (hk : k / 2 = i)
    (hkn : k ≤ n) (hmin : ∀ j ≤ n, j / 2 = i → (heap k).count ≤ (heap j).count)
    (hle : (heap k).count ≤ (heap i).count) :
    HeapBut (heap ∘ Equiv.swap i k) n lo k := by
  have hik : i ≠ k := by omega
  have hat (j : ℕ) (h1 : j ≠ i) (h2 : j ≠ k) : (heap ∘ Equiv.swap i k) j = heap j := by
    rw [Function.comp_apply, Equiv.swap_apply_of_ne_of_ne h1 h2]
  have hati : (heap ∘ Equiv.swap i k) i = heap k := by
    rw [Function.comp_apply, Equiv.swap_apply_left]
  have hatk : (heap ∘ Equiv.swap i k) k = heap i := by
    rw [Function.comp_apply, Equiv.swap_apply_right]
  constructor
  · intro j hj hlj hpos hjk
    rcases eq_or_ne (j / 2) i with hji | hji
    · rw [hji, hati]
      rcases eq_or_ne j k with rfl | hne
      · rwa [hatk]
      · rw [hat j (by omega) hne]
        exact hmin j hj hji
    · rw [hat (j / 2) hji hjk]
      rcases eq_or_ne j i with rfl | hne
      · rw [hati]
        exact h.2 k hkn hk hlj hpos
      · rw [hat j hne (by omega)]
        exact h.1 j hj hlj hpos hji
  · intro j hj hjk _ _
    rw [hk, hati, hat j (by omega) (by omega), ← hjk]
    exact h.1 j hj (by omega) (by omega) (by omega)

/-- The two ways to see a move down: the cell that is held is at the free place. -/
theorem update_swap (hik : i ≠ k) :
    update (update heap i (heap k)) k sub =
      update heap i sub ∘ Equiv.swap i k := by
  funext j
  rw [Function.comp_apply]
  rcases eq_or_ne j k with rfl | hjk
  · rw [Equiv.swap_apply_right, update_self, update_self]
  · rw [update_of_ne hjk]
    rcases eq_or_ne j i with rfl | hji
    · rw [Equiv.swap_apply_left, update_self, update_of_ne hik.symm]
    · rw [Equiv.swap_apply_of_ne_of_ne hji hjk, update_of_ne hji,
        update_of_ne hji]

/-- **The loop of `heapify`** stays inside the array, and leaves a heap. -/
theorem siftLoop_spec (hn : n ≤ END + 1) (hi : 0 < i) (hin : i ≤ n) (hlo : lo ≤ i)
    (h : HeapBut (update heap i sub) n lo i) (hm : n < i + m) :
    ∃ heap', siftLoop n sub m heap i = some heap' ∧ HeapFrom heap' n lo ∧
      Moved n (update heap i sub) heap' := by
  have hEND : END = 256 := rfl
  have hHEAP : HEAPSIZE = 258 := rfl
  induction m generalizing heap i with
  | zero => omega
  | succ m ih =>
    rw [siftLoop]
    split
    next hhalf =>
      rw [load_eq (by omega), load_eq (by omega)]
      simp only [bind_eq_bind, bind_some]
      -- the lighter child
      generalize hk : (if (heap (2 * i + 1)).count < (heap (2 * i)).count ∧ 2 * i < n then
        2 * i + 1 else 2 * i) = k
      obtain ⟨hk2, hkn, hmin⟩ : k / 2 = i ∧ k ≤ n ∧
          ∀ j ≤ n, j / 2 = i → (heap k).count ≤ (heap j).count := by
        have hchild {j : ℕ} (hj : j / 2 = i) : j = 2 * i ∨ j = 2 * i + 1 := by omega
        split at hk
        next hlt =>
          subst hk
          refine ⟨by omega, by omega, fun j hj hji => ?_⟩
          rcases hchild hji with rfl | rfl
          · exact hlt.1.le
          · exact le_rfl
        next hlt =>
          subst hk
          refine ⟨by omega, by omega, fun j hj hji => ?_⟩
          rcases hchild hji with rfl | rfl
          · exact le_rfl
          · by_contra hgt
            exact hlt ⟨by omega, by omega⟩
      have hki : k ≠ i := by omega
      have hself : update heap i sub i = sub := update_self ..
      have hother {j : ℕ} (hj : j ≠ i) : update heap i sub j = heap j :=
        update_of_ne hj ..
      rw [load_eq (by omega)]
      simp only [bind_some]
      split
      next hstop =>
        rw [store_eq (by omega)]
        refine ⟨_, rfl, fun j hj hlj hpos => ?_, Rearranged.refl ..⟩
        rcases eq_or_ne (j / 2) i with hji | hji
        · rw [hji, hself, hother (by omega)]
          exact hstop.le.trans (hmin j hj hji)
        · exact h.1 j hj hlj hpos hji
      next hdown =>
        rw [store_eq (by omega)]
        simp only [bind_some]
        have hswap := h.swap hi hlo hk2 hkn
          (fun j hj hji => by
            rw [hother hki, hother (show j ≠ i by omega)]
            exact hmin j hj hji)
          (by rw [hother hki, hself]; omega)
        rw [← update_swap hki.symm] at hswap
        obtain ⟨heap', heq, hheap, hmoved⟩ := ih (by omega) hkn (by omega) hswap (by omega)
        refine ⟨heap', heq, hheap, Rearranged.trans ?_ hmoved⟩
        rw [update_swap hki.symm]
        exact Rearranged.swap (p := i) (q := k) (by omega) (by omega)
    next hhalf =>
      rw [store_eq (by omega)]
      exact ⟨_, rfl, fun j hj hlj hpos => h.1 j hj hlj hpos (by omega), Rearranged.refl ..⟩

/-- **`heapify`** makes a heap from `lo` on, when it is one but for the cell `i`. -/
theorem heapify_spec (hn : n ≤ END + 1) (hi : 0 < i) (hin : i ≤ n) (hlo : lo ≤ i)
    (h : HeapBut heap n lo i) :
    ∃ heap', heapify n heap i = some heap' ∧ HeapFrom heap' n lo ∧ Moved n heap heap' := by
  have hEND : END = 256 := rfl
  have hHEAP : HEAPSIZE = 258 := rfl
  have hself : update heap i (heap i) = heap := update_eq_self ..
  rw [heapify, load_eq (by omega)]
  have hspec := siftLoop_spec (m := n + 1) hn hi hin hlo (by rwa [hself]) (by omega)
  rwa [hself] at hspec

/-- The root of a heap is the lightest cell. -/
theorem HeapFrom.root_le (h : HeapFrom heap n 1) (hk : 1 ≤ k) (hkn : k ≤ n) :
    (heap 1).count ≤ (heap k).count := by
  induction k using Nat.strong_induction_on with
  | _ k ih =>
    rcases eq_or_ne k 1 with rfl | hne
    · exact le_rfl
    · exact (ih (k / 2) (by omega) (by omega) (by omega)).trans (h k hkn (by omega) (by omega))

/-- A new cell at the root. -/
theorem HeapFrom.update_root (h : HeapFrom heap n 1) (x : Heap) :
    HeapBut (update heap 1 x) n 1 1 := by
  constructor
  · intro j hj _ hpos hne
    rw [update_of_ne hne, update_of_ne (by omega)]
    exact h j hj hpos hpos
  · intro j _ _ h1
    omega

/-- The loop that makes a heap of all cells. -/
theorem buildHeap_spec (hn : n ≤ END + 1) (hi : i ≤ n) (h : HeapFrom heap n (i + 1)) :
    ∃ heap', buildHeap n i heap = some heap' ∧ HeapFrom heap' n 1 ∧ Moved n heap heap' := by
  induction i generalizing heap with
  | zero => exact ⟨heap, rfl, h, Rearranged.refl ..⟩
  | succ i ih =>
    obtain ⟨heap₁, heq₁, hheap₁, hmoved₁⟩ := @heapify_spec n (i + 1) (i + 1) heap hn
      (Nat.succ_pos i) hi le_rfl
      ⟨fun j hj hlj hpos hne => h j hj (by omega) hpos, fun j _ _ h1 => by omega⟩
    obtain ⟨heap₂, heq₂, hheap₂, hmoved₂⟩ := ih (by omega) hheap₁
    refine ⟨heap₂, ?_, hheap₂, hmoved₁.trans hmoved₂⟩
    rw [buildHeap, heq₁]
    exact heq₂

end Sift

end Pack

end Cmd
