import OpusSysV.Cmd.Pack

/-!
# The tree that packfile builds

* `TreeInv` — the array `parent` against the trees in the heap; `TreeInv.merge` is one turn.
* `mergeLoop_spec` — the loop does the merges of Huffman's algorithm and leaves one tree.
* `DepthIs` — what the loop over the parents counts; `TreeInv.depth_le` and
  `TreeInv.exists_deepest` compare it with the height of the tree.
* `packfile_spec` — the arrays suffice if and only if the tree has no more than 24 levels.
-/

namespace Cmd

open Lib Function List Option

namespace Pack

variable {leaf : ℕ → Prop} {l l' rest : List Heap} {parent height count : ℕ → ℕ}
variable {last n m i x y c d h : ℕ} {heap : ℕ → Heap} {a b root : Heap}

/-! ## The trees -/

/-- A node of one of the trees: a character that occurs, or a node that was made. -/
def Known (leaf : ℕ → Prop) (last x : ℕ) : Prop := leaf x ∨ END < x ∧ x ≤ last

/-- The nodes of some cells. -/
def nodes (l : List Heap) : List ℕ := l.map Heap.node

/-- The trees of some cells, by weight and height. -/
def trees (l : List Heap) (height : ℕ → ℕ) : Multiset Tree :=
  (l.map fun x => ((x.count, height x.node) : Tree) : Multiset Tree)

theorem trees_cons (x : Heap) (l : List Heap) (height : ℕ → ℕ) :
    trees (x :: l) height = (x.count, height x.node) ::ₘ trees l height := rfl

/-- The array `parent` against the cells `l` of the heap, which are the roots. -/
structure TreeInv (leaf : ℕ → Prop) (l : List Heap) (parent : ℕ → ℕ) (last : ℕ)
    (height : ℕ → ℕ) : Prop where
  leaf_le : ∀ x, leaf x → x ≤ END
  last_ge : END ≤ last
  nodup : (nodes l).Nodup
  known : ∀ x ∈ nodes l, Known leaf last x
  up : ∀ x, Known leaf last x → x ∉ nodes l →
    Known leaf last (parent x) ∧ x < parent x ∧ height x < height (parent x)
  down : ∀ x, Known leaf last x → 0 < height x →
    ∃ z, Known leaf last z ∧ z ∉ nodes l ∧ parent z = x ∧ height x = height z + 1
  flat : ∀ x, leaf x → height x = 0
  high : ∀ x, END < x → x ≤ last → 0 < height x
  zero : ∀ x ≤ END, ¬ leaf x → parent x = 0

namespace TreeInv

theorem perm (h : TreeInv leaf l parent last height) (hp : l'.Perm l) :
    TreeInv leaf l' parent last height := by
  have hnodes : (nodes l').Perm (nodes l) := hp.map _
  exact { h with
    nodup := hnodes.nodup_iff.mpr h.nodup
    known := fun x hx => h.known x (hnodes.mem_iff.mp hx)
    up := fun x hx hnot => h.up x hx fun hm => hnot (hnodes.mem_iff.mpr hm)
    down := fun x hx hpos => by
      obtain ⟨z, hz, hnot, hrest⟩ := h.down x hx hpos
      exact ⟨z, hz, fun hm => hnot (hnodes.mem_iff.mp hm), hrest⟩ }

/-- A node is no greater than the last one. -/
theorem known_le (h : TreeInv leaf l parent last height) (hx : Known leaf last x) : x ≤ last :=
  hx.elim (fun hl => (h.leaf_le x hl).trans h.last_ge) And.right

/-- **One turn.**  Two roots get a parent, which is a root now. -/
theorem merge (h : TreeInv leaf (a :: b :: rest) parent last height) (w : ℕ) :
    TreeInv leaf (⟨w, last + 1⟩ :: rest)
      (update (update parent a.node (last + 1)) b.node (last + 1)) (last + 1)
      (update height (last + 1) (max (height a.node) (height b.node) + 1)) := by
  have hmem {x : ℕ} : x ∈ nodes (a :: b :: rest) ↔ x = a.node ∨ x = b.node ∨ x ∈ nodes rest := by
    rw [nodes, map_cons, map_cons, mem_cons, mem_cons]
    rfl
  have hmem' {x : ℕ} : x ∈ nodes (⟨w, last + 1⟩ :: rest) ↔ x = last + 1 ∨ x ∈ nodes rest := by
    rw [nodes, map_cons, mem_cons]
    rfl
  have hgrow {x : ℕ} (hx : Known leaf last x) : Known leaf (last + 1) x :=
    hx.imp_right fun hx => ⟨hx.1, by omega⟩
  have hnew : Known leaf (last + 1) (last + 1) := Or.inr ⟨by have := h.last_ge; omega, le_rfl⟩
  have hold {x : ℕ} (hx : Known leaf (last + 1) x) : Known leaf last x ∨ x = last + 1 := by
    rcases hx with hx | ⟨hx, hle⟩
    · exact Or.inl (Or.inl hx)
    · by_cases hxl : x = last + 1
      · exact Or.inr hxl
      · exact Or.inl (Or.inr ⟨hx, by omega⟩)
  have hne {x : ℕ} (hx : Known leaf last x) : x ≠ last + 1 := by
    have := h.known_le hx
    omega
  have hheight {x : ℕ} (hx : Known leaf last x) {v : ℕ} :
      update height (last + 1) v x = height x := update_of_ne (hne hx) ..
  have ha : Known leaf last a.node := h.known _ (hmem.mpr (Or.inl rfl))
  have hb : Known leaf last b.node := h.known _ (hmem.mpr (Or.inr (Or.inl rfl)))
  obtain ⟨hna, hnb, hnrest⟩ : (a.node ≠ b.node ∧ a.node ∉ nodes rest) ∧ b.node ∉ nodes rest ∧
      (nodes rest).Nodup := by
    have hnd := h.nodup
    rw [nodes, map_cons, map_cons, nodup_cons, nodup_cons, mem_cons,
      not_or] at hnd
    exact hnd
  have hpa : update (update parent a.node (last + 1)) b.node (last + 1) a.node =
      last + 1 := by
    rw [update_of_ne hna.1, update_self]
  have hpb : update (update parent a.node (last + 1)) b.node (last + 1) b.node =
      last + 1 := update_self ..
  have hpo {x : ℕ} (hxa : x ≠ a.node) (hxb : x ≠ b.node) :
      update (update parent a.node (last + 1)) b.node (last + 1) x = parent x := by
    rw [update_of_ne hxb, update_of_ne hxa]
  have hlast : END ≤ last + 1 := h.last_ge.trans (Nat.le_succ _)
  refine ⟨h.leaf_le, hlast, ?_, ?_, ?_, ?_, ?_, ?_, ?_⟩
  · rw [nodes, map_cons, nodup_cons]
    exact ⟨fun hm => hne (h.known _ (hmem.mpr (Or.inr (Or.inr hm)))) rfl, hnrest⟩
  · intro x hx
    rcases hmem'.mp hx with rfl | hx
    · exact hnew
    · exact hgrow (h.known x (hmem.mpr (Or.inr (Or.inr hx))))
  · intro x hx hnot
    rw [hmem', not_or] at hnot
    have hx := (hold hx).resolve_right hnot.1
    rw [hheight hx]
    by_cases hxa : x = a.node
    · subst hxa
      rw [hpa, update_self]
      exact ⟨hnew, Nat.lt_succ_of_le (h.known_le hx), by omega⟩
    by_cases hxb : x = b.node
    · subst hxb
      rw [hpb, update_self]
      exact ⟨hnew, Nat.lt_succ_of_le (h.known_le hx), by omega⟩
    · rw [hpo hxa hxb]
      obtain ⟨h1, h2, h3⟩ := h.up x hx fun hm => (hmem.mp hm).elim hxa fun hm =>
        hm.elim hxb hnot.2
      rw [hheight h1]
      exact ⟨hgrow h1, h2, h3⟩
  · intro x hx hpos
    have hnotin {z : ℕ} (hz : Known leaf last z) (hzr : z ∉ nodes rest) :
        z ∉ nodes (⟨w, last + 1⟩ :: rest) := fun hm => (hmem'.mp hm).elim (hne hz) hzr
    rcases hold hx with hx | rfl
    · rw [hheight hx] at hpos ⊢
      obtain ⟨z, hz, hznot, hzx, hzh⟩ := h.down x hx hpos
      rw [hmem, not_or, not_or] at hznot
      refine ⟨z, hgrow hz, hnotin hz hznot.2.2, ?_, ?_⟩
      · rw [hpo hznot.1 hznot.2.1, hzx]
      · rw [hheight hz, hzh]
    · rw [update_self]
      rcases le_total (height a.node) (height b.node) with hle | hle
      · exact ⟨b.node, hgrow hb, hnotin hb hnb, hpb, by rw [hheight hb, max_eq_right hle]⟩
      · exact ⟨a.node, hgrow ha, hnotin ha hna.2, hpa, by rw [hheight ha, max_eq_left hle]⟩
  · intro x hx
    rw [hheight (Or.inl hx)]
    exact h.flat x hx
  · intro x hx hle
    rcases hold (Or.inr ⟨hx, hle⟩) with hx' | rfl
    · rw [hheight hx']
      exact h.high x hx (h.known_le hx')
    · rw [update_self]
      exact Nat.succ_pos _
  · intro x hx hnot
    have hunknown : ¬ Known leaf last x := fun hk => hk.elim hnot fun hk => absurd hx hk.1.not_ge
    have hxa : x ≠ a.node := by
      rintro rfl
      exact hunknown ha
    have hxb : x ≠ b.node := by
      rintro rfl
      exact hunknown hb
    rw [hpo hxa hxb]
    exact h.zero x hx hnot

/-- The trees of the other cells are the same. -/
theorem trees_merge (h : TreeInv leaf (a :: b :: rest) parent last height) (w v : ℕ) :
    trees (⟨w, last + 1⟩ :: rest) (update height (last + 1) v) =
      (w, v) ::ₘ trees rest height := by
  have hrest : rest.map (fun x => ((x.count, update height (last + 1) v x.node) : Tree)) =
      rest.map fun x => (x.count, height x.node) := by
    refine map_congr_left fun x hx => ?_
    have hk := h.known_le (h.known x.node (mem_map.mpr ⟨x, by simp [hx], rfl⟩))
    rw [update_of_ne (by omega)]
  rw [trees, map_cons, hrest, update_self, trees, Multiset.cons_coe]

end TreeInv

/-! ## The loop -/

/-- The cells behind the root. -/
def behind (heap : ℕ → Heap) (n : ℕ) : List Heap := filled (some ∘ heap) 2 (n + 1)

theorem cells_root (hn : 1 ≤ n) : cells heap n = heap 1 :: behind heap n := by
  rw [cells, filled_append (b := 2) (by omega) (by omega), filled_one]
  rfl

theorem behind_update (x : Heap) : behind (update heap 1 x) n = behind heap n :=
  filled_congr fun k hk _ => by
    rw [Function.comp_apply, Function.comp_apply, update_of_ne (by omega)]

/-- The root is taken out, and the last cell put in its place. -/
theorem cells_take (heap : ℕ → Heap) (n : ℕ) : (cells heap (n + 2)).Perm
    (heap 1 :: cells (update heap 1 (heap (n + 2))) (n + 1)) := by
  rw [cells_succ, cells_root (by omega), cells_root (by omega), behind_update, cons_append,
    update_self]
  exact (perm_append_singleton _ _).cons _

/-- A cell other than the root is no lighter. -/
theorem HeapFrom.root_le_cells (h : HeapFrom heap n 1) {x : Heap} (hx : x ∈ cells heap n) :
    (heap 1).count ≤ x.count := by
  obtain ⟨k, hk, hkn, rfl⟩ := mem_cells.mp hx
  exact h.root_le hk hkn

/-- **One turn of the loop** merges the two lightest trees. -/
theorem mergeLoop_step (hn : n + 2 ≤ END + 1) (hlast : END ≤ last)
    (hsum : last + (n + 2) ≤ 2 * END + 1) (hheap : HeapFrom heap (n + 2) 1)
    (hinv : TreeInv leaf (cells heap (n + 2)) parent last height) :
    ∃ heap' parent' height', mergeLoop (n + 2) heap parent last =
        mergeLoop (n + 1) heap' parent' (last + 1) ∧
      HeapFrom heap' (n + 1) 1 ∧ TreeInv leaf (cells heap' (n + 1)) parent' (last + 1) height' ∧
      Merge (trees (cells heap (n + 2)) height) (trees (cells heap' (n + 1)) height') ∧
      (n = 0 → (heap' 1).node = last + 1) := by
  have hEND : END = 256 := rfl
  have hHEAP : HEAPSIZE = 258 := rfl
  have hPAR : PARENTS = 513 := rfl
  -- the lightest cell is taken out
  obtain ⟨a, ha⟩ : ∃ a, a = heap 1 := ⟨_, rfl⟩
  obtain ⟨heap₁, hheap₁⟩ : ∃ h, h = update heap 1 (heap (n + 2)) := ⟨_, rfl⟩
  have hcells₁ := cells_take heap n
  rw [← ha, ← hheap₁] at hcells₁
  have hfrom : HeapFrom heap (n + 1) 1 := fun j hj => hheap j (by omega)
  have hbut₁ := hfrom.update_root (heap (n + 2))
  rw [← hheap₁] at hbut₁
  obtain ⟨heap₂, heq₂, hheap₂, hmoved₂⟩ := heapify_spec (by omega) one_pos (by omega) le_rfl hbut₁
  -- the second one gets the weight of both
  obtain ⟨b, hb⟩ : ∃ b, b = heap₂ 1 := ⟨_, rfl⟩
  obtain ⟨heap₃, hheap₃⟩ : ∃ h, h = update heap₂ 1 ⟨b.count + a.count, last + 1⟩ :=
    ⟨_, rfl⟩
  have hbut₃ := hheap₂.update_root ⟨b.count + a.count, last + 1⟩
  rw [← hheap₃] at hbut₃
  obtain ⟨heap₄, heq₄, hheap₄, hmoved₄⟩ := heapify_spec (by omega) one_pos (by omega) le_rfl hbut₃
  have hcells₂ : (cells heap₁ (n + 1)).Perm (b :: behind heap₂ (n + 1)) := by
    rw [hb, ← cells_root (by omega)]
    exact hmoved₂.cells.symm
  have hcells₄ : (cells heap₄ (n + 1)).Perm
      (⟨b.count + a.count, last + 1⟩ :: behind heap₂ (n + 1)) := by
    have h := hmoved₄.cells
    rw [@cells_root _ heap₃ (by omega), hheap₃, behind_update, update_self] at h
    exact h
  have hall := hcells₁.trans (hcells₂.cons a)
  have hinv' := hinv.perm hall.symm
  have hnode {x : Heap} (hx : x ∈ a :: b :: behind heap₂ (n + 1)) : x.node ≤ last :=
    hinv'.known_le (hinv'.known _ (mem_map.mpr ⟨x, hx, rfl⟩))
  have hna := hnode mem_cons_self
  have hnb := hnode (mem_cons_of_mem _ mem_cons_self)
  refine ⟨heap₄, _, _, ?_, hheap₄, (hinv'.merge (b.count + a.count)).perm hcells₄, ?_, ?_⟩
  · rw [mergeLoop, load_eq (by omega), ← ha]
    simp only [bind_eq_bind, bind_some]
    rw [store_eq (by omega), load_eq (by omega)]
    simp only [bind_some]
    rw [store_eq (by omega), ← hheap₁]
    simp only [bind_some]
    rw [heq₂]
    simp only [bind_some]
    rw [load_eq (by omega), ← hb]
    simp only [bind_some]
    rw [store_eq (by omega), store_eq (by omega), ← hheap₃]
    simp only [bind_some]
    rw [heq₄]
    rfl
  · have htrees (height : ℕ → ℕ) {l l' : List Heap} (hp : l.Perm l') :
        trees l height = trees l' height := Multiset.coe_eq_coe.mpr (hp.map _)
    rw [htrees _ hcells₄, hinv'.trees_merge, htrees _ hall, add_comm b.count, trees_cons, trees_cons]
    refine .mk (p := (a.count, height a.node)) (q := (b.count, height b.node)) ?_ ?_
    · have hbmem : b ∈ cells heap (n + 2) :=
        hall.mem_iff.mpr (mem_cons_of_mem _ mem_cons_self)
      have hle := hheap.root_le_cells hbmem
      rwa [← ha] at hle
    · intro x hx
      obtain ⟨y, hy, rfl⟩ := mem_map.mp (Multiset.mem_coe.mp hx)
      have hymem : y ∈ cells heap₂ (n + 1) := by
        rw [cells_root (by omega)]
        exact mem_cons_of_mem _ hy
      have hle := hheap₂.root_le_cells hymem
      rwa [← hb] at hle
  · rintro rfl
    have hroot : heap₄ 1 ∈ cells heap₄ 1 := mem_cells.mpr ⟨1, le_rfl, le_rfl, rfl⟩
    have hone := hcells₄.mem_iff.mp hroot
    rw [behind, filled_empty (by omega), mem_singleton] at hone
    rw [hone]

/-- **The loop leaves one tree**, after merges of Huffman's algorithm. -/
theorem mergeLoop_spec (hn : n + 1 ≤ END + 1) (hsum : last + (n + 1) ≤ 2 * END + 1)
    (hheap : HeapFrom heap (n + 1) 1)
    (hinv : TreeInv leaf (cells heap (n + 1)) parent last height)
    (hone : n = 0 → (heap 1).node = last) :
    ∃ parent' last' height' root, mergeLoop (n + 1) heap parent last = some (parent', last') ∧
      TreeInv leaf [root] parent' last' height' ∧ root.node = last' ∧ last' ≤ 2 * END ∧
      Merges (trees (cells heap (n + 1)) height) {(root.count, height' root.node)} := by
  induction n generalizing heap parent last height with
  | zero =>
    have hcells : cells heap 1 = [heap 1] := by
      rw [cells_root le_rfl, behind, filled_empty (by omega)]
    rw [Nat.zero_add, hcells] at hinv ⊢
    exact ⟨parent, last, height, heap 1, rfl, hinv, hone rfl, by omega, .refl⟩
  | succ n ih =>
    obtain ⟨heap', parent', height', heq, hheap', hinv', hmerge, hone'⟩ :=
      mergeLoop_step hn hinv.last_ge hsum hheap hinv
    obtain ⟨parent'', last'', height'', root, heq', hrest, hroot, hle, hrun⟩ :=
      ih (by omega) (by omega) hheap' hinv' hone'
    exact ⟨parent'', last'', height'', root, heq.trans heq', hrest, hroot, hle, .head hmerge hrun⟩

/-! ## The depth of a character -/

/-- The loop over the parents of `x` counts `d`. -/
def DepthIs (parent : ℕ → ℕ) (last x d : ℕ) : Prop :=
  ∀ m c, last < x + m → depth parent m (parent x) c = some (c + d)

theorem DepthIs.top (h : parent x = 0) (hx : x ≤ last) : DepthIs parent last x 0 := by
  intro m c hm
  obtain ⟨k, rfl⟩ : ∃ k, m = k + 1 := ⟨m - 1, by omega⟩
  rw [depth, if_pos h, add_zero]

theorem DepthIs.up (h : DepthIs parent last (parent x) d) (hup : x < parent x)
    (hx : parent x ≤ last) (hlast : last ≤ 2 * END) : DepthIs parent last x (d + 1) := by
  have hPAR : PARENTS = 2 * END + 1 := rfl
  intro m c hm
  obtain ⟨k, rfl⟩ : ∃ k, m = k + 1 := ⟨m - 1, by omega⟩
  rw [depth, if_neg (by omega), load_eq (by omega)]
  simp only [bind_eq_bind, bind_some]
  rw [h k (c + 1) (by omega)]
  congr 1
  omega

namespace TreeInv

/-- Only the root has no parent. -/
theorem up_root (h : TreeInv leaf [root] parent last height) (hx : Known leaf last x)
    (hne : x ≠ root.node) :
    update parent root.node 0 x = parent x ∧ Known leaf last (parent x) ∧
      x < parent x ∧ height x < height (parent x) := by
  refine ⟨update_of_ne hne .., h.up x hx ?_⟩
  rw [nodes, map_singleton, mem_singleton]
  exact hne

/-- **No node is deeper** than the tree is high. -/
theorem depth_le (h : TreeInv leaf [root] parent last height) (hroot : root.node = last)
    (hlast : last ≤ 2 * END) (hx : Known leaf last x) :
    ∃ d, DepthIs (update parent root.node 0) last x d ∧
      d + height x ≤ height root.node := by
  obtain ⟨k, hk⟩ : ∃ k, k = last - x := ⟨_, rfl⟩
  induction k using Nat.strong_induction_on generalizing x with
  | _ k ih =>
    by_cases hne : x = root.node
    · subst hne
      exact ⟨0, .top (update_self ..) hroot.le, by omega⟩
    · obtain ⟨heq, hknown, hlt, hheight⟩ := h.up_root hx hne
      have hle := h.known_le hknown
      obtain ⟨d, hd, hdle⟩ := ih (last - parent x) (by omega) hknown rfl
      rw [← heq] at hd hlt
      exact ⟨d + 1, hd.up hlt (heq ▸ hle) hlast, by omega⟩

/-- **Some character is as deep** as the tree is high. -/
theorem exists_deepest (h : TreeInv leaf [root] parent last height) (hlast : last ≤ 2 * END)
    (hx : Known leaf last x)
    (hd : DepthIs (update parent root.node 0) last x d) :
    ∃ z, leaf z ∧ DepthIs (update parent root.node 0) last z (d + height x) := by
  obtain ⟨k, hk⟩ : ∃ k, k = height x := ⟨_, rfl⟩
  induction k generalizing x d with
  | zero =>
    rw [← hk]
    refine hx.elim (fun hl => ⟨x, hl, hd⟩) fun hx => ?_
    have := h.high x hx.1 hx.2
    omega
  | succ k ih =>
    obtain ⟨z, hz, hznot, hzx, hzh⟩ := h.down x hx (by omega)
    rw [nodes, map_singleton, mem_singleton] at hznot
    obtain ⟨heq, hknown, hlt, -⟩ := h.up_root hz hznot
    rw [hzx] at heq hlt hknown
    have hle := h.known_le hx
    have hdz : DepthIs (update parent root.node 0) last z (d + 1) := by
      refine DepthIs.up ?_ ?_ ?_ hlast
      · rwa [heq]
      · rwa [heq]
      · rwa [heq]
    obtain ⟨w, hw, hdw⟩ := ih hz hdz (by omega)
    refine ⟨w, hw, ?_⟩
    rwa [show d + 1 + height z = d + height x by omega] at hdw

end TreeInv

/-! ## The characters that occur -/

/-- The cells of the characters before `i`, the last one first. -/
def leafCells (count : ℕ → ℕ) : ℕ → List Heap
  | 0 => []
  | i + 1 => if 0 < count i then ⟨count i, i⟩ :: leafCells count i else leafCells count i

theorem length_leafCells_le (count : ℕ → ℕ) (i : ℕ) : (leafCells count i).length ≤ i := by
  induction i with
  | zero => exact le_rfl
  | succ i ih =>
    rw [leafCells]
    split
    · exact Nat.succ_le_succ ih
    · exact ih.trans (Nat.le_succ i)

theorem mem_nodes_leafCells : x ∈ nodes (leafCells count i) ↔ x < i ∧ 0 < count x := by
  induction i with
  | zero => exact iff_of_false not_mem_nil fun h => absurd h.1 (Nat.not_lt_zero x)
  | succ i ih =>
    rw [leafCells]
    have hstep : x < i + 1 ↔ x = i ∨ x < i := by omega
    split
    next hpos =>
      rw [nodes, map_cons, mem_cons, hstep, or_and_right]
      refine or_congr ⟨?_, And.left⟩ ih
      rintro rfl
      exact ⟨rfl, hpos⟩
    next hzero =>
      rw [ih, hstep, or_and_right]
      refine ⟨Or.inr, fun h => h.resolve_left ?_⟩
      rintro ⟨rfl, hpos⟩
      exact hzero hpos

theorem nodup_leafCells : (nodes (leafCells count i)).Nodup := by
  induction i with
  | zero => exact nodup_nil
  | succ i ih =>
    rw [leafCells]
    split
    · refine nodup_cons.mpr ⟨fun h => ?_, ih⟩
      exact absurd (mem_nodes_leafCells.mp h).1 (lt_irrefl i)
    · exact ih

/-- The first loop of `packfile`. -/
theorem gather_spec {g : Gather} (hi : i ≤ END + 1) (hn : g.n + i ≤ END + 1) :
    ∃ r, gather count i g = some r ∧ cells r.heap r.n = cells g.heap g.n ++ leafCells count i ∧
      r.n = g.n + (leafCells count i).length ∧
      r.diffbytes = g.diffbytes + (leafCells count i).length ∧
      (∀ x < i, r.parent x = 0) ∧ ∀ x, i ≤ x → r.parent x = g.parent x := by
  have hHEAP : HEAPSIZE = END + 2 := rfl
  have hPAR : PARENTS = 2 * END + 1 := rfl
  induction i generalizing g with
  | zero =>
    refine ⟨g, rfl, ?_, rfl, ?_, fun x hx => absurd hx (Nat.not_lt_zero x), fun _ _ => rfl⟩
    · rw [leafCells, append_nil]
    · rw [leafCells, length_nil]
      omega
  | succ i ih =>
    -- the entry of `i` is cleared, and stays so
    have hparent {p q : ℕ → ℕ} (hq : q = update p i 0) {r : ℕ → ℕ}
        (h1 : ∀ x < i, r x = 0) (h2 : ∀ x, i ≤ x → r x = q x) :
        (∀ x < i + 1, r x = 0) ∧ ∀ x, i + 1 ≤ x → r x = p x := by
      subst hq
      constructor
      · intro x hx
        rcases eq_or_ne x i with rfl | hne
        · rw [h2 x le_rfl, update_self]
        · exact h1 x (by omega)
      · intro x hx
        rw [h2 x (by omega), update_of_ne (by omega)]
    rw [gather, store_eq (by omega), leafCells]
    simp only [bind_eq_bind, bind_some]
    split
    next hpos =>
      rw [store_eq (by omega)]
      simp only [bind_some]
      obtain ⟨r, heq, hcells, hrn, hdiff, h1, h2⟩ := ih (g := ⟨update g.parent i 0,
        update g.heap (g.n + 1) ⟨count i, i⟩, g.n + 1, g.diffbytes + 1,
        g.insize + count i⟩) (by omega) (by dsimp only; omega)
      refine ⟨r, heq, ?_, ?_, ?_, hparent rfl h1 h2⟩
      · have hsame : cells (update g.heap (g.n + 1) ⟨count i, i⟩) g.n = cells g.heap g.n :=
          cells_congr fun k _ hk => update_of_ne (by omega) ..
        rw [hcells, cells_succ]
        dsimp only
        rw [hsame, update_self, append_assoc, singleton_append]
      · rw [hrn, length_cons]
        dsimp only
        omega
      · rw [hdiff, length_cons]
        dsimp only
        omega
    next =>
      obtain ⟨r, heq, hcells, hrn, hdiff, h1, h2⟩ := ih
        (g := { g with parent := update g.parent i 0 }) (by omega) (by dsimp only; omega)
      exact ⟨r, heq, hcells, hrn, hdiff, hparent rfl h1 h2⟩

/-- At first each character that occurs is a tree. -/
theorem treeInv_leafCells (hzero : ∀ x ≤ END, parent x = 0) :
    TreeInv (fun x => x ≤ END ∧ 0 < count x) (leafCells count (END + 1)) parent END fun _ => 0 where
  leaf_le _ h := h.1
  last_ge := le_rfl
  nodup := nodup_leafCells
  known x hx := by
    obtain ⟨h1, h2⟩ := mem_nodes_leafCells.mp hx
    exact Or.inl ⟨Nat.lt_succ_iff.mp h1, h2⟩
  up x hx hnot := by
    refine absurd (mem_nodes_leafCells.mpr ?_) hnot
    obtain ⟨h1, h2⟩ | ⟨h1, h2⟩ := hx
    · exact ⟨Nat.lt_succ_of_le h1, h2⟩
    · omega
  down _ _ h := absurd h (lt_irrefl 0)
  flat _ _ := rfl
  high x h1 h2 := absurd h1 h2.not_gt
  zero x hx _ := hzero x hx

/-! ## The lengths and the patterns -/

/-- `depths` are the depths of the characters. -/
def Depths (parent depths : ℕ → ℕ) : Prop :=
  ∀ i ≤ END, depth parent PARENTS (parent i) 0 = some (depths i)

/-- One turn of the loop over the levels, when the counter of the level is there. -/
theorem levels_step {depths : ℕ → ℕ} (hd : Depths parent depths) (hi : i ≤ END) (l : Levels) :
    levels count parent (m + 1) i l =
      if depths i ≤ 24 then
        levels count parent m (i + 1)
          ⟨update l.levcount (depths i) (l.levcount (depths i) + 1),
            update l.length i (depths i), max l.maxlev (depths i),
            l.bitsout + depths i * (count i >>> 1)⟩
      else none := by
  have hLEV : LEVELS = 25 := rfl
  have hPAR : PARENTS = 2 * END + 1 := rfl
  have hCHARS : CHARS = END + 1 := rfl
  rw [levels, load_eq (by omega)]
  simp only [bind_eq_bind, bind_some]
  rw [hd i hi]
  simp only [bind_some]
  by_cases hle : depths i ≤ 24
  · rw [load_eq (by omega), if_pos hle]
    simp only [bind_some]
    rw [store_eq (by omega)]
    simp only [bind_some]
    rw [store_eq (by omega)]
    rfl
  · rw [load, if_neg (by omega), if_neg hle]
    rfl

/-- The counters suffice for 24 levels. -/
theorem levels_some {depths : ℕ → ℕ} (hd : Depths parent depths) (hle : ∀ i ≤ END, depths i ≤ 24)
    {l : Levels} (him : i + m = END + 1) (hmax : l.maxlev ≤ 24) (hlen : ∀ x < i, l.length x ≤ 24) :
    ∃ r, levels count parent m i l = some r ∧ r.maxlev ≤ 24 ∧ ∀ x ≤ END, r.length x ≤ 24 := by
  induction m generalizing i l with
  | zero => exact ⟨l, rfl, hmax, fun x hx => hlen x (by omega)⟩
  | succ m ih =>
    have hi := hle i (by omega)
    rw [levels_step hd (by omega), if_pos hi]
    refine ih (by omega) (max_le hmax hi) fun x hx => ?_
    dsimp only
    rcases eq_or_ne x i with rfl | hne
    · rwa [update_self]
    · rw [update_of_ne hne]
      exact hlen x (by omega)

/-- They do not for 25. -/
theorem levels_none {depths : ℕ → ℕ} (hd : Depths parent depths) (hy : y ≤ END)
    (hlt : 24 < depths y) {l : Levels} (him : i + m = END + 1) (hiy : i ≤ y) :
    levels count parent m i l = none := by
  induction m generalizing i l with
  | zero => omega
  | succ m ih =>
    rw [levels_step hd (by omega)]
    split
    next hle =>
      have hne : i ≠ y := by
        rintro rfl
        omega
      exact ih (by omega) (by omega)
    next => rfl

theorem patternsAt_some (length : ℕ → ℕ) (inc : ℕ) {r : (ℕ → ℕ) × ℕ} (hc : c + m ≤ CHARS) :
    ∃ r', patternsAt length i inc m c r = some r' := by
  induction m generalizing c r with
  | zero => exact ⟨r, rfl⟩
  | succ m ih =>
    rw [patternsAt, load_eq (by omega)]
    simp only [bind_eq_bind, bind_some]
    split
    · rw [store_eq (by omega)]
      exact ih (by omega)
    · exact ih (by omega)

/-- The patterns stay inside the array. -/
theorem patterns_some (length : ℕ → ℕ) (i inc : ℕ) (r : (ℕ → ℕ) × ℕ) :
    ∃ bits, patterns length i inc r = some bits := by
  induction i generalizing inc r with
  | zero => exact ⟨r.1, rfl⟩
  | succ i ih =>
    obtain ⟨r', hr'⟩ := patternsAt_some (i := i + 1) (m := CHARS) (c := 0) length inc (r := r)
      (by omega)
    rw [patterns, hr']
    exact ih _ _

/-! ## packfile -/

/-- The counts of a file, with the end counted once. -/
def counts (file : List (Fin 256)) : ℕ → ℕ := update (input file) END 1

/-- The trees at the start. -/
def leafTrees (file : List (Fin 256)) : Multiset Tree :=
  trees (leafCells (counts file) (END + 1)) fun _ => 0

/-- **The arrays suffice for 24 levels, and for no more.**  A file with one character only has no
tree. -/
theorem packfile_spec (g : Globals) (file : List (Fin 256)) :
    (leafCells (counts file) (END + 1)).length = 2 ∧ packfile g file = some .trivialFile ∨
    (leafCells (counts file) (END + 1)).length ≠ 2 ∧ ∃ root : Tree,
      Merges (leafTrees file) {root} ∧
      (root.2 ≤ 24 → ∃ o, packfile g file = some o ∧ o.Short) ∧
      (24 < root.2 → packfile g file = none) := by
  have hEND : END = 256 := rfl
  have hPAR : PARENTS = 2 * END + 1 := rfl
  obtain ⟨r, heq, hcells, hn, hdiff, hzero, -⟩ := @gather_spec (counts file) (END + 1)
    ⟨g.parent, g.heap, 0, -1, 0⟩ le_rfl (by dsimp only; omega)
  have hnil : cells g.heap 0 = [] := filled_empty (by omega)
  rw [hnil, nil_append] at hcells
  rw [Nat.zero_add] at hn
  have hlen := length_leafCells_le (counts file) (END + 1)
  -- the end of the file is there
  have hpos : 0 < r.n := by
    rw [hn]
    refine length_pos_of_mem (a := ⟨1, END⟩) ?_
    have hone : counts file END = 1 := update_self ..
    rw [leafCells, hone, if_pos one_pos]
    exact mem_cons_self
  have hgather : packfile g file = (gather (counts file) (END + 1) ⟨g.parent, g.heap, 0, -1, 0⟩).bind
      _ := rfl
  rw [hgather, heq, bind_some]
  by_cases htwo : (leafCells (counts file) (END + 1)).length = 2
  · refine Or.inl ⟨htwo, if_pos ?_⟩
    rw [hdiff, htwo]
    rfl
  refine Or.inr ⟨htwo, ?_⟩
  have hdiff' : r.diffbytes ≠ 1 := by
    rw [hdiff]
    dsimp only
    omega
  rw [if_neg hdiff']
  have hfrom : HeapFrom r.heap r.n (r.n / 2 + 1) := fun j hj hlj _ => by omega
  obtain ⟨heap, hheapeq, hheap, hmoved⟩ := buildHeap_spec (by omega) (by omega) hfrom
  have hperm := hmoved.cells
  rw [hcells] at hperm
  have hinv := (@treeInv_leafCells r.parent (counts file)
    fun x hx => hzero x (by omega)).perm hperm
  obtain ⟨n, hrn⟩ : ∃ n, r.n = n + 1 := ⟨r.n - 1, by omega⟩
  rw [hrn] at hinv hperm
  have hroot : n = 0 → (heap 1).node = END := by
    rintro rfl
    have hmem := hperm.mem_iff.mp (mem_cells.mpr ⟨1, le_rfl, le_rfl, rfl⟩)
    have hone : counts file END = 1 := update_self ..
    have hcons : leafCells (counts file) (END + 1) = ⟨1, END⟩ :: leafCells (counts file) END := by
      rw [leafCells, hone, if_pos one_pos]
    have hshort : leafCells (counts file) END = [] := by
      refine length_eq_zero_iff.mp ?_
      have := congrArg List.length hcons
      rw [length_cons] at this
      omega
    rw [hcons, hshort, mem_singleton] at hmem
    rw [hmem]
  obtain ⟨parent, last, height, root, hmerge, htree, hlast, hle, hrun⟩ := mergeLoop_spec
    (by omega) (by omega) (hrn ▸ hheap) hinv hroot
  have htrees : trees (cells heap (n + 1)) (fun _ => 0) = leafTrees file :=
    Multiset.coe_eq_coe.mpr (hperm.map _)
  rw [htrees] at hrun
  refine ⟨_, hrun, ?_⟩
  dsimp only
  rw [hheapeq]
  simp only [bind_eq_bind, bind_some]
  rw [hrn, hmerge]
  simp only [bind_some]
  rw [store_eq (by omega)]
  simp only [bind_some]
  rw [← hlast]
  rw [← hlast] at htree hle
  generalize hparent : update parent root.node 0 = parent'
  -- the loop over the parents gives a depth for each character
  have hdepth : ∀ x, ∃ d, x ≤ END → depth parent' PARENTS (parent' x) 0 = some d ∧
      d ≤ height root.node := by
    intro x
    by_cases hx : x ≤ END
    · by_cases hleaf : 0 < counts file x
      · obtain ⟨d, hd, hdle⟩ := htree.depth_le rfl hle (Or.inl ⟨hx, hleaf⟩)
        rw [hparent] at hd
        have hdx := hd PARENTS 0 (by omega)
        rw [Nat.zero_add] at hdx
        exact ⟨d, fun _ => ⟨hdx, by omega⟩⟩
      · have hx0 : parent' x = 0 := by
          rw [← hparent]
          rw [update_apply]
          split_ifs with hne
          · rfl
          · exact htree.zero x hx fun h => hleaf h.2
        refine ⟨0, fun _ => ⟨?_, Nat.zero_le _⟩⟩
        rw [hx0]
        rfl
    · exact ⟨0, fun h => absurd h hx⟩
  choose depths hdepths using hdepth
  have hd : Depths parent' depths := fun x hx => (hdepths x hx).1
  constructor
  · intro hshort
    obtain ⟨l, hl, hmax, hlen⟩ := @levels_some _ (counts file) _ _ _ hd
      (fun x hx => (hdepths x hx).2.trans hshort) (startLevels g) (Nat.zero_add (END + 1)) (Nat.zero_le _)
      fun x hx => absurd hx (Nat.not_lt_zero x)
    obtain ⟨bits, hbits⟩ := patterns_some l.length l.maxlev ((1 <<< 24) >>> l.maxlev) (g.bits, 0)
    unfold counts at hl
    rw [hl]
    simp only [bind_some]
    rw [if_neg (by omega)]
    split
    next => exact ⟨_, rfl, hlen⟩
    next =>
      rw [hbits]
      exact ⟨_, rfl, hlen⟩
  · intro hlong
    obtain ⟨z, ⟨hz, -⟩, hdz⟩ := htree.exists_deepest hle
      (htree.known _ mem_cons_self) (.top (update_self ..) le_rfl)
    rw [hparent, Nat.zero_add] at hdz
    have hdz' := hdz PARENTS 0 (by omega)
    rw [Nat.zero_add] at hdz'
    have hdeep := Option.some.inj ((hd z hz).symm.trans hdz')
    have hnone := @levels_none _ (counts file) _ _ _ _ hd hz
      (by rw [hdeep]; exact hlong) (startLevels g) (Nat.zero_add (END + 1)) (Nat.zero_le z)
    unfold counts at hnone
    rw [hnone]
    rfl

end Pack

end Cmd
