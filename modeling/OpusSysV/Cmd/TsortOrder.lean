import OpusSysV.Cmd.Tsort
import Mathlib.Data.Finset.Card
import Mathlib.Data.Finset.Range

/-!
# What tsort writes

* `mark_spec` — as long as each live node has a live predecessor, the search goes back along a path
  and ends at a node of a cycle; `findloop_spec` adds that the marks are restored.
* `turns_good` — the turns go on until no node is live.
* `tsort_sorts` — for names of at most 99 characters, what the program writes;
  `tsort_splits` is a longer name.
-/

namespace Cmd

open Lib Relation Function List

namespace Tsort

variable {g : Nodes} {live base : Marks} {i j n m : ℕ}

/-- The edges between live nodes. -/
def LiveEdge (g : Nodes) (live : Marks) (i j : ℕ) : Prop :=
  i ∈ g.inedges j ∧ live i = .LIVE ∧ live j = .LIVE

/-- Only nodes of the list are live, and none is visited. -/
structure Plain (n : ℕ) (live : Marks) : Prop where
  lt : ∀ i, live i = .LIVE → i < n
  visited : ∀ i, live i ≠ .VISITED

theorem Plain.kill (h : Plain n live) (i : ℕ) : Plain n (update live i .DEAD) := by
  constructor
  · intro j hj
    rcases eq_or_ne j i with rfl | hji
    · rw [update_self] at hj
      cases hj
    · rw [update_of_ne hji] at hj
      exact h.lt j hj
  · intro j
    rw [update_apply]
    split_ifs with hji
    · nofun
    · exact h.visited j

/-- How many nodes are live. -/
def countLive (n : ℕ) (live : Marks) : ℕ := ((Finset.range n).filter fun i => live i = .LIVE).card

/-- One live node less. -/
theorem countLive_lt {x : Live} (hx : x ≠ .LIVE) (hi : live i = .LIVE) (hn : i < n) :
    countLive n (update live i x) < countLive n live := by
  refine Finset.card_lt_card (Finset.ssubset_iff_of_subset ?_ |>.mpr ⟨i, ?_, ?_⟩)
  · intro j hj
    rw [Finset.mem_filter] at hj ⊢
    rcases eq_or_ne j i with rfl | hji
    · exact ⟨hj.1, hi⟩
    · rwa [update_of_ne hji] at hj
  · exact Finset.mem_filter.mpr ⟨Finset.mem_range.mpr hn, hi⟩
  · rw [Finset.mem_filter, update_self]
    exact fun h => hx h.2

theorem countLive_le (n : ℕ) (live : Marks) : countLive n live ≤ n :=
  (Finset.card_filter_le _ _).trans (Finset.card_range n).le

/-! ## The search for a cycle -/

/-- The marks `live` are those of `base` with some live nodes visited. -/
def Over (base live : Marks) : Prop :=
  ∀ i, live i = base i ∨ base i = .LIVE ∧ live i = .VISITED

theorem Over.visit (h : Over base live) (hi : base i = .LIVE) :
    Over base (update live i .VISITED) := by
  intro j
  rw [update_apply]
  split_ifs with hji
  · rw [hji]
    exact Or.inr ⟨hi, rfl⟩
  · exact h j

/-- A dead node is dead still. -/
theorem Over.dead (h : Over base live) (hi : base i ≠ .LIVE) (hv : base i ≠ .VISITED) :
    live i = .DEAD := by
  obtain h1 | h1 := h i
  · rw [h1]
    cases hb : base i
    · rfl
    · exact absurd hb hi
    · exact absurd hb hv
  · exact absurd h1.1 hi

/-- The loop of `findloop` restores the marks. -/
theorem Over.unmark_eq (h : Over base live) (hp : Plain n base) : unmark live n = base := by
  funext j
  rw [unmark]
  obtain h1 | ⟨h1, h2⟩ := h j
  · rw [if_neg fun hj => hp.visited j (h1 ▸ hj.2), h1]
  · rw [if_pos ⟨hp.lt j h1, h2⟩, h1]

/-- The loop over the predecessors, when one of them is live: it passes dead ones, and returns what
`mark` finds from the first live one. -/
theorem markPreds_spec {f : Marks → ℕ → Option Marked} {ps : List ℕ} {Q : Marked → Prop}
    (hQ : ∀ r x, Q r → Q { r with err := r.err ++ [x] })
    (hdead : ∀ p ∈ ps, base p ≠ .LIVE → f live p = some ⟨live, none, []⟩)
    (hlive : ∀ p ∈ ps, base p = .LIVE → ∃ r, f live p = some r ∧ r.node ≠ none ∧ Q r)
    (hex : ∃ p ∈ ps, base p = .LIVE) :
    ∃ r, markPreds f i ps live = some r ∧ r.node ≠ none ∧ Q r := by
  induction ps with
  | nil => exact absurd hex (by simp)
  | cons p ps ih =>
    rw [markPreds]
    by_cases hp : base p = .LIVE
    · obtain ⟨⟨live', node, err⟩, hr, hnode, hq⟩ := hlive p mem_cons_self hp
      rw [hr]
      cases node with
      | none => exact absurd rfl hnode
      | some j => exact ⟨_, rfl, hnode, hQ _ i hq⟩
    · rw [hdead p mem_cons_self hp]
      refine ih (fun q hq => hdead q (mem_cons_of_mem _ hq))
        (fun q hq => hlive q (mem_cons_of_mem _ hq)) ?_
      obtain ⟨q, hq, hql⟩ := hex
      rcases mem_cons.mp hq with rfl | hq
      · exact absurd hql hp
      · exact ⟨q, hq, hql⟩

/-- What `mark` finds: a node of a cycle of live nodes. -/
def FindsCycle (g : Nodes) (base : Marks) (r : Marked) : Prop :=
  Over base r.live ∧ ∀ j ∈ r.node, TransGen (LiveEdge g base) j j

/-- **The search goes back along a path** as long as each live node has a live predecessor.  From
the node `i` the path leads to all visited nodes, so that it is closed when `i` is one of them. -/
theorem mark_spec (hp : Plain n base)
    (hpred : ∀ i, base i = .LIVE → ∃ p ∈ g.inedges i, base p = .LIVE) (hover : Over base live)
    (hi : base i = .LIVE) (hpath : ∀ v, live v = .VISITED → TransGen (LiveEdge g base) i v)
    (hm : countLive n live < m) :
    ∃ r, mark g m live i = some r ∧ r.node ≠ none ∧ FindsCycle g base r := by
  induction m generalizing live i with
  | zero => omega
  | succ m ih =>
    rw [mark]
    obtain hl | ⟨-, hl⟩ := hover i
    · rw [hi] at hl
      rw [hl]
      have hcount := countLive_lt (x := .VISITED) nofun hl (hp.lt i hi)
      have hover' := hover.visit hi
      refine @markPreds_spec _ base _ _ _ (FindsCycle g base) (fun r x hr => hr) ?_ ?_
        (hpred i hi)
      · intro p _ hpd
        obtain ⟨k, rfl⟩ : ∃ k, m = k + 1 := ⟨m - 1, by omega⟩
        rw [mark, hover'.dead hpd (hp.visited p)]
      · intro p hpi hpl
        have hedge : LiveEdge g base p i := ⟨hpi, hpl, hi⟩
        refine ih hover' hpl (fun v hv => ?_) (by omega)
        rcases eq_or_ne v i with rfl | hvi
        · exact TransGen.single hedge
        · rw [update_of_ne hvi] at hv
          exact TransGen.head hedge (hpath v hv)
    · rw [hl]
      refine ⟨_, rfl, nofun, hover, fun j hj => ?_⟩
      cases hj
      exact hpath i hl

theorem firstLive_spec (hj : live j = .LIVE) (hij : i ≤ j) (hm : j < i + m) :
    live (firstLive live m i) = .LIVE := by
  induction m generalizing i with
  | zero => omega
  | succ m ih =>
    rw [firstLive]
    split
    next h => exact h
    next h =>
      have hne : i ≠ j := fun heq => h (heq ▸ hj)
      exact ih (by omega) (by omega)

/-- **`findloop`** gives a node of a cycle, and leaves the marks as they were. -/
theorem findloop_spec (hp : Plain g.names.length live)
    (hpred : ∀ i, live i = .LIVE → ∃ p ∈ g.inedges i, live p = .LIVE) (hj : live j = .LIVE) :
    ∃ i err, findloop g live = some (some (i, live, err)) ∧
      TransGen (LiveEdge g live) i i := by
  have hfirst := firstLive_spec (m := g.names.length) hj (Nat.zero_le j)
    (by have := hp.lt j hj; omega)
  obtain ⟨⟨live', node, err⟩, hr, hnode, hover, hcycle⟩ := mark_spec (m := g.names.length + 1) hp
    hpred (fun i => Or.inl rfl) hfirst (fun v hv => absurd hv (hp.visited v))
    (Nat.lt_succ_of_le (countLive_le _ _))
  rw [findloop, hr]
  cases node with
  | none => exact absurd rfl hnode
  | some i =>
    refine ⟨i, err, ?_, hcycle i rfl⟩
    rw [Option.map_some, Option.map_some, hover.unmark_eq hp]

/-! ## The turns -/

/-- The sweep stops at a live node without a live predecessor, or at the end of the list. -/
theorem sweep_spec (hm : i + m = n) {x : Bool} (hx : x = true → ∃ j < i, live j = .LIVE)
    (hpast : ∀ j < i, live j = .LIVE → x = true ∧ anypred g live j = true) :
    (∃ j < n, sweep g live m i x = (true, j) ∧ live j = .LIVE ∧ anypred g live j = false) ∨
    (∃ j < n, live j = .LIVE) ∧ sweep g live m i x = (true, n) ∧
      (∀ j < n, live j = .LIVE → anypred g live j = true) ∨
    sweep g live m i x = (false, n) ∧ ∀ j < n, live j ≠ .LIVE := by
  induction m generalizing i x with
  | zero =>
    obtain rfl : i = n := hm
    rw [sweep]
    cases x with
    | true => exact Or.inr (Or.inl ⟨hx rfl, rfl, fun j hj hl => (hpast j hj hl).2⟩)
    | false =>
      exact Or.inr (Or.inr ⟨rfl, fun j hj hl => Bool.false_ne_true (hpast j hj hl).1⟩)
  | succ m ih =>
    have hlast {j : ℕ} (hj : j < i + 1) : j < i ∨ j = i := by omega
    rw [sweep]
    split
    next hl =>
      split
      next ha =>
        refine ih (by omega) (fun _ => ⟨i, by omega, hl⟩) fun j hj hjl => ⟨rfl, ?_⟩
        rcases hlast hj with hj | rfl
        · exact (hpast j hj hjl).2
        · exact ha
      next ha => exact Or.inl ⟨i, by omega, rfl, hl, eq_false_of_ne_true ha⟩
    next hl =>
      refine ih (by omega) (fun h => ?_) fun j hj hjl => ?_
      · obtain ⟨j, hj, hjl⟩ := hx h
        exact ⟨j, by omega, hjl⟩
      · rcases hlast hj with hj | rfl
        · exact hpast j hj hjl
        · exact absurd hjl hl

/-- What is right about the turns that are made from the marks `live` on. -/
def Good (g : Nodes) : Marks → List Turn → Prop
  | live, [] => ∀ i, live i ≠ .LIVE
  | live, t :: ts =>
    (t.before = live ∧ t.after = update live t.node .DEAD ∧ live t.node = .LIVE ∧
      (t.looped = true → TransGen (LiveEdge g live) t.node t.node) ∧
      (t.looped = false → ∀ i ∈ g.inedges t.node, live i ≠ .LIVE)) ∧ Good g t.after ts

theorem anypred_iff : anypred g live i = true ↔ ∃ p ∈ g.inedges i, live p = .LIVE := by
  simp only [anypred, any_eq_true, decide_eq_true_eq]

/-- **The turns go on until no node is live.** -/
theorem turns_good (hp : Plain g.names.length live) (hm : countLive g.names.length live < m) :
    ∃ ts, turns g m live = some (some ts) ∧ Good g live ts := by
  induction m generalizing live with
  | zero => omega
  | succ m ih =>
    -- a turn for a live node, and the turns after it
    have hnext (i : ℕ) (hi : live i = .LIVE) : ∃ ts,
        turns g m (update live i .DEAD) = some (some ts) ∧
          Good g (update live i .DEAD) ts := by
      have hcount := countLive_lt (x := .DEAD) nofun hi (hp.lt i hi)
      exact ih (hp.kill i) (by omega)
    rw [turns]
    obtain ⟨i, hin, heq, hl, ha⟩ | ⟨⟨j, hj, hjl⟩, heq, hall⟩ | ⟨heq, hnone⟩ := @sweep_spec g
      live 0 _ _ (Nat.zero_add g.names.length) false nofun
      fun j hj => absurd hj (Nat.not_lt_zero j)
    · rw [heq]
      dsimp only
      rw [if_neg hin.ne]
      obtain ⟨ts, hts, hgood⟩ := hnext i hl
      rw [hts]
      refine ⟨_, rfl, ⟨rfl, rfl, hl, nofun, fun _ p hpi hpl => ?_⟩, hgood⟩
      exact Bool.false_ne_true (ha.symm.trans (anypred_iff.mpr ⟨p, hpi, hpl⟩))
    · rw [heq]
      dsimp only
      rw [if_pos rfl]
      obtain ⟨i, err, hfind, hcycle⟩ := findloop_spec hp
        (fun i hi => anypred_iff.mp (hall i (hp.lt i hi) hi)) hjl
      have hi : live i = .LIVE := by
        obtain ⟨_, -, hedge⟩ := TransGen.tail'_iff.mp hcycle
        exact hedge.2.2
      rw [hfind]
      dsimp only
      obtain ⟨ts, hts, hgood⟩ := hnext i hi
      rw [hts]
      exact ⟨_, rfl, ⟨rfl, rfl, hi, fun _ => hcycle, nofun⟩, hgood⟩
    · rw [heq]
      exact ⟨[], rfl, fun i hi => hnone i (hp.lt i hi) hi⟩

/-- Each live node has its turn, once. -/
theorem Good.nodes {ts : List Turn} (h : Good g live ts) :
    (ts.map Turn.node).Nodup ∧ ∀ i, i ∈ ts.map Turn.node ↔ live i = .LIVE := by
  induction ts generalizing live with
  | nil => exact ⟨nodup_nil, fun i => iff_of_false not_mem_nil (h i)⟩
  | cons t ts ih =>
    obtain ⟨⟨-, hafter, hl, -, -⟩, hgood⟩ := h
    obtain ⟨hnd, hmem⟩ := ih hgood
    rw [hafter] at hmem
    have hnot : t.node ∉ ts.map Turn.node := by
      rw [hmem, update_self]
      nofun
    refine ⟨nodup_cons.mpr ⟨hnot, hnd⟩, fun i => ?_⟩
    rw [map_cons, mem_cons, hmem]
    rcases eq_or_ne i t.node with rfl | hne
    · exact iff_of_true (Or.inl rfl) hl
    · rw [update_of_ne hne]
      exact ⟨fun hi => hi.resolve_left hne, Or.inr⟩

/-- The turns from any of them on. -/
theorem Good.suffix {l r : List Turn} {t : Turn} (h : Good g live (l ++ t :: r)) :
    Good g t.before (t :: r) := by
  induction l generalizing live with
  | nil =>
    have hb : t.before = live := h.1.1
    rw [hb]
    exact h
  | cons u l ih => exact ih h.2

/-! ## What the program writes -/

/-- The edge of a pair of names that are not the same. -/
def Edge (ws : List Name) (a b : Name) : Prop := (a, b) ∈ pairsOf ws ∧ a ≠ b

/-- `a` stands in front of `b`. -/
def Before (out : List Name) (a b : Name) : Prop := ∃ l r, out = l ++ b :: r ∧ a ∈ l

/-- The names that some turns write. -/
def out (g : Nodes) (ts : List Turn) : List Name := ts.map (Turn.name g)

/-- The program writes each name once and stops.  If `findloop` is called, it gives a node of a
cycle of names not yet written, and leaves the marks as they were.  Only an edge into such a node is
violated, and none if there are no cycles. -/
def Sorts (text : List ℕ) (ws : List Name) : Prop :=
  ∃ g ts, main text = some (.sorted g ts) ∧
    ((out g ts).Nodup ∧ ∀ w, w ∈ out g ts ↔ w ∈ ws) ∧
    (Acyclic (Edge ws) → ∀ a b, Edge ws a b → Before (out g ts) a b) ∧
    (∀ l t r, ts = l ++ t :: r → t.looped = true →
      TransGen (fun a b => Edge ws a b ∧ a ∈ out g (t :: r) ∧ b ∈ out g (t :: r))
        (t.name g) (t.name g) ∧ t.after = update t.before t.node .DEAD) ∧
    ∀ a b, Edge ws a b → Before (out g ts) a b ∨ ∃ t ∈ ts, t.looped = true ∧ t.name g = b

section Names

variable {W : Name → Prop} {E : Name → Name → Prop} {ts : List Turn} {a b : Name}

section

variable (h : Graphs W E g)

include h

/-- The name of a node of the list. -/
theorem getElem?_of_live (hi : g.live i = .LIVE) :
    g.names[i]? = some (g.names.getD i []) := by
  have hlt : i < g.names.length := by
    by_contra hge
    rw [h.live, if_neg hge] at hi
    cases hi
  rw [getD_eq_getElem?_getD, List.getElem?_eq_getElem hlt, Option.getD_some]

/-- Every node starts out live. -/
theorem live_of_getElem? (hi : g.names[i]? = some a) : g.live i = .LIVE := by
  rw [h.live, if_pos (List.getElem?_eq_some_iff.mp hi).1]

theorem Graphs.plain : Plain g.names.length g.live := by
  constructor
  · intro i hi
    by_contra hge
    rw [h.live, if_neg hge] at hi
    cases hi
  · intro i
    rw [h.live]
    split <;> nofun

/-- An edge between nodes is one between their names. -/
theorem Graphs.edge_of_mem (hij : i ∈ g.inedges j) :
    E (g.names.getD i []) (g.names.getD j []) := by
  obtain ⟨a, b, hab, ha, hb⟩ := (h.edges i j).mp hij
  rwa [getD_eq_getElem?_getD, getD_eq_getElem?_getD, ha, hb]

/-- **Each name is written once.** -/
theorem out_spec (hgood : Good g g.live ts) :
    (out g ts).Nodup ∧ ∀ w, w ∈ out g ts ↔ W w := by
  obtain ⟨hnd, hmem⟩ := hgood.nodes
  have hmap : out g ts = (ts.map Turn.node).map fun i => g.names.getD i [] := by
    rw [List.map_map]
    rfl
  constructor
  · rw [hmap]
    refine hnd.map_on fun i hi j hj hij => ?_
    have hi' := getElem?_of_live h ((hmem i).mp hi)
    have hj' := getElem?_of_live h ((hmem j).mp hj)
    rw [hij] at hi'
    exact h.place_inj hi' hj'
  · intro w
    rw [hmap, mem_map, ← h.mem, mem_iff_getElem?]
    constructor
    · rintro ⟨i, hi, rfl⟩
      exact ⟨i, getElem?_of_live h ((hmem i).mp hi)⟩
    · rintro ⟨i, hi⟩
      refine ⟨i, (hmem i).mpr (live_of_getElem? h hi), ?_⟩
      rw [getD_eq_getElem?_getD, hi, Option.getD_some]

omit h in
/-- A node that is live before a turn is written in this turn or later. -/
theorem Good.mem_out {t : Turn} {r : List Turn} (hgood : Good g t.before (t :: r))
    (hi : t.before i = .LIVE) : g.names.getD i [] ∈ out g (t :: r) := by
  have hmem := (hgood.nodes.2 i).mpr hi
  obtain ⟨u, hu, rfl⟩ := mem_map.mp hmem
  exact mem_map.mpr ⟨u, hu, rfl⟩

/-- **The node that `findloop` gives** is on a cycle of names not yet written. -/
theorem looped_spec {l r : List Turn} {t : Turn}
    (hgood : Good g live (l ++ t :: r)) (ht : t.looped = true) :
    TransGen (fun a b => E a b ∧ a ∈ out g (t :: r) ∧ b ∈ out g (t :: r)) (t.name g) (t.name g) ∧
      t.after = update t.before t.node .DEAD := by
  have hsuf := hgood.suffix
  obtain ⟨⟨-, hafter, -, hcycle, -⟩, -⟩ := id hsuf
  exact ⟨TransGen.lift (fun i => g.names.getD i [])
    (fun i j hij => ⟨h.edge_of_mem hij.1, hsuf.mem_out hij.2.1, hsuf.mem_out hij.2.2⟩)
    _ _ (hcycle ht), hafter⟩

/-- **An edge is kept**, or leads to a node that `findloop` gave. -/
theorem edge_spec (hgood : Good g g.live ts) (hab : E a b) :
    Before (out g ts) a b ∨ ∃ t ∈ ts, t.looped = true ∧ t.name g = b := by
  obtain ⟨hnd, hmem⟩ := out_spec h hgood
  obtain ⟨t, ht, rfl⟩ := mem_map.mp ((hmem b).mpr (h.known a b hab).2)
  obtain ⟨l, r, rfl⟩ := append_of_mem ht
  cases hloop : t.looped with
  | true => exact Or.inr ⟨t, ht, hloop, rfl⟩
  | false =>
    refine Or.inl ⟨out g l, out g r, by rw [out, map_append, map_cons]; rfl, ?_⟩
    have ha := (hmem a).mpr (h.known a _ hab).1
    rw [out, map_append, mem_append] at ha
    refine ha.resolve_right fun ha => ?_
    -- the predecessor would have been live when the node was written
    obtain ⟨u, hu, rfl⟩ := mem_map.mp ha
    have hsuf := hgood.suffix
    obtain ⟨⟨-, -, hl, -, hpred⟩, -⟩ := id hsuf
    have hul : t.before u.node = .LIVE := (hsuf.nodes.2 _).mp (mem_map.mpr ⟨u, hu, rfl⟩)
    have hall := hgood.nodes.2
    have hnode {v : Turn} (hv : v ∈ l ++ t :: r) : g.names[v.node]? = some (v.name g) :=
      getElem?_of_live h ((hall v.node).mp (mem_map.mpr ⟨v, hv, rfl⟩))
    exact hpred hloop u.node ((h.edges _ _).mpr ⟨_, _, hab,
      hnode (mem_append_right _ hu), hnode ht⟩) hul

end

end Names

/-- Two edges that lead back make a cycle. -/
theorem not_acyclic_of_looped {R S : Name → Name → Prop} {a : Name} (h : TransGen S a a)
    (hS : ∀ x y, S x y → R x y) : ¬ Acyclic R :=
  fun hac => hac a (TransGen.mono hS a a h)

/-- **tsort orders every graph** whose names have at most 99 characters. -/
theorem tsort_sorts {text : List ℕ} {ws : List Name} (h : Spells text ws)
    (heven : Even ws.length) (hlen : ∀ w ∈ ws, w.length ≤ 99) : Sorts text ws := by
  obtain ⟨g, hg⟩ : ∃ g, g = (pairsOf ws).foldl addPair firstnode := ⟨_, rfl⟩
  have hread := readLoop_spec h heven hlen (Nat.lt_succ_of_le h.length_le) firstnode
  rw [← hg] at hread
  have hgraph : Graphs (fun w => w ∈ ws) (Edge ws) g := by
    have h0 := Graphs.firstnode_empty.foldl_addPair (pairsOf ws)
    simp only [false_or, mem_pairsOf heven] at h0
    rw [hg]
    exact h0
  obtain ⟨ts, hts, hgood⟩ := turns_good (m := g.names.length + 1) hgraph.plain
    (Nat.lt_succ_of_le (countLive_le _ _))
  refine ⟨g, ts, ?_, out_spec hgraph hgood, ?_, ?_, fun a b hab => edge_spec hgraph hgood hab⟩
  · rw [main, hread]
    dsimp only
    rw [hts]
  · intro hac a b hab
    refine (edge_spec hgraph hgood hab).resolve_right ?_
    rintro ⟨t, ht, hloop, -⟩
    obtain ⟨l, r, rfl⟩ := append_of_mem ht
    exact not_acyclic_of_looped (looped_spec hgraph hgood hloop).1 (fun _ _ => And.left) hac
  · rintro l t r rfl hloop
    exact looped_spec hgraph hgood hloop

/-- The text `a b`, a cycle with its edge back. -/
theorem tsort_sorts_cycle : Sorts [97, 32, 98, 10, 98, 32, 97, 10] [[97], [98], [98], [97]] :=
  tsort_sorts
    (@Spells.cons [] [32, 98, 10, 98, 32, 97, 10] [97] _ nofun (by decide)
      (by decide)
      (@Spells.cons [32] [10, 98, 32, 97, 10] [98] _ (by decide)
        (by decide) (by decide)
        (@Spells.cons [10] [32, 97, 10] [98] _ (by decide) (by decide)
          (by decide)
          (@Spells.cons [32] [10] [97] _ (by decide) (by decide) (by decide)
            (.nil (by decide))))))
    (by decide) (by decide)

/-- A name of 100 characters, and another one. -/
def longNames : List Name := [List.replicate 100 97, [98]]

/-- **A longer name is split**: the text has an odd number of words for the program. -/
theorem tsort_splits : Spells (List.replicate 100 97 ++ [32, 98]) longNames ∧
    Even longNames.length ∧ ¬ Sorts (List.replicate 100 97 ++ [32, 98]) longNames := by
  refine ⟨?_, by decide, ?_⟩
  · exact @Spells.cons [] [32, 98] (List.replicate 100 97) _ nofun (by decide)
      (by decide) (@Spells.cons [32] [] [98] _ (by decide) (by decide)
        (by decide) (.nil (by decide)))
  · rintro ⟨g, ts, hmain, -⟩
    have hodd : main (List.replicate 100 97 ++ [32, 98]) = some .oddData := rfl
    rw [hodd] at hmain
    cases hmain

end Tsort

end Cmd
