import OpusSysV.Lib.Follow
import Mathlib.Algebra.Group.Nat.Even
import Mathlib.Data.List.Nodup
import Mathlib.Data.List.TakeWhile
import Mathlib.Logic.Function.Basic
import Mathlib.Tactic.Common

/-!
# tsort

A pair of names is an edge of a graph, or a node if both are the same.  The names are written out
in an order that follows the edges where it can.

* `Nodes` — the list of nodes with the predecessors and the mark of each.
* `fscanf`, `locIndex`, `addPair`, `readLoop` — the graph is read.
* `mark`, `findloop`, `sweep`, `turns` — the nodes are written out, one at each turn.
* `Graphs` — a list of nodes that holds given names and edges; `foldl_addPair` says that the
  reading leads to one.
-/

namespace Cmd

open Function List

namespace Tsort

/-- A name, as its bytes. -/
abbrev Name := List ℕ

/-- The states of the field `live`. -/
inductive Live where
  /-- Already printed. -/
  | DEAD
  /-- Not yet printed. -/
  | LIVE
  /-- Used only in `findloop`. -/
  | VISITED
  deriving DecidableEq

/-- The marks of all nodes. -/
abbrev Marks := ℕ → Live

/-- The list of nodes.  A node is its place in the list; the empty element at the end is the place
behind the last one. -/
structure Nodes where
  names : List Name
  inedges : ℕ → List ℕ
  live : Marks

/-- The list with only the empty element. -/
def firstnode : Nodes := ⟨[], fun _ => [], fun _ => .DEAD⟩

/-! ## Reading the graph -/

/-- `isspace` -/
def isspace (c : ℕ) : Bool := c = 32 || (9 ≤ c && c ≤ 13)

/-- `%99s`: blanks are skipped and at most 99 characters taken.  The string ends at a zero. -/
def scanWord (text : List ℕ) : Option (Name × List ℕ) :=
  match text.dropWhile isspace with
  | [] => none
  | c :: t =>
    let w := ((c :: t).takeWhile fun c => !isspace c).take 99
    some (w.takeWhile (· ≠ 0), (c :: t).drop w.length)

/-- What `fscanf(input,"%99s%99s",precedes, follows)` gives. -/
inductive Scan where
  | eof
  /-- One of the two only. -/
  | odd
  | pair (precedes follows : Name) (rest : List ℕ)

/-- `fscanf(input,"%99s%99s",precedes, follows)` -/
def fscanf (text : List ℕ) : Scan :=
  match scanWord text with
  | none => .eof
  | some (precedes, rest) =>
    match scanWord rest with
    | none => .odd
    | some (follows, rest) => .pair precedes follows rest

/-- The place of a name; a new one is put at the end, with an empty element behind it. -/
def locIndex (g : Nodes) (s : Name) : ℕ × Nodes :=
  let i := g.names.idxOf s
  if i < g.names.length then (i, g)
  else (i, { names := g.names ++ [s]
             inedges := update g.inedges (i + 1) []
             live := update (update g.live i .LIVE) (i + 1) .DEAD })

/-- `if(i==j||present(i,j)) continue;` and the new predecessor. -/
def addEdge (g : Nodes) (i j : ℕ) : Nodes :=
  if i = j ∨ i ∈ g.inedges j then g
  else { g with inedges := update g.inedges j (i :: g.inedges j) }

/-- What is done with a pair of names. -/
def addPair (g : Nodes) (p : Name × Name) : Nodes :=
  let (i, g) := locIndex g p.1
  let (j, g) := locIndex g p.2
  addEdge g i j

/-- The first loop.  The outer `none` is a bound on the turns that is too low, the inner one the
message `odd data`. -/
def readLoop : ℕ → List ℕ → Nodes → Option (Option Nodes)
  | 0, _, _ => none
  | m + 1, text, g =>
    match fscanf text with
    | .eof => some (some g)
    | .odd => some none
    | .pair precedes follows rest => readLoop m rest (addPair g (precedes, follows))

/-! ## Writing the order -/

/-- Is there any live predecessor for `i`? -/
def anypred (g : Nodes) (live : Marks) (i : ℕ) : Bool := (g.inedges i).any fun p => live p = .LIVE

/-- What `mark` leaves: the marks, the node that it returns, and the nodes that it names on
standard error. -/
structure Marked where
  live : Marks
  node : Option ℕ
  err : List ℕ

/-- The loop of `mark` over the predecessors of `i`, with `mark` itself as an argument. -/
def markPreds (f : Marks → ℕ → Option Marked) (i : ℕ) : List ℕ → Marks → Option Marked
  | [], live => some ⟨live, none, []⟩
  | p :: ps, live =>
    match f live p with
    | none => none
    | some ⟨live, some j, err⟩ => some ⟨live, some j, err ++ [i]⟩
    | some ⟨live, none, _⟩ => markPreds f i ps live

/-- The depth-first search of the predecessors.  The first argument bounds the depth; `none` if it
is too low. -/
def mark (g : Nodes) : ℕ → Marks → ℕ → Option Marked
  | 0, _, _ => none
  | m + 1, live, i =>
    match live i with
    | .DEAD => some ⟨live, none, []⟩
    | .VISITED => some ⟨live, some i, []⟩
    | .LIVE => markPreds (mark g m) i (g.inedges i) (update live i .VISITED)

/-- The first loop of `findloop`: the first live node, or the empty element. -/
def firstLive (live : Marks) : ℕ → ℕ → ℕ
  | 0, i => i
  | m + 1, i => if live i = .LIVE then i else firstLive live m (i + 1)

/-- The last loop of `findloop`. -/
def unmark (live : Marks) (n : ℕ) : Marks := fun j =>
  if j < n ∧ live j = .VISITED then .LIVE else live j

/-- `findloop`.  The outer `none` is a bound that is too low, the inner one `program error`. -/
def findloop (g : Nodes) (live : Marks) : Option (Option (ℕ × Marks × List ℕ)) :=
  (mark g (g.names.length + 1) live (firstLive live g.names.length 0)).map fun r =>
    r.node.map fun i => (i, unmark r.live g.names.length, r.err)

/-- The sweep over the nodes from `i` on: whether any was live, and where it stopped.  The first
argument counts the nodes that are left. -/
def sweep (g : Nodes) (live : Marks) : ℕ → ℕ → Bool → Bool × ℕ
  | 0, i, x => (x, i)
  | m + 1, i, x =>
    if live i = .LIVE then
      if anypred g live i then sweep g live m (i + 1) true else (true, i)
    else sweep g live m (i + 1) x

/-- A turn of the second loop that writes a name: the node, whether `findloop` was called for it and
what that wrote on standard error, and the marks before and after. -/
structure Turn where
  node : ℕ
  looped : Bool
  err : List ℕ
  before : Marks
  after : Marks

/-- The second loop.  The outer `none` is a bound on the turns or on a depth that is too low, the
inner one `program error`. -/
def turns (g : Nodes) : ℕ → Marks → Option (Option (List Turn))
  | 0, _ => none
  | m + 1, live =>
    match sweep g live g.names.length 0 false with
    | (false, _) => some (some [])
    | (true, i) =>
      if i = g.names.length then
        match findloop g live with
        | none => none
        | some none => some none
        | some (some (j, live', err)) =>
          let after := update live' j .DEAD
          (turns g m after).map (Option.map (⟨j, true, err, live, after⟩ :: ·))
      else
        let after := update live i .DEAD
        (turns g m after).map (Option.map (⟨i, false, [], live, after⟩ :: ·))

/-- How a run ends. -/
inductive Outcome where
  | oddData
  | programError
  | sorted (g : Nodes) (ts : List Turn)

/-- The program on a text; `none` if a bound is too low. -/
def main (text : List ℕ) : Option Outcome :=
  match readLoop (text.length + 1) text firstnode with
  | none => none
  | some none => some .oddData
  | some (some g) =>
    match turns g (g.names.length + 1) g.live with
    | none => none
    | some none => some .programError
    | some (some ts) => some (.sorted g ts)

/-- The name that a turn writes. -/
def Turn.name (g : Nodes) (t : Turn) : Name := g.names.getD t.node []

/-! ## The graph that is read -/

/-- The list of nodes holds the names `W` and the edges `E`. -/
structure Graphs (W : Name → Prop) (E : Name → Name → Prop) (g : Nodes) : Prop where
  nodup : g.names.Nodup
  mem : ∀ w, w ∈ g.names ↔ W w
  known : ∀ a b, E a b → W a ∧ W b
  edges : ∀ i j, i ∈ g.inedges j ↔ ∃ a b, E a b ∧ g.names[i]? = some a ∧ g.names[j]? = some b
  live : ∀ i, g.live i = if i < g.names.length then .LIVE else .DEAD

namespace Graphs

variable {W : Name → Prop} {E : Name → Name → Prop} {g : Nodes} {a b s : Name} {i j : ℕ}

theorem firstnode_empty : Graphs (fun _ => False) (fun _ _ => False) firstnode where
  nodup := nodup_nil
  mem _ := mem_nil_iff _
  known _ _ := False.elim
  edges _ _ := ⟨fun h => absurd h not_mem_nil, fun ⟨_, _, h, _⟩ => h.elim⟩
  live _ := rfl

section

variable (h : Graphs W E g)

include h

/-- A name has one place. -/
theorem place_inj (hi : g.names[i]? = some a) (hj : g.names[j]? = some a) :
    i = j :=
  (List.getElem?_inj (List.getElem?_eq_some_iff.mp hi).1 h.nodup).mp (hi.trans hj.symm)

/-- The edges in front of the empty element only. -/
theorem inedges_of_le (hj : g.names.length ≤ j) : g.inedges j = [] := by
  refine eq_nil_iff_forall_not_mem.mpr fun i hi => ?_
  obtain ⟨a, b, -, -, hb⟩ := (h.edges i j).mp hi
  rw [List.getElem?_eq_none hj] at hb
  cases hb

/-- **A name is looked up**, and put at the end if it is new. -/
theorem locIndex_spec (s : Name) :
    ∃ g', locIndex g s = (g.names.idxOf s, g') ∧ g'.names[g.names.idxOf s]? = some s ∧
      g.names <+: g'.names ∧ Graphs (fun w => W w ∨ w = s) E g' := by
  rw [locIndex]
  by_cases hs : s ∈ g.names
  · rw [if_pos (idxOf_lt_length_of_mem hs)]
    refine ⟨g, rfl, List.getElem?_idxOf hs, prefix_rfl, { h with mem := ?_, known := ?_ }⟩
    · intro w
      rw [h.mem]
      refine ⟨Or.inl, fun hw => hw.elim id ?_⟩
      rintro rfl
      exact (h.mem w).mp hs
    · exact fun a b hab => ⟨Or.inl (h.known a b hab).1, Or.inl (h.known a b hab).2⟩
  · have hi : g.names.idxOf s = g.names.length := idxOf_of_notMem hs
    rw [hi, if_neg (lt_irrefl _)]
    have hin : update g.inedges (g.names.length + 1) [] = g.inedges := by
      rw [← h.inedges_of_le (j := g.names.length + 1) (Nat.le_succ _), update_eq_self]
    refine ⟨_, rfl, List.getElem?_concat_length .., prefix_append .., ?_⟩
    constructor
    case nodup => exact nodup_append.mpr ⟨h.nodup, nodup_singleton s, fun a ha b hb hab =>
      hs (mem_singleton.mp hb ▸ hab ▸ ha)⟩
    case mem =>
      intro w
      rw [mem_append, mem_singleton, h.mem]
    case known => exact fun a b hab => ⟨Or.inl (h.known a b hab).1, Or.inl (h.known a b hab).2⟩
    case edges =>
      intro i j
      -- a name that has an edge is not the new one
      have hold {w : Name} (hw : W w) (k : ℕ) :
          (g.names ++ [s])[k]? = some w ↔ g.names[k]? = some w := by
        rcases Nat.lt_or_ge k g.names.length with hk | hk
        · rw [List.getElem?_append_left hk]
        · rw [List.getElem?_append_right hk, List.getElem?_eq_none hk]
          refine iff_of_false (fun hw' => ?_) nofun
          have hws := mem_of_getElem? hw'
          rw [mem_singleton] at hws
          exact hs ((h.mem s).mpr (hws ▸ hw))
      dsimp only
      rw [hin, h.edges]
      constructor
      · rintro ⟨a, b, hab, ha, hb⟩
        exact ⟨a, b, hab, (hold (h.known a b hab).1 i).mpr ha, (hold (h.known a b hab).2 j).mpr hb⟩
      · rintro ⟨a, b, hab, ha, hb⟩
        exact ⟨a, b, hab, (hold (h.known a b hab).1 i).mp ha, (hold (h.known a b hab).2 j).mp hb⟩
    case live =>
      intro i
      dsimp only
      rw [length_append, length_singleton]
      rcases lt_trichotomy i g.names.length with hlt | rfl | hgt
      · rw [update_of_ne (by omega), update_of_ne (by omega), h.live, if_pos hlt,
          if_pos (by omega)]
      · rw [update_of_ne (by omega), update_self, if_pos (by omega)]
      · rw [if_neg (by omega)]
        rcases eq_or_ne i (g.names.length + 1) with rfl | hne
        · rw [update_self]
        · rw [update_of_ne hne, update_of_ne (by omega), h.live,
            if_neg (by omega)]

/-- An edge is added, unless it is there or leads from a node to itself. -/
theorem addEdge_spec (ha : g.names[i]? = some a) (hb : g.names[j]? = some b) :
    Graphs W (fun x y => E x y ∨ (x, y) = (a, b) ∧ a ≠ b) (addEdge g i j) := by
  have hW {k : ℕ} {w : Name} (hk : g.names[k]? = some w) : W w :=
    (h.mem w).mp (mem_of_getElem? hk)
  have hknown : ∀ x y, E x y ∨ (x, y) = (a, b) ∧ a ≠ b → W x ∧ W y := by
    rintro x y (hxy | ⟨hxy, -⟩)
    · exact h.known x y hxy
    · cases hxy
      exact ⟨hW ha, hW hb⟩
  have hij : i = j ↔ a = b := by
    constructor
    · rintro rfl
      exact Option.some.inj (ha.symm.trans hb)
    · rintro rfl
      exact h.place_inj ha hb
  -- the edge between the two nodes is the edge between the two names
  have hnew (k l : ℕ) : (∃ x y, (E x y ∨ (x, y) = (a, b) ∧ a ≠ b) ∧ g.names[k]? = some x ∧
      g.names[l]? = some y) ↔ k ∈ g.inedges l ∨ (k = i ∧ l = j) ∧ i ≠ j := by
    rw [h.edges]
    constructor
    · rintro ⟨x, y, hxy | ⟨hxy, hne⟩, hx, hy⟩
      · exact Or.inl ⟨x, y, hxy, hx, hy⟩
      · cases hxy
        exact Or.inr ⟨⟨h.place_inj hx ha, h.place_inj hy hb⟩, fun heq => hne (hij.mp heq)⟩
    · rintro (⟨x, y, hxy, hx, hy⟩ | ⟨⟨rfl, rfl⟩, hne⟩)
      · exact ⟨x, y, Or.inl hxy, hx, hy⟩
      · exact ⟨a, b, Or.inr ⟨rfl, fun heq => hne (hij.mpr heq)⟩, ha, hb⟩
  rw [addEdge]
  split
  next hskip =>
    refine { h with known := hknown, edges := fun k l => ?_ }
    rw [hnew]
    refine ⟨Or.inl, fun hkl => hkl.elim id ?_⟩
    rintro ⟨⟨rfl, rfl⟩, hne⟩
    exact hskip.resolve_left hne
  next hskip =>
    rw [not_or] at hskip
    refine { h with known := hknown, edges := fun k l => ?_ }
    rw [hnew]
    dsimp only
    rw [update_apply]
    split_ifs with hl
    · rw [hl, mem_cons]
      exact ⟨fun hk => hk.elim (fun hk => Or.inr ⟨⟨hk, rfl⟩, hskip.1⟩) Or.inl,
        fun hk => hk.elim Or.inr fun hk => Or.inl hk.1.1⟩
    · exact ⟨Or.inl, fun hk => hk.elim id fun hk => absurd hk.1.2 hl⟩

/-- A pair of names is read. -/
theorem addPair_spec (p : Name × Name) :
    Graphs (fun w => W w ∨ w = p.1 ∨ w = p.2) (fun x y => E x y ∨ (x, y) = p ∧ p.1 ≠ p.2)
      (addPair g p) := by
  obtain ⟨a, b⟩ := p
  obtain ⟨g₁, heq₁, ha, -, h₁⟩ := h.locIndex_spec a
  obtain ⟨g₂, heq₂, hb, ⟨l, hl⟩, h₂⟩ := h₁.locIndex_spec b
  have ha' : g₂.names[g.names.idxOf a]? = some a := by
    rw [← hl, List.getElem?_append_left (List.getElem?_eq_some_iff.mp ha).1]
    exact ha
  simp only [addPair, heq₁, heq₂]
  have h₃ := h₂.addEdge_spec ha' hb
  refine { h₃ with mem := fun w => ?_, known := fun x y hxy => ?_ }
  · rw [h₃.mem, or_assoc]
  · simpa only [or_assoc] using h₃.known x y hxy

/-- **The graph of a list of pairs.** -/
theorem foldl_addPair (ps : List (Name × Name)) :
    Graphs (fun w => W w ∨ ∃ p ∈ ps, w = p.1 ∨ w = p.2)
      (fun x y => E x y ∨ (x, y) ∈ ps ∧ x ≠ y) (ps.foldl addPair g) := by
  induction ps generalizing g W E with
  | nil => simpa using h
  | cons p ps ih =>
    have h' := ih (h.addPair_spec p)
    have hmem (w : Name) : ((W w ∨ w = p.1 ∨ w = p.2) ∨ ∃ q ∈ ps, w = q.1 ∨ w = q.2) ↔
        W w ∨ ∃ q ∈ p :: ps, w = q.1 ∨ w = q.2 := by
      rw [exists_mem_cons_iff, or_assoc]
    have hedge (x y : Name) : ((E x y ∨ (x, y) = p ∧ p.1 ≠ p.2) ∨ (x, y) ∈ ps ∧ x ≠ y) ↔
        E x y ∨ (x, y) ∈ p :: ps ∧ x ≠ y := by
      rw [mem_cons, or_assoc, or_and_right]
      refine or_congr_right (or_congr_left (and_congr_right fun hp => ?_))
      rw [← hp]
    rw [foldl_cons]
    constructor
    case nodup => exact h'.nodup
    case mem => exact fun w => (h'.mem w).trans (hmem w)
    case known =>
      intro x y hxy
      obtain ⟨hx, hy⟩ := h'.known x y ((hedge x y).mpr hxy)
      exact ⟨(hmem x).mp hx, (hmem y).mp hy⟩
    case edges =>
      intro i j
      rw [h'.edges]
      simp only [hedge]
    case live => exact h'.live

end

end Graphs

/-! ## The text -/

/-- A name: some characters that are neither blank nor zero. -/
def IsName (w : Name) : Prop := w ≠ [] ∧ ∀ c ∈ w, isspace c = false ∧ c ≠ 0

instance (w : Name) : Decidable (IsName w) := by unfold IsName; infer_instance

/-- The text consists of the names, with blanks between them and perhaps at the ends. -/
inductive Spells : List ℕ → List Name → Prop where
  | nil {blanks : List ℕ} (hblanks : ∀ c ∈ blanks, isspace c = true) : Spells blanks []
  | cons {blanks rest : List ℕ} {w : Name} {ws : List Name}
      (hblanks : ∀ c ∈ blanks, isspace c = true) (hw : IsName w)
      (hend : ∀ c ∈ rest.head?, isspace c = true) (hrest : Spells rest ws) :
      Spells (blanks ++ (w ++ rest)) (w :: ws)

/-- The names two by two. -/
def pairsOf : List Name → List (Name × Name)
  | a :: b :: ws => (a, b) :: pairsOf ws
  | _ => []

section Text

variable {text rest : List ℕ} {w : Name} {ws : List Name}

/-- A run of characters is taken up to the first one that is not of its kind. -/
theorem takeWhile_append_stop {p : ℕ → Bool} (hw : ∀ c ∈ w, p c = true)
    (hend : ∀ c ∈ rest.head?, p c = false) : (w ++ rest).takeWhile p = w := by
  rw [takeWhile_append_of_pos hw]
  cases rest with
  | nil => rw [takeWhile_nil, append_nil]
  | cons c rest =>
    rw [takeWhile_cons_of_neg (ne_true_of_eq_false (hend c rfl)), append_nil]

/-- `%99s` reads a name of at most 99 characters. -/
theorem scanWord_spec {blanks : List ℕ} (hblanks : ∀ c ∈ blanks, isspace c = true)
    (hw : IsName w) (hlen : w.length ≤ 99) (hend : ∀ c ∈ rest.head?, isspace c = true) :
    scanWord (blanks ++ (w ++ rest)) = some (w, rest) := by
  obtain ⟨hne, hchars⟩ := hw
  have htake : (w ++ rest).takeWhile (fun c => !isspace c) = w :=
    takeWhile_append_stop (fun c hc => by rw [(hchars c hc).1]; rfl)
      fun c hc => by rw [hend c hc]; rfl
  have hzero : w.takeWhile (· ≠ 0) = w :=
    takeWhile_eq_self_iff.mpr fun c hc => by simpa using (hchars c hc).2
  obtain ⟨c, t, rfl⟩ := exists_cons_of_ne_nil hne
  have hdrop : (blanks ++ (c :: t ++ rest)).dropWhile isspace = c :: (t ++ rest) := by
    rw [dropWhile_append_of_pos hblanks, cons_append,
      dropWhile_cons_of_neg (ne_true_of_eq_false (hchars c mem_cons_self).1)]
  rw [cons_append] at htake
  rw [scanWord, hdrop]
  dsimp only
  rw [htake, take_of_length_le hlen, hzero, ← cons_append, drop_left]

/-- At the end of the text there is nothing to read. -/
theorem scanWord_blanks {blanks : List ℕ} (hblanks : ∀ c ∈ blanks, isspace c = true) :
    scanWord blanks = none := by
  rw [scanWord, dropWhile_eq_nil_iff.mpr hblanks]

theorem even_rest {a b : Name} (h : Even (a :: b :: ws).length) : Even ws.length := by
  rw [Nat.even_iff, length_cons, length_cons] at h
  rw [Nat.even_iff]
  omega

/-- The reading stops after as many turns as there are pairs of names. -/
theorem readLoop_spec (h : Spells text ws) (heven : Even ws.length)
    (hlen : ∀ w ∈ ws, w.length ≤ 99) {m : ℕ} (hm : ws.length < m) (g : Nodes) :
    readLoop m text g = some (some ((pairsOf ws).foldl addPair g)) := by
  induction m generalizing text ws g with
  | zero => omega
  | succ m ih =>
    rw [readLoop, fscanf]
    cases h with
    | nil hblanks =>
      rw [scanWord_blanks hblanks]
      rfl
    | @cons blanks rest a ws hblanks ha hend hrest =>
      rw [scanWord_spec hblanks ha (hlen a mem_cons_self) hend]
      cases hrest with
      | nil => exact absurd heven (by simp)
      | @cons blanks rest b ws hblanks' hb hend' hrest' =>
        dsimp only
        rw [scanWord_spec hblanks' hb (hlen b (mem_cons_of_mem _ mem_cons_self)) hend']
        refine ih hrest' (even_rest heven) (fun w hw => hlen w ?_) ?_ _
        · exact mem_cons_of_mem _ (mem_cons_of_mem _ hw)
        · simp only [length_cons] at hm
          omega

/-- There are no more names than characters. -/
theorem Spells.length_le (h : Spells text ws) : ws.length ≤ text.length := by
  induction h with
  | nil => exact Nat.zero_le _
  | cons _ hw _ _ ih =>
    have hpos := length_pos_of_ne_nil hw.1
    simp only [length_append, length_cons]
    omega

/-- The names of an even number of names are those of the pairs. -/
theorem mem_pairsOf (heven : Even ws.length) :
    (∃ p ∈ pairsOf ws, w = p.1 ∨ w = p.2) ↔ w ∈ ws := by
  induction ws using pairsOf.induct with
  | case1 a b ws ih =>
    rw [pairsOf, exists_mem_cons_iff, ih (even_rest heven), mem_cons, mem_cons, or_assoc]
  | case2 ws hws =>
    cases ws with
    | nil => simp [pairsOf]
    | cons a ws =>
      cases ws with
      | nil => exact absurd heven (by simp)
      | cons b ws => exact absurd rfl (hws a b ws)

end Text

end Tsort

end Cmd
