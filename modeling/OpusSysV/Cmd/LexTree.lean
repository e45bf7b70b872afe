import OpusSysV.Cmd.LexClass
import Mathlib.Computability.Language

/-!
# The operators of lex: the actions of `r` in `parser.y`, and `dupl` of `sub1.c`

The actions put the nodes of the tree into arrays, each behind its subtrees.

* `Arrays.mn`, `Arrays.dupl`, `Repeat.act`, `Re.build` — the actions.
* `Denotes` — the language of a node; `Re.lang` — that of an expression.
* `Built` — what an action leaves: the nodes from `s` on are a tree with a new root.
* `operators_right` — an expression and its parts are read as documented if and only if in each
  part `r{0,m}` the expression `r` matches the empty string.
-/

namespace Cmd.Lex

open Function Computability List

/-! ## The tree -/

/-- A `name` without subtrees. -/
inductive Leaf where
  | chr (c : ℕ)
  | rnulls
  | rccl (K : Ccl)

/-- One with a subtree; `RSTR` has a character behind it. -/
inductive Unary where
  | star
  | plus
  | quest
  | rstr (c : ℕ)

/-- One with two. -/
inductive Binary where
  | rcat
  | bar

/-- `name`, `left` and `right`. -/
inductive Node where
  | leaf (a : Leaf)
  | unary (a : Unary) (d : ℕ)
  | binary (a : Binary) (d c : ℕ)

def Node.children : Node → List ℕ
  | .leaf _ => []
  | .unary _ d => [d]
  | .binary _ d c => [d, c]

/-- `nullstr` of a new node. -/
def Node.nullstr (f : ℕ → Bool) : Node → Bool
  | .leaf (.chr _) => false
  | .leaf .rnulls => true
  | .leaf (.rccl K) => K.str.isEmpty
  | .unary .plus d => f d
  | .unary (.rstr _) _ => false
  | .unary _ _ => true
  | .binary .rcat d c => f d && f c
  | .binary .bar d c => f d || f c

structure Arrays where
  node : ℕ → Node
  parent : ℕ → ℕ
  nullstr : ℕ → Bool
  tptr : ℕ

namespace Arrays

/-- `mn0`, `mn1` and `mn2` -/
def mn (s : Arrays) (x : Node) : ℕ × Arrays :=
  (s.tptr,
    { node := update s.node s.tptr x
      parent := x.children.foldl (fun f d => update f d s.tptr) (update s.parent s.tptr 0)
      nullstr := update s.nullstr s.tptr (x.nullstr s.nullstr)
      tptr := s.tptr + 1 })

/-- `dupl(n)`, at a depth of `k` at most. -/
def dupl : ℕ → Arrays → ℕ → ℕ × Arrays
  | 0, s, _ => (0, s)
  | k + 1, s, n =>
    match s.node n with
    | .leaf a => s.mn (.leaf a)
    | .unary a d =>
      let g := dupl k s d
      g.2.mn (.unary a g.1)
    | .binary a d c =>
      let g := dupl k s d
      let h := dupl k g.2 c
      h.2.mn (.binary a g.1 h.1)

/-- `j = mn2(RCAT,j,dupl($1.i));`, so many times -/
def copies (r : ℕ) : ℕ → ℕ × Arrays → ℕ × Arrays
  | 0, j => j
  | k + 1, j =>
    let g := j.2.dupl (r + 1) r
    copies r k (g.2.mn (.binary .rcat j.1 g.1))

/-- So many turns of the loop over `i`, from `n + 1` on. -/
def alternates (r : ℕ) : ℕ → ℕ → ℕ × Arrays → ℕ × Arrays
  | _, 0, j => j
  | n, k + 1, j =>
    let g := copies r n (j.2.dupl (r + 1) r)
    alternates r (n + 1) k (g.2.mn (.binary .bar j.1 g.1))

end Arrays

/-- `r*`, `r+`, `r?`, `r{n}`, `r{n,}` and `r{n,m}`. -/
inductive Repeat where
  | star
  | plus
  | quest
  | times (n : ℕ)
  | atLeast (n : ℕ)
  | between (n m : ℕ) (h : n ≤ m ∧ 1 ≤ m)

/-- The action; `x` is `$1`. -/
def Repeat.act (x : ℕ × Arrays) : Repeat → ℕ × Arrays
  | .star => x.2.mn (.unary .star x.1)
  | .plus => x.2.mn (.unary .plus x.1)
  | .quest => x.2.mn (.unary .quest x.1)
  | .times n => if n = 0 then x.2.mn (.leaf .rnulls) else Arrays.copies x.1 (n - 1) x
  | .atLeast n =>
    if n = 0 then x.2.mn (.unary .star x.1)
    else if n = 1 then x.2.mn (.unary .plus x.1)
    else
      let j := Arrays.copies x.1 (n - 2) x
      let g := j.2.dupl (x.1 + 1) x.1
      let k := g.2.mn (.unary .plus g.1)
      k.2.mn (.binary .rcat j.1 k.1)
  | .between n m _ =>
    let (n, m) := if n > m then (m, n) else (n, m)
    if m ≤ 0 then x
    else Arrays.alternates x.1 n (m - n) (Arrays.copies x.1 (n - 1) x)

/-- An expression. -/
inductive Re where
  | leaf (a : Leaf)
  | str (c : ℕ) (l : List ℕ)
  | dot
  | rep (a : Repeat) (r : Re)
  | binary (a : Binary) (r t : Re)

/-- The actions of an expression, and its `$$`. -/
def Re.build : Re → Arrays → ℕ × Arrays
  | .leaf a, s => s.mn (.leaf a)
  | .str c l, s => l.foldl (fun i c => i.2.mn (.unary (.rstr c) i.1)) (s.mn (.leaf (.chr c)))
  | .dot, s => s.mn (.leaf (.rccl Lex.dot))
  | .rep a r, s => a.act (r.build s)
  | .binary a r t, s =>
    let i := r.build s
    let j := t.build i.2
    j.2.mn (.binary a i.1 j.1)

/-! ## The languages -/

def Leaf.lang : Leaf → Language ℕ
  | .chr c => {[c]}
  | .rnulls => 1
  | .rccl K => {w | ∃ c ∈ chars, K.Has c ∧ w = [c]}

def Unary.lang (L : Language ℕ) : Unary → Language ℕ
  | .star => L∗
  | .plus => L * L∗
  | .quest => L + 1
  | .rstr c => L * {[c]}

def Binary.lang (L M : Language ℕ) : Binary → Language ℕ
  | .rcat => L * M
  | .bar => L + M

/-- From `n` to `m` words of `L`. -/
def powers (L : Language ℕ) (n m : ℕ) : Language ℕ := {w | ∃ k, n ≤ k ∧ k ≤ m ∧ w ∈ L ^ k}

/-- What a repetition is, if `{n,m}` starts from `low n`. -/
def Repeat.lang (low : ℕ → ℕ) (L : Language ℕ) : Repeat → Language ℕ
  | .star => L∗
  | .plus => L * L∗
  | .quest => L + 1
  | .times n => L ^ n
  | .atLeast n => L ^ n * L∗
  | .between n m _ => powers L (low n) m

def Re.mean (low : ℕ → ℕ) : Re → Language ℕ
  | .leaf a => a.lang
  | .str c l => {c :: l}
  | .dot => {w | ∃ c ∈ chars, c ≠ 10 ∧ w = [c]}
  | .rep a r => a.lang low (r.mean low)
  | .binary a r t => a.lang (r.mean low) (t.mean low)

/-- The documented language. -/
def Re.lang (e : Re) : Language ℕ := e.mean id

/-- The language of a node. -/
inductive Denotes (s : Arrays) : ℕ → Language ℕ → Prop
  | leaf {n a} (h : s.node n = .leaf a) : Denotes s n a.lang
  | unary {n a d L} (h : s.node n = .unary a d) (hd : Denotes s d L) : Denotes s n (a.lang L)
  | binary {n a d c L M} (h : s.node n = .binary a d c) (hd : Denotes s d L)
      (hc : Denotes s c M) : Denotes s n (a.lang L M)

/-- `P` of an expression and its parts. -/
def Re.All (P : Re → Prop) : Re → Prop
  | .rep a r => P (.rep a r) ∧ r.All P
  | .binary a r t => P (.binary a r t) ∧ r.All P ∧ t.All P
  | e => P e

/-! ## The nodes -/

namespace Arrays

variable {b s t : Arrays} {i j n k r : ℕ} {x : Node} {q q' : ℕ × Arrays} {L M : Language ℕ}

/-- Each node comes behind those that it refers to, and is their parent. -/
structure WellFormed (s : Arrays) : Prop where
  below : ∀ x < s.tptr, ∀ y ∈ (s.node x).children, y < x
  parent : ∀ x < s.tptr, ∀ y ∈ (s.node x).children, s.parent y = x
  nodup : ∀ x < s.tptr, (s.node x).children.Nodup

/-- No node refers to `i`. -/
def Root (s : Arrays) (i : ℕ) : Prop := i < s.tptr ∧ ∀ x < s.tptr, i ∉ (s.node x).children

/-- `t` has the nodes of `s`, and others behind them. -/
structure Extends (s t : Arrays) : Prop where
  wf : t.WellFormed
  le : s.tptr ≤ t.tptr
  keeps : ∀ x < s.tptr, t.node x = s.node x

/-- The nodes of `q` behind those of `s` are a tree with the root `q.1`, which denotes `L`. -/
structure Built (s : Arrays) (q : ℕ × Arrays) (L : Language ℕ) : Prop extends Extends s q.2 where
  fresh : ∀ x, s.tptr ≤ x → x < q.2.tptr → ∀ y ∈ (q.2.node x).children, s.tptr ≤ y
  new : s.tptr ≤ q.1
  root : q.2.Root q.1
  denotes : Denotes q.2 q.1 L

theorem Extends.trans {u : Arrays} (h : Extends s t) (h' : Extends t u) : Extends s u :=
  ⟨h'.wf, h.le.trans h'.le, fun x hx => (h'.keeps x (hx.trans_le h.le)).trans (h.keeps x hx)⟩

theorem Extends.denotes (he : Extends s t) (hs : s.WellFormed) (h : Denotes s n L)
    (hn : n < s.tptr) : Denotes t n L := by
  have hd : ∀ {n d}, n < s.tptr → d ∈ (s.node n).children → d < s.tptr := fun hn hd =>
    (hs.below _ hn _ hd).trans hn
  induction h with
  | leaf h => exact .leaf ((he.keeps _ hn).trans h)
  | unary h _ ih => exact .unary ((he.keeps _ hn).trans h) (ih (hd hn (by simp [h, Node.children])))
  | binary h _ _ ih ih' =>
    exact .binary ((he.keeps _ hn).trans h) (ih (hd hn (by simp [h, Node.children])))
      (ih' (hd hn (by simp [h, Node.children])))

theorem mn_node : (s.mn x).2.node s.tptr = x := update_self ..

/-- A node is put behind its subtrees, which had no parent. -/
theorem mn_spec (hs : s.WellFormed) (hx : x.children.Nodup) (hr : ∀ y ∈ x.children, s.Root y) :
    Extends s (s.mn x).2 ∧ (s.mn x).2.Root (s.mn x).1 := by
  have hkeep : ∀ n < s.tptr, (s.mn x).2.node n = s.node n := fun n hn => update_of_ne hn.ne ..
  have hparent : ∀ y, (s.mn x).2.parent y =
      if y ∈ x.children then s.tptr else update s.parent s.tptr 0 y := fun y => foldl_update ..
  have hcases : ∀ {n}, n < (s.mn x).2.tptr → n = s.tptr ∧ (s.mn x).2.node n = x ∨
      n < s.tptr ∧ (s.mn x).2.node n = s.node n := by
    intro n hn
    rcases Nat.lt_succ_iff_lt_or_eq.mp hn with hn | rfl
    · exact .inr ⟨hn, hkeep n hn⟩
    · exact .inl ⟨rfl, mn_node⟩
  refine ⟨⟨⟨fun n hn y => ?_, fun n hn y => ?_, fun n hn => ?_⟩, Nat.le_succ _, hkeep⟩,
    Nat.lt_succ_self _, fun n hn => ?_⟩ <;> rcases hcases hn with ⟨rfl, hn'⟩ | ⟨hlt, hn'⟩ <;> rw [hn']
  · exact fun hy => (hr y hy).1
  · exact hs.below n hlt y
  · exact fun hy => (hparent y).trans (if_pos hy)
  · intro hy
    have hy' : y ≠ s.tptr := ((hs.below n hlt y hy).trans hlt).ne
    rw [hparent, if_neg fun h => (hr y h).2 n hlt hy, update_of_ne hy']
    exact hs.parent n hlt y hy
  · exact hx
  · exact hs.nodup n hlt
  · exact fun hy => (hr _ hy).1.ne rfl
  · exact fun hy => ((hs.below n hlt _ hy).trans hlt).ne rfl

namespace Built

/-- The nodes behind those of `s` do not refer to them. -/
theorem keeps_root (h : Built s q L) (hi : s.Root i) : q.2.Root i := by
  refine ⟨hi.1.trans_le h.le, fun x hx hy => ?_⟩
  by_cases hxs : x < s.tptr
  · rw [h.keeps x hxs] at hy
    exact hi.2 x hxs hy
  · exact (h.fresh x (Nat.le_of_not_lt hxs) hx i hy).not_gt hi.1

theorem mn (h : Extends s t) (hfresh : ∀ x, s.tptr ≤ x → x < t.tptr → ∀ y ∈ (t.node x).children,
    s.tptr ≤ y) (hx : x.children.Nodup) (hr : ∀ y ∈ x.children, s.tptr ≤ y ∧ t.Root y)
    (hden : Extends t (t.mn x).2 → Denotes (t.mn x).2 (t.mn x).1 L) : Built s (t.mn x) L := by
  obtain ⟨he, hroot⟩ := mn_spec h.wf hx fun y hy => (hr y hy).2
  refine ⟨h.trans he, fun n hn hlt y hy => ?_, h.le, hroot, hden he⟩
  rcases Nat.lt_succ_iff_lt_or_eq.mp hlt with hlt | rfl
  · rw [he.keeps n hlt] at hy
    exact hfresh n hn hlt y hy
  · rw [mn_node] at hy
    exact (hr y hy).1

theorem leaf (hs : s.WellFormed) (a : Leaf) : Built s (s.mn (.leaf a)) a.lang :=
  mn ⟨hs, le_rfl, fun _ _ => rfl⟩ (fun x hx hlt => absurd hlt (Nat.not_lt.mpr hx)) nodup_nil
    (fun y hy => by cases hy) fun _ => .leaf mn_node

theorem unary (h : Built s q L) (a : Unary) : Built s (q.2.mn (.unary a q.1)) (a.lang L) := by
  refine mn h.toExtends h.fresh (nodup_singleton _) (fun y hy => ?_) fun he =>
    .unary mn_node (he.denotes h.wf h.denotes h.root.1)
  rw [mem_singleton.mp hy]
  exact ⟨h.new, h.root⟩

theorem trans (h : Built s q L) (h' : Built q.2 q' M) : Built s q' M := by
  refine ⟨h.toExtends.trans h'.toExtends, fun x hx hlt y hy => ?_, h.le.trans h'.new, h'.root,
    h'.denotes⟩
  by_cases hxq : x < q.2.tptr
  · rw [h'.keeps x hxq] at hy
    exact h.fresh x hx hxq y hy
  · exact h.le.trans (h'.fresh x (Nat.le_of_not_lt hxq) hlt y hy)

theorem binary (h : Built s q L) (h' : Built q.2 q' M) (a : Binary) :
    Built s (q'.2.mn (.binary a q.1 q'.1)) (a.lang L M) := by
  have hne : q.1 ≠ q'.1 := (h.root.1.trans_le h'.new).ne
  have hden := h'.toExtends.denotes h.wf h.denotes h.root.1
  refine mn (h.trans h').toExtends (h.trans h').fresh (by simpa [Node.children]) (fun y hy => ?_)
    fun he => .binary mn_node (he.denotes h'.wf hden (h'.keeps_root h.root).1)
      (he.denotes h'.wf h'.denotes h'.root.1)
  rcases mem_cons.mp hy with rfl | hy
  · exact ⟨h.new, h'.keeps_root h.root⟩
  · rw [mem_singleton.mp hy]
    exact ⟨h.le.trans h'.new, h'.root⟩

end Built

/-! ## The actions -/

theorem dupl_spec (h : Denotes s n L) (hs : s.WellFormed) (hn : n < s.tptr) (he : Extends s t)
    (hk : n < k) : Built t (dupl k t n) L := by
  induction h generalizing t k with
  | leaf h =>
    obtain ⟨k, rfl⟩ := Nat.exists_eq_succ_of_ne_zero (Nat.ne_zero_of_lt hk)
    rw [dupl, he.keeps _ hn, h]
    exact .leaf he.wf _
  | unary h _ ih =>
    obtain ⟨k, rfl⟩ := Nat.exists_eq_succ_of_ne_zero (Nat.ne_zero_of_lt hk)
    have hd := hs.below _ hn _ (by rw [h]; exact mem_cons_self)
    rw [dupl, he.keeps _ hn, h]
    exact (ih (hd.trans hn) he (hd.trans_le (Nat.le_of_lt_succ hk))).unary _
  | binary h _ _ ih ih' =>
    obtain ⟨k, rfl⟩ := Nat.exists_eq_succ_of_ne_zero (Nat.ne_zero_of_lt hk)
    have hd := hs.below _ hn _ (by rw [h]; exact mem_cons_self)
    have hc := hs.below _ hn _ (by rw [h]; exact mem_cons_of_mem _ mem_cons_self)
    rw [dupl, he.keeps _ hn, h]
    have hb := ih (hd.trans hn) he (hd.trans_le (Nat.le_of_lt_succ hk))
    exact hb.binary (ih' (hc.trans hn) (he.trans hb.toExtends)
      (hc.trans_le (Nat.le_of_lt_succ hk))) _

theorem mn_le (he : Extends s t) (hw : (t.mn x).2.WellFormed) : Extends s (t.mn x).2 :=
  he.trans ⟨hw, Nat.le_succ _, fun _ hn => update_of_ne hn.ne ..⟩

theorem copies_spec (hr : Denotes s r L) (hs : s.WellFormed) (hlt : r < s.tptr)
    (hj : Built b q M) (he : Extends s q.2) :
    Built b (copies r k q) (M * L ^ k) ∧ Extends s (copies r k q).2 := by
  induction k generalizing q M with
  | zero => simpa using ⟨hj, he⟩
  | succ k ih =>
    have hg := dupl_spec hr hs hlt he (Nat.lt_succ_self r)
    have hj' := hj.binary hg .rcat
    have := ih hj' (mn_le (he.trans hg.toExtends) hj'.wf)
    rwa [pow_succ', ← mul_assoc]

theorem powers_succ {m : ℕ} (h : n ≤ m) : L ^ n + powers L (n + 1) m = powers L n m := by
  ext w
  constructor
  · rintro (hw | ⟨k, h1, h2, hw⟩)
    · exact ⟨n, le_rfl, h, hw⟩
    · exact ⟨k, Nat.le_of_succ_le h1, h2, hw⟩
  · rintro ⟨k, h1, h2, hw⟩
    rcases Nat.eq_or_lt_of_le h1 with rfl | h1
    · exact .inl hw
    · exact .inr ⟨k, h1, h2, hw⟩

theorem powers_empty {m : ℕ} (h : m < n) : powers L n m = 0 := by
  ext w
  refine iff_of_false ?_ (Language.notMem_zero w)
  rintro ⟨k, h1, h2, -⟩
  omega

theorem alternates_spec (hr : Denotes s r L) (hs : s.WellFormed) (hlt : r < s.tptr)
    (hj : Built b q M) (he : Extends s q.2) :
    Built b (alternates r n k q) (M + powers L (n + 1) (n + k)) := by
  induction k generalizing n q M with
  | zero =>
    have hnone : powers L (n + 1) (n + 0) = 0 := powers_empty (Nat.lt_succ_self n)
    rw [hnone, add_zero]
    exact hj
  | succ k ih =>
    have hg := dupl_spec hr hs hlt he (Nat.lt_succ_self r)
    obtain ⟨hc, hec⟩ := copies_spec (k := n) hr hs hlt hg (he.trans hg.toExtends)
    have hj' := hj.binary hc .bar
    have := ih (n := n + 1) hj' (mn_le hec hj'.wf)
    have hk : n + (k + 1) = n + 1 + k := Nat.add_right_comm n k 1
    rw [hk, ← powers_succ (Nat.le_add_right (n + 1) k), ← add_assoc, pow_succ']
    exact this

/-- What an action makes of the tree of `$1`. -/
theorem act_spec (h : Built s q L) (a : Repeat) : Built s (a.act q) (a.lang (max 1) L) := by
  have hself : Extends q.2 q.2 := ⟨h.wf, le_rfl, fun _ _ => rfl⟩
  have hcopies : ∀ k, _ := fun k => copies_spec (k := k) h.denotes h.wf h.root.1 h hself
  cases a with
  | star => exact h.unary .star
  | plus => exact h.unary .plus
  | quest => exact h.unary .quest
  | times n =>
    rw [Repeat.act, Repeat.lang]
    split_ifs with h0
    · rw [h0, pow_zero]
      exact h.trans (Built.leaf h.wf .rnulls)
    · have := (hcopies (n - 1)).1
      rwa [← pow_succ', Nat.sub_add_cancel (Nat.pos_of_ne_zero h0)] at this
  | atLeast n =>
    rw [Repeat.act, Repeat.lang]
    split_ifs with h0 h1
    · rw [h0, pow_zero, one_mul]
      exact h.unary .star
    · rw [h1, pow_one]
      exact h.unary .plus
    · obtain ⟨hj, he⟩ := hcopies (n - 2)
      have hg := dupl_spec h.denotes h.wf h.root.1 he (Nat.lt_succ_self _)
      have := hj.binary (hg.unary .plus) .rcat
      obtain ⟨k, rfl⟩ : ∃ k, n = k + 2 := ⟨n - 2, by omega⟩
      rw [pow_succ, pow_succ', mul_assoc]
      exact this
  | between n m hnm =>
    rw [Repeat.act, Repeat.lang, if_neg (Nat.not_lt.mpr hnm.1)]
    dsimp only
    rw [if_neg (by omega)]
    obtain ⟨hj, he⟩ := hcopies (n - 1)
    have := alternates_spec (n := n) (k := m - n) h.denotes h.wf h.root.1 hj he
    rw [Nat.add_sub_cancel' hnm.1, ← pow_succ'] at this
    rcases Nat.eq_zero_or_pos n with rfl | hn
    · rw [Nat.zero_sub, Nat.zero_add, ← powers_succ hnm.2, ← add_assoc, Language.add_self,
        powers_succ hnm.2] at this
      exact this
    · rw [Nat.sub_add_cancel hn, powers_succ hnm.1] at this
      rwa [Nat.max_eq_right hn]

theorem build_spec (hs : s.WellFormed) (e : Re) : Built s (e.build s) (e.mean (max 1)) := by
  induction e generalizing s with
  | leaf a => exact .leaf hs a
  | dot =>
    have h := Built.leaf hs (.rccl Lex.dot)
    have hdot : (Leaf.rccl Lex.dot).lang = Re.dot.mean (max 1) := by
      ext w
      refine exists_congr fun c => and_congr_right fun hc => and_congr_left' ?_
      simp [Ccl.Has, Lex.dot, hc]
    rwa [hdot] at h
  | str c l =>
    have hstr : ∀ {q v}, Built s q {v} →
        Built s (l.foldl (fun i c => i.2.mn (.unary (.rstr c) i.1)) q) {v ++ l} := by
      induction l with
      | nil =>
        intro q v hq
        rwa [append_nil]
      | cons a l ih =>
        intro q v hq
        have ha : (Unary.rstr a).lang {v} = {v ++ [a]} := Set.image2_singleton
        have := ih (ha ▸ hq.unary (.rstr a))
        rwa [append_assoc] at this
    exact hstr (Built.leaf hs (.chr c))
  | rep a r ih => exact act_spec (ih hs) a
  | binary a r t ih ih' =>
    have h := ih hs
    exact h.binary (ih' h.wf) a

end Arrays

/-! ## The documented languages -/

theorem Denotes.unique {s : Arrays} {n : ℕ} {L M : Language ℕ} (h : Denotes s n L)
    (h' : Denotes s n M) : L = M := by
  induction h generalizing M with
  | leaf h =>
    cases h' with
    | leaf h' =>
      cases h.symm.trans h'
      rfl
    | _ h' => cases h.symm.trans h'
  | unary h _ ih =>
    cases h' with
    | unary h' hd =>
      cases h.symm.trans h'
      rw [ih hd]
    | _ h' => cases h.symm.trans h'
  | binary h _ _ ih ih' =>
    cases h' with
    | binary h' hd hc =>
      cases h.symm.trans h'
      rw [ih hd, ih' hc]
    | _ h' => cases h.symm.trans h'

namespace Re

variable {e r : Re} {P P' : Re → Prop} {L : Language ℕ} {n m : ℕ}

/-- The tree denotes the documented language, wherever it is built. -/
def Right (e : Re) : Prop := ∀ s : Arrays, s.WellFormed → Denotes (e.build s).2 (e.build s).1 e.lang

/-- In `r{0,m}`, `r` matches the empty string. -/
def Sound : Re → Prop
  | .rep (.between n _ _) r => n = 0 → [] ∈ r.lang
  | _ => True

theorem All.self (h : e.All P) : P e := by
  cases e with
  | rep => exact h.1
  | binary => exact h.1
  | _ => exact h

theorem all_congr (h : ∀ e, P e ↔ P' e) : e.All P ↔ e.All P' := by
  rw [funext fun e => propext (h e)]

def empty : Arrays := ⟨fun _ => .leaf .rnulls, fun _ => 0, fun _ => false, 0⟩

theorem wellFormed_empty : empty.WellFormed :=
  ⟨fun _ h => absurd h (Nat.not_lt_zero _), fun _ h => absurd h (Nat.not_lt_zero _),
    fun _ h => absurd h (Nat.not_lt_zero _)⟩

theorem right_iff : e.Right ↔ e.mean (max 1) = e.lang := by
  constructor
  · exact fun h => (Arrays.build_spec wellFormed_empty e).denotes.unique (h _ wellFormed_empty)
  · intro h s hs
    exact h ▸ (Arrays.build_spec hs e).denotes

theorem nil_mem_pow (h : [] ∈ L ^ (n + 1)) : [] ∈ L := by
  rw [pow_succ] at h
  obtain ⟨a, -, b, hb, heq⟩ := h
  rwa [(append_eq_nil_iff.mp heq).2] at hb

theorem powers_max (hm : 1 ≤ m) : powers L (max 1 n) m = powers L n m ↔ (n = 0 → [] ∈ L) := by
  constructor
  · rintro h rfl
    have hnil : [] ∈ powers L 0 m := ⟨0, le_rfl, Nat.zero_le m, Language.nil_mem_one⟩
    rw [← h] at hnil
    obtain ⟨k, h1, -, hk⟩ := hnil
    obtain ⟨k, rfl⟩ := Nat.exists_eq_succ_of_ne_zero (Nat.ne_zero_of_lt h1)
    exact nil_mem_pow hk
  · intro h
    rcases Nat.eq_zero_or_pos n with rfl | hn
    · rw [← Arrays.powers_succ (Nat.zero_le m)]
      ext w
      refine ⟨.inr, fun hw => hw.elim (fun hw => ?_) id⟩
      obtain rfl : w = [] := hw
      exact ⟨1, le_rfl, hm, by rw [pow_one]; exact h rfl⟩
    · rw [Nat.max_eq_right hn]

theorem all_mean (e : Re) : e.All (fun d => d.mean (max 1) = d.lang) ↔ e.All Sound := by
  induction e with
  | leaf a => exact iff_of_true rfl trivial
  | str c l => exact iff_of_true rfl trivial
  | dot => exact iff_of_true rfl trivial
  | binary a r t ih ih' =>
    refine ⟨fun h => ⟨trivial, ih.mp h.2.1, ih'.mp h.2.2⟩, fun h => ?_⟩
    have hr := ih.mpr h.2.1
    have ht := ih'.mpr h.2.2
    exact ⟨congrArg₂ (fun L M => a.lang L M) hr.self ht.self, hr, ht⟩
  | rep a r ih =>
    have hstep : r.All (fun d => d.mean (max 1) = d.lang) →
        (a.lang (max 1) (r.mean (max 1)) = a.lang id r.lang ↔ Sound (.rep a r)) := by
      intro hr
      rw [hr.self]
      cases a with
      | between n m hnm => exact powers_max hnm.2
      | _ => exact iff_of_true rfl trivial
    constructor
    · exact fun h => ⟨(hstep h.2).mp h.1, ih.mp h.2⟩
    · exact fun h => ⟨(hstep (ih.mpr h.2)).mpr h.1, ih.mpr h.2⟩

end Re

/-! ## The tree of an expression -/

/-- Each node but `i` has one parent, the node that refers to it. -/
structure OneParent (s : Arrays) (i : ℕ) : Prop where
  parent : ∀ x < s.tptr, ∀ y ∈ (s.node x).children, s.parent y = x
  nodup : ∀ x < s.tptr, (s.node x).children.Nodup
  root : ∀ x < s.tptr, i ∉ (s.node x).children

/-- The trees are trees, and denote the languages of an expression and all its parts if and only if
in each part `r{0,m}` the expression `r` matches the empty string. -/
theorem operators_right (e : Re) :
    (∀ s : Arrays, s.WellFormed → OneParent (e.build s).2 (e.build s).1) ∧
      (e.All Re.Right ↔ e.All Re.Sound) := by
  refine ⟨fun s hs => ?_, (Re.all_congr fun _ => Re.right_iff).trans (Re.all_mean e)⟩
  have h := Arrays.build_spec hs e
  exact ⟨h.wf.parent, h.wf.nodup, h.root.2⟩

/-- The tree of `a{0,1}` does not match the empty string. -/
theorem zero_to_one_fails :
    ¬ (Re.rep (.between 0 1 ⟨Nat.zero_le 1, le_rfl⟩) (.leaf (.chr 97))).Right := by
  rw [Re.right_iff]
  intro h
  have hnil : ([] : List ℕ) = [97] := (Re.powers_max le_rfl).mp h rfl
  cases hnil

end Cmd.Lex
