import OpusSysV.Cmd.SortTree
import OpusSysV.Cmd.SortQuick

/-!
# The in-core sort of `sort/sort.c`

`msort` sorts blocks of the array of lines with `qksort`, and merges them from their ends with the
tree that the merge phase uses.

* `msort` — the routine; the lines are strings that end with a newline.
* `Core.Good` — the entries of the tree are in order, and so is what is left of each block.
* `put_good` — an entry is put into the tree with a new line of its block.
* `advance_spec`, `repeatLoop_spec`, `writeLoop_spec` — one line is taken, all lines that are like
  it with `-u`, and all lines.
* `msort_sorts` — every line is written once and in order, or one line of each kind.
-/

namespace Cmd

open Lib Function List Option

variable (compare : List Byte → List Byte → ℤ) (uflg : Bool)

/-- `TREEZ` -/
def TREEZ : ℕ := 32

/-- `(*compare)(x, y)` of two strings that end with a newline. -/
def cmpLine (x y : List Byte) : ℤ := compare (line x) (line y)

/-- The tree, the blocks, and the lines that `wline` has written. -/
structure Core where
  tree : Merge
  blkcnt : ℕ → ℕ
  blkcur : ℕ → ℕ
  out : List (List Byte)

/-- `n` sorted blocks of the `i` lines from `a` on, from block `j` on. -/
def blocks : ℕ → ℕ → ℕ → ℕ → (ℕ → Option (List Byte)) → Core →
    Option ((ℕ → Option (List Byte)) × Core)
  | 0, _, _, _, v, s => some (v, s)
  | n + 1, j, i, a, v, s =>
    let cnt := i / (n + 1)
    (qksort (cmpLine compare) uflg cnt a (a + cnt) v).bind fun v =>
      blocks n (j + 1) (i - cnt) (a + cnt) v { s with
        blkcnt := update s.blkcnt j cnt
        blkcur := update s.blkcur j (a + cnt) }

variable (v : ℕ → Option (List Byte))

/-- The tree of the first lines of `j` blocks; none if a line is empty. -/
def build : ℕ → Core → Option Core
  | 0, s => some s
  | j + 1, s =>
    (v (s.blkcur j - 1)).bind fun rp =>
      build j { s with
        blkcur := update s.blkcur j (s.blkcur j - 1)
        tree := Merge.insert compare { s.tree with
          treep := j :: s.tree.treep
          buf := update s.tree.buf j rp } }

/-- `while((blkcnt[i] > 1) && (**(blkcur[i]-1) == '\0'))`: the count and the pointer. -/
def bypass : ℕ → ℕ → ℕ × ℕ
  | cnt + 2, cur => if v (cur - 1) = none then bypass (cnt + 1) (cur - 1) else (cnt + 2, cur)
  | cnt, cur => (cnt, cur)

namespace Core

/-- The next line of the block of the first entry, or one entry less. -/
def advance (s : Core) : Option Core :=
  match s.tree.treep with
  | [] => none
  | i :: rest =>
    let (cnt, cur) := if uflg then bypass v (s.blkcnt i) (s.blkcur i) else (s.blkcnt i, s.blkcur i)
    if cnt - 1 > 0 then
      (v (cur - 1)).bind fun rp => some { s with
        blkcnt := update s.blkcnt i (cnt - 1)
        blkcur := update s.blkcur i (cur - 1)
        tree := Merge.insert compare { s.tree with buf := update s.tree.buf i rp } }
    else some { s with
      blkcnt := update s.blkcnt i (cnt - 1)
      blkcur := update s.blkcur i cur
      tree := { s.tree with
        treep := rest
        bonus := if rest = [] then s.tree.bonus else cmpsave rest.length } }

/-- `do … while (j && (*compare)((*tp)->rp, save) == 0)`, at most `k` times. -/
def repeatLoop (save : List Byte) : ℕ → Core → Option Core
  | 0, _ => none
  | k + 1, s =>
    (s.advance compare uflg v).bind fun s =>
      match s.tree.treep with
      | [] => some s
      | i :: _ =>
        if uflg ∧ cmpLine compare (s.tree.buf i) save = 0 then repeatLoop save k s else some s

/-- `while (n > 0)`, at most `k` times. -/
def writeLoop : ℕ → Core → Option Core
  | k, s =>
    match s.tree.treep with
    | [] => some s
    | i :: _ =>
      match k with
      | 0 => none
      | k + 1 =>
        (repeatLoop compare uflg v (s.tree.buf i) (k + 1)
          { s with out := s.out ++ [s.tree.buf i] }).bind (writeLoop k)

end Core

/-- `msort(a, b)` of the lines of an array. -/
def msort (lines : List (List Byte)) (s : Core) : Option Core :=
  match lines with
  | [] => some s
  | [x] => some { s with out := s.out ++ [x] }
  | lines =>
    let n := min TREEZ lines.length
    (blocks compare uflg n 0 lines.length 0 (lines[·]?) s).bind fun (v, s) =>
      (build compare v n { s with tree := { s.tree with treep := [] } }).bind fun s =>
        Core.writeLoop compare uflg v lines.length { s with
          tree := { s.tree with wasfirst := 0, notfirst := 0, bonus := cmpsave n } }

variable {compare uflg v}

theorem IsOrder.cmpLine (ho : IsOrder compare) : IsCmp (cmpLine compare) :=
  ⟨fun _ _ => ho.flip _ _, fun _ _ _ => ho.trans _ _ _⟩

theorem Reduced.trans {α : Type} {compare : α → α → ℤ} {old mid new : List α} (ho : IsCmp compare)
    (h : Reduced compare uflg old mid) (h' : Reduced compare uflg mid new) :
    Reduced compare uflg old new := by
  unfold Reduced at h h' ⊢
  split_ifs at h h' ⊢
  · refine ⟨h'.1.trans h.1, fun x hx => ?_⟩
    obtain ⟨y, hy, hxy⟩ := h.2 x hx
    obtain ⟨z, hz, hyz⟩ := h'.2 y hy
    refine ⟨z, hz, ?_⟩
    rw [← Int.sign_eq_zero_iff_zero, ← ho.sign_congr hyz x, hxy, Int.sign_zero]
  · exact h'.trans h

/-! ## The blocks -/

namespace Core

variable {s t : Core} {u : Merge} {i cnt cur : ℕ} {x : List Byte} {is rest : List ℕ}

/-- The lines that are left of a block of which `cnt` slots are left, the first of them at `cur`. -/
def lines (v : ℕ → Option (List Byte)) (cnt cur : ℕ) : List (List Byte) :=
  filled v (cur + 1 - cnt) (cur + 1)

/-- The lines that are left of the blocks of some entries. -/
def pool (v : ℕ → Option (List Byte)) (s : Core) (is : List ℕ) : List (List Byte) :=
  (is.map fun i => lines v (s.blkcnt i) (s.blkcur i)).flatten

/-- What the tree and the blocks of the entries `is` are like between the steps of the merge. -/
structure Good (compare : List Byte → List Byte → ℤ) (uflg : Bool) (v : ℕ → Option (List Byte))
    (s : Core) (is : List ℕ) : Prop where
  nodup : is.Nodup
  order : s.tree.Ordered compare is
  count : ∀ i ∈ is, 1 ≤ s.blkcnt i ∧ s.blkcnt i ≤ s.blkcur i + 1
  current : ∀ i ∈ is, v (s.blkcur i) = some (s.tree.buf i)
  sorted : ∀ i ∈ is, (lines v (s.blkcnt i) (s.blkcur i)).Pairwise fun x y => 0 ≤ cmpLine compare y x
  full : uflg = false → ∀ i ∈ is, ∀ k, s.blkcur i + 1 - s.blkcnt i ≤ k → k ≤ s.blkcur i → (v k).isSome

/-- The current line is the last one of what is left. -/
theorem lines_current (hc : 1 ≤ cnt ∧ cnt ≤ cur + 1) (hx : v cur = some x) :
    lines v cnt cur = filled v (cur + 1 - cnt) cur ++ [x] := by
  unfold lines
  rw [filled_append (b := cur) (by omega) (by omega), filled_one, hx]
  rfl

theorem Good.tail (h : Good compare uflg v s (i :: is)) : Good compare uflg v s is :=
  ⟨(nodup_cons.1 h.nodup).2, (pairwise_cons.1 h.order).2,
    fun j hj => h.count j (mem_cons_of_mem _ hj),
    fun j hj => h.current j (mem_cons_of_mem _ hj),
    fun j hj => h.sorted j (mem_cons_of_mem _ hj),
    fun hu j hj => h.full hu j (mem_cons_of_mem _ hj)⟩

/-- Other entries do not matter. -/
theorem Good.frame (h : Good compare uflg v s is)
    (hsame : ∀ j ∈ is, t.blkcnt j = s.blkcnt j ∧ t.blkcur j = s.blkcur j ∧
      t.tree.buf j = s.tree.buf j) : Good compare uflg v t is := by
  refine ⟨h.nodup, ?_, fun j hj => ?_, fun j hj => ?_, fun j hj => ?_, fun hu j hj => ?_⟩
  · refine h.order.imp_of_mem fun {a b} ha hb hab => ?_
    rwa [(hsame a ha).2.2, (hsame b hb).2.2]
  · rw [(hsame j hj).1, (hsame j hj).2.1]
    exact h.count j hj
  · rw [(hsame j hj).2.1, (hsame j hj).2.2]
    exact h.current j hj
  · rw [(hsame j hj).1, (hsame j hj).2.1]
    exact h.sorted j hj
  · rw [(hsame j hj).1, (hsame j hj).2.1]
    exact h.full hu j hj

theorem pool_frame (hsame : ∀ j ∈ is, t.blkcnt j = s.blkcnt j ∧ t.blkcur j = s.blkcur j) :
    pool v t is = pool v s is := by
  unfold pool
  congr 1
  refine map_congr_left fun j hj => ?_
  rw [(hsame j hj).1, (hsame j hj).2]

theorem pool_cons (v : ℕ → Option (List Byte)) (s : Core) (i : ℕ) (is : List ℕ) :
    pool v s (i :: is) = lines v (s.blkcnt i) (s.blkcur i) ++ pool v s is := rfl

theorem pool_perm {js : List ℕ} (h : js.Perm is) : (pool v s js).Perm (pool v s is) :=
  (h.map _).flatten

/-- **An entry is put into the tree** with a block of which `cnt` lines are left. -/
theorem put_good (ho : IsOrder compare) (h : Good compare uflg v s rest) (hi : i ∉ rest)
    (hx : v cur = some x) (hc : 1 ≤ cnt ∧ cnt ≤ cur + 1)
    (hsort : (lines v cnt cur).Pairwise fun x y => 0 ≤ cmpLine compare y x)
    (hfull : uflg = false → ∀ k, cur + 1 - cnt ≤ k → k ≤ cur → (v k).isSome)
    (hu : u.treep = i :: rest) (hbuf : u.buf = update s.tree.buf i x)
    (htree : t.tree = u.insert compare) (hcnt : ∀ j, t.blkcnt j = if j = i then cnt else s.blkcnt j)
    (hcur : ∀ j, t.blkcur j = if j = i then cur else s.blkcur j) :
    Good compare uflg v t t.tree.treep ∧ t.tree.treep.Perm (i :: rest) ∧
      (pool v t t.tree.treep).Perm (lines v cnt cur ++ pool v s rest) := by
  have hother : ∀ j ∈ rest, j ≠ i := fun j hj hji => hi (hji ▸ hj)
  have hubuf : ∀ j ∈ rest, u.buf j = s.tree.buf j := fun j hj => by
    rw [hbuf, update_of_ne (hother j hj)]
  have husort : u.Ordered compare rest := h.order.imp_of_mem fun {a b} ha hb hab => by
    rwa [hubuf a ha, hubuf b hb]
  obtain ⟨⟨-, hsame, -⟩, hperm, hord⟩ := Merge.insert_ordered ho hu husort
  have htbuf : t.tree.buf = u.buf := by rw [htree, hsame]
  rw [htree]
  have hti : t.blkcnt i = cnt ∧ t.blkcur i = cur ∧ t.tree.buf i = x := by
    rw [hcnt, hcur, htbuf, hbuf, update_self, if_pos rfl, if_pos rfl]
    exact ⟨rfl, rfl, rfl⟩
  have htj : ∀ j ∈ rest, t.blkcnt j = s.blkcnt j ∧ t.blkcur j = s.blkcur j ∧
      t.tree.buf j = s.tree.buf j := fun j hj => by
    rw [hcnt, hcur, htbuf, hubuf j hj, if_neg (hother j hj), if_neg (hother j hj)]
    exact ⟨rfl, rfl, rfl⟩
  have hrest := h.frame htj
  have hordt : t.tree.Ordered compare (u.insert compare).treep := by
    unfold Merge.Ordered
    rw [htbuf]
    exact hord
  refine ⟨?_, hperm, ?_⟩
  · refine ⟨hperm.nodup_iff.2 (nodup_cons.2 ⟨hi, h.nodup⟩), hordt, ?_, ?_, ?_, ?_⟩
    all_goals simp only [hperm.mem_iff, forall_mem_cons, hti]
    · exact ⟨hc, hrest.count⟩
    · exact ⟨hx, hrest.current⟩
    · exact ⟨hsort, hrest.sorted⟩
    · exact fun hu => ⟨hfull hu, hrest.full hu⟩
  · refine (pool_perm hperm).trans ?_
    rw [pool_cons, hti.1, hti.2.1, pool_frame fun j hj => ⟨(htj j hj).1, (htj j hj).2.1⟩]

/-- The lines that are passed over are empty. -/
theorem bypass_spec (v : ℕ → Option (List Byte)) (hc : 1 ≤ cnt ∧ cnt ≤ cur + 1) :
    ∃ cnt' cur', bypass v cnt cur = (cnt', cur') ∧ cur' ≤ cur ∧ 1 ≤ cnt' ∧ cnt' ≤ cur' + 1 ∧
      cur' + 1 - cnt' = cur + 1 - cnt ∧
      filled v (cur + 1 - cnt) cur' = filled v (cur + 1 - cnt) cur ∧
      (1 < cnt' → (v (cur' - 1)).isSome) := by
  fun_induction bypass v cnt cur with
  | case1 n cur hnone ih =>
    obtain ⟨cnt', cur', heq, h0, h1, h2, h3, h4, h5⟩ := ih (by omega)
    refine ⟨cnt', cur', heq, by omega, h1, h2, by omega, ?_, h5⟩
    rw [show cur + 1 - n.succ.succ = cur - 1 + 1 - (n + 1) by omega, h4,
      filled_append (b := cur - 1) (l := cur) (by omega) (by omega)]
    have hone := filled_one v (cur - 1)
    rw [show cur - 1 + 1 = cur by omega, hnone] at hone
    rw [hone, toList_none, append_nil]
  | case2 n cur hsome =>
    exact ⟨n + 2, cur, rfl, le_rfl, by omega, by omega, rfl, rfl,
      fun _ => isSome_iff_ne_none.2 hsome⟩
  | case3 cnt cur hsmall =>
    refine ⟨cnt, cur, rfl, le_rfl, hc.1, hc.2, rfl, rfl, fun hlt => ?_⟩
    exact absurd (show cnt = cnt - 2 + 2 by omega) (hsmall _)

/-! ## The merge -/

/-- The first entry has a line that no other line comes before. -/
theorem Good.first (ho : IsOrder compare) (h : Good compare uflg v s (i :: rest)) :
    ∀ y ∈ pool v s (i :: rest), 0 ≤ cmpLine compare (s.tree.buf i) y := by
  intro y hy
  unfold pool at hy
  obtain ⟨_, hl, hyl⟩ := mem_flatten.1 hy
  obtain ⟨j, hj, rfl⟩ := mem_map.1 hl
  have hij : 0 ≤ cmpLine compare (s.tree.buf i) (s.tree.buf j) := by
    rcases mem_cons.1 hj with rfl | hj
    · exact ho.refl _
    · exact (pairwise_cons.1 h.order).1 j hj
  have hlast := lines_current (h.count j hj) (h.current j hj)
  have hsorted := h.sorted j hj
  rw [hlast] at hyl hsorted
  rcases mem_append.1 hyl with hy | hy
  · refine ho.trans _ _ _ hij ?_
    exact (pairwise_append.1 hsorted).2.2 y hy _ (mem_singleton_self _)
  · rw [mem_singleton.1 hy]
    exact hij

/-- **The line of the first entry is taken.** -/
theorem advance_spec (ho : IsOrder compare) (h : Good compare uflg v s s.tree.treep)
    (hs : s.tree.treep = i :: rest) :
    ∃ t, s.advance compare uflg v = some t ∧ Good compare uflg v t t.tree.treep ∧ t.out = s.out ∧
      (pool v s s.tree.treep).Perm (s.tree.buf i :: pool v t t.tree.treep) := by
  rw [hs] at h ⊢
  have hi : i ∉ rest := (nodup_cons.1 h.nodup).1
  have hmem : i ∈ i :: rest := mem_cons_self
  have hcount := h.count i hmem
  have hsorted := h.sorted i hmem
  have hlast := lines_current hcount (h.current i hmem)
  obtain ⟨cnt, cur, hsel, h0, h1, h2, h3, h4, h5⟩ : ∃ cnt cur,
      (if uflg then bypass v (s.blkcnt i) (s.blkcur i) else (s.blkcnt i, s.blkcur i)) = (cnt, cur) ∧
        cur ≤ s.blkcur i ∧ 1 ≤ cnt ∧ cnt ≤ cur + 1 ∧ cur + 1 - cnt = s.blkcur i + 1 - s.blkcnt i ∧
        filled v (s.blkcur i + 1 - s.blkcnt i) cur =
          filled v (s.blkcur i + 1 - s.blkcnt i) (s.blkcur i) ∧
        (1 < cnt → (v (cur - 1)).isSome) := by
    cases uflg with
    | false =>
      exact ⟨_, _, rfl, le_rfl, hcount.1, hcount.2, rfl, rfl, fun hlt =>
        h.full rfl i hmem _ (by omega) (by omega)⟩
    | true => exact bypass_spec v hcount
  rw [← h4, ← h3] at hlast
  unfold advance
  rw [hs]
  dsimp only
  rw [hsel]
  dsimp only
  have hother : ∀ j ∈ rest, j ≠ i := fun j hj hji => hi (hji ▸ hj)
  by_cases hgt : cnt - 1 > 0
  · obtain ⟨x, hx⟩ := isSome_iff_exists.1 (h5 (by omega))
    have hleft : lines v (cnt - 1) (cur - 1) = filled v (cur + 1 - cnt) cur := by
      unfold lines
      rw [show cur - 1 + 1 - (cnt - 1) = cur + 1 - cnt by omega, show cur - 1 + 1 = cur by omega]
    rw [hlast, ← hleft] at hsorted
    rw [if_pos hgt, hx, bind_some]
    obtain ⟨hgood, -, hpool⟩ := put_good ho h.tail hi hx (by omega)
      (pairwise_append.1 hsorted).1
      (fun hu k hk1 hk2 => h.full hu i hmem k (by omega) (by omega))
      (u := { s.tree with buf := update s.tree.buf i x })
      (t := { s with
        blkcnt := update s.blkcnt i (cnt - 1)
        blkcur := update s.blkcur i (cur - 1)
        tree := Merge.insert compare { s.tree with buf := update s.tree.buf i x } })
      hs rfl rfl (fun j => update_apply ..) fun j => update_apply ..
    refine ⟨_, rfl, hgood, rfl, ?_⟩
    rw [pool_cons, hlast, ← hleft, append_assoc]
    exact (perm_append_comm_assoc ..).trans (hpool.symm.cons _)
  · have hnone : filled v (cur + 1 - cnt) cur = [] := filled_empty (by omega)
    obtain ⟨t, ht⟩ : ∃ t, t = ({ s with
        blkcnt := update s.blkcnt i (cnt - 1)
        blkcur := update s.blkcur i cur
        tree := { s.tree with
          treep := rest
          bonus := if rest = [] then s.tree.bonus else cmpsave rest.length } } : Core) := ⟨_, rfl⟩
    have hsame : ∀ j ∈ rest, t.blkcnt j = s.blkcnt j ∧ t.blkcur j = s.blkcur j ∧
        t.tree.buf j = s.tree.buf j := fun j hj => by
      rw [ht]
      exact ⟨update_of_ne (hother j hj) .., update_of_ne (hother j hj) .., rfl⟩
    have htree : t.tree.treep = rest := by rw [ht]
    rw [if_neg hgt, ← ht]
    refine ⟨t, rfl, by rw [htree]; exact h.tail.frame hsame, by rw [ht], ?_⟩
    rw [pool_cons, hlast, hnone, htree, pool_frame fun j hj => ⟨(hsame j hj).1, (hsame j hj).2.1⟩]
    exact .refl _

/-- **All lines like the one that was written** are taken with `-u`, else that line only. -/
theorem repeatLoop_spec (ho : IsOrder compare) (save : List Byte) (k : ℕ)
    (h : Good compare uflg v s s.tree.treep) (hs : s.tree.treep = i :: rest)
    (hsave : cmpLine compare (s.tree.buf i) save = 0)
    (hk : (pool v s s.tree.treep).length ≤ k) :
    ∃ t, repeatLoop compare uflg v save k s = some t ∧ Good compare uflg v t t.tree.treep ∧
      t.out = s.out ∧ ∃ dropped,
        (pool v s s.tree.treep).Perm ((s.tree.buf i :: dropped) ++ pool v t t.tree.treep) ∧
        (∀ y ∈ dropped, cmpLine compare y save = 0) ∧ (uflg = false → dropped = []) ∧
        (uflg = true → ∀ j ∈ t.tree.treep.head?, cmpLine compare (t.tree.buf j) save ≠ 0) := by
  induction k generalizing s i rest with
  | zero =>
    obtain ⟨t, -, -, -, hperm⟩ := advance_spec ho h hs
    rw [hperm.length_eq, length_cons] at hk
    omega
  | succ k ih =>
    obtain ⟨t, ht, hgood, hout, hperm⟩ := advance_spec ho h hs
    rw [hperm.length_eq, length_cons] at hk
    rw [repeatLoop, ht, bind_some]
    cases hnext : t.tree.treep with
    | nil =>
      rw [hnext] at hgood hperm
      refine ⟨t, rfl, by rwa [hnext], hout, [], ?_, nofun, fun _ => rfl, fun _ j hj => ?_⟩
      · rw [hnext]
        exact hperm
      · rw [hnext] at hj
        exact nomatch hj
    | cons j rest' =>
      dsimp only
      split_ifs with hsame
      · obtain ⟨w, hw, hgoodw, houtw, dropped, hpermw, hlike, hnone, hhead⟩ :=
          ih hgood hnext hsame.2 (by omega)
        refine ⟨w, hw, hgoodw, houtw.trans hout, t.tree.buf j :: dropped, ?_, ?_, ?_, hhead⟩
        · exact hperm.trans (hpermw.cons _)
        · exact forall_mem_cons.2 ⟨hsame.2, hlike⟩
        · exact fun hu => absurd (hu ▸ hsame.1) Bool.false_ne_true
      · refine ⟨t, rfl, hgood, hout, [], hperm, nofun, fun _ => rfl, fun hu j' hj' hzero => ?_⟩
        rw [hnext, List.head?_cons, Option.mem_some_iff] at hj'
        exact hsame ⟨hu, hj' ▸ hzero⟩

/-- **The merge writes all lines in order**, or one line of each kind. -/
theorem writeLoop_spec (uflg : Bool) (ho : IsOrder compare) (k : ℕ) (h : Good compare uflg v s s.tree.treep)
    (hk : (pool v s s.tree.treep).length ≤ k) :
    ∃ t written, writeLoop compare uflg v k s = some t ∧ t.out = s.out ++ written ∧
      Reduced (cmpLine compare) uflg (pool v s s.tree.treep) written ∧
      written.Pairwise fun x y =>
        0 ≤ cmpLine compare x y ∧ (uflg = true → cmpLine compare x y ≠ 0) := by
  have hcmp := ho.cmpLine
  induction k generalizing s with
  | zero =>
    cases hs : s.tree.treep with
    | nil =>
      refine ⟨s, [], ?_, (append_nil _).symm, .refl hcmp _ _, .nil⟩
      rw [writeLoop, hs]
    | cons i rest =>
      obtain ⟨t, -, -, -, hperm⟩ := advance_spec ho h hs
      rw [hperm.length_eq, length_cons] at hk
      omega
  | succ k ih =>
    cases hs : s.tree.treep with
    | nil =>
      refine ⟨s, [], ?_, (append_nil _).symm, .refl hcmp _ _, .nil⟩
      rw [writeLoop, hs]
    | cons i rest =>
      obtain ⟨t, ht, hgood, hout, dropped, hperm, hlike, hnone, hhead⟩ :=
        repeatLoop_spec ho (s.tree.buf i) (k + 1) (s := { s with out := s.out ++ [s.tree.buf i] })
          (h.frame fun _ _ => ⟨rfl, rfl, rfl⟩) hs (hcmp.self _) hk
      have hperm' : (pool v s s.tree.treep).Perm
        ((s.tree.buf i :: dropped) ++ pool v t t.tree.treep) := hperm
      have hlen := hperm'.length_eq
      rw [length_append, length_cons] at hlen
      obtain ⟨w, written, hw, houtw, hred, hpair⟩ := ih hgood (by omega)
      rw [hs] at hperm' h
      refine ⟨w, s.tree.buf i :: written, ?_, ?_, ?_, pairwise_cons.2 ⟨fun y hy => ?_, hpair⟩⟩
      · rw [writeLoop, hs]
        dsimp only
        rw [ht, bind_some, hw]
      · rw [houtw, hout, append_assoc]
        rfl
      · have hfirst : Reduced (cmpLine compare) uflg (s.tree.buf i :: dropped) [s.tree.buf i] := by
          unfold Reduced
          split_ifs with hu
          · refine ⟨singleton_subperm_iff.2 mem_cons_self, fun y hy => ?_⟩
            refine ⟨_, mem_singleton_self _, ?_⟩
            rcases mem_cons.1 hy with rfl | hy
            · exact hcmp.self _
            · exact hlike y hy
          · rw [hnone (Bool.eq_false_iff.2 hu)]
        exact (hfirst.append hred).perm hperm'.symm
      · have hyt : y ∈ pool v t t.tree.treep := hred.mem hy
        have hiy := h.first ho y (hperm'.mem_iff.2 (mem_append_right _ hyt))
        refine ⟨hiy, fun hu hzero => ?_⟩
        cases hnext : t.tree.treep with
        | nil =>
          rw [hnext] at hyt
          exact nomatch hyt
        | cons j rest' =>
          -- the next line to be written is not like this one, and comes before `y`
          rw [hnext] at hgood hyt
          have hjy := hgood.first ho y hyt
          have hne := hhead hu j (by rw [hnext]; rfl)
          have hjmem : t.tree.buf j ∈ pool v t (j :: rest') := by
            rw [pool_cons, lines_current (hgood.count j mem_cons_self)
              (hgood.current j mem_cons_self)]
            exact mem_append_left _ (mem_append_right _ (mem_singleton_self _))
          have hij := h.first ho (t.tree.buf j)
            (hperm'.mem_iff.2 (mem_append_right _ (hnext ▸ hjmem)))
          have hyi := (hcmp.zero_iff _ _).1 hzero
          have hback := hcmp.trans _ _ _ hjy hyi.ge
          have hflip := hcmp.flip (s.tree.buf i) (t.tree.buf j)
          have hflip' := hcmp.zero_iff (s.tree.buf i) (t.tree.buf j)
          omega

end Core

/-! ## The routine -/

/-- A sorted block of `cnt` lines that ends before `cur`. -/
structure Block (compare : List Byte → List Byte → ℤ) (uflg : Bool) (v : ℕ → Option (List Byte))
    (cnt cur : ℕ) : Prop where
  count : 1 ≤ cnt ∧ cnt ≤ cur
  last : (v (cur - 1)).isSome
  sorted : (filled v (cur - cnt) cur).Pairwise fun x y => 0 ≤ cmpLine compare y x
  full : uflg = false → ∀ k, cur - cnt ≤ k → k < cur → (v k).isSome

section routine

variable {s : Core} {w : ℕ → Option (List Byte)} {cnt cur : ℕ}

theorem Block.congr (h : Block compare uflg v cnt cur)
    (hw : ∀ k, cur - cnt ≤ k → k < cur → w k = v k) : Block compare uflg w cnt cur := by
  obtain ⟨hcount, hlast, hsorted, hfull⟩ := h
  refine ⟨hcount, ?_, ?_, fun hu k hk1 hk2 => ?_⟩
  · rwa [hw (cur - 1) (by omega) (by omega)]
  · rwa [filled_congr hw]
  · rw [hw k hk1 hk2]
    exact hfull hu k hk1 hk2

/-- The lines of some blocks. -/
def blockLines (v : ℕ → Option (List Byte)) (s : Core) (js : List ℕ) : List (List Byte) :=
  js.flatMap fun j => filled v (s.blkcur j - s.blkcnt j) (s.blkcur j)

/-- **The blocks** are sorted, and have all lines of the array. -/
theorem blocks_spec (uflg : Bool) (ho : IsOrder compare) (n j i a : ℕ) (hn : n ≤ i) (hz : n = 0 → i = 0)
    (hv : ∀ k, a ≤ k → k < a + i → (v k).isSome) :
    ∃ w t, blocks compare uflg n j i a v s = some (w, t) ∧ t.tree = s.tree ∧ t.out = s.out ∧
      (∀ k, k < a ∨ a + i ≤ k → w k = v k) ∧
      (∀ m, m < j → t.blkcnt m = s.blkcnt m ∧ t.blkcur m = s.blkcur m) ∧
      (∀ m, j ≤ m → m < j + n → a ≤ t.blkcur m - t.blkcnt m ∧ Block compare uflg w (t.blkcnt m) (t.blkcur m)) ∧
      Reduced (cmpLine compare) uflg (filled v a (a + i)) (blockLines w t (List.range' j n)) := by
  induction n generalizing j i a v s with
  | zero =>
    obtain rfl := hz rfl
    refine ⟨v, s, rfl, rfl, rfl, fun _ _ => rfl, fun _ _ => ⟨rfl, rfl⟩, fun m h1 h2 => ?_, ?_⟩
    · omega
    · rw [filled_empty (by omega)]
      exact .refl ho.cmpLine uflg _
  | succ n ih =>
    obtain ⟨c, hc⟩ : ∃ c, c = i / (n + 1) := ⟨_, rfl⟩
    have hc1 : 1 ≤ c := by
      rw [hc]
      exact (Nat.one_le_div_iff n.succ_pos).2 hn
    have hcn : c * n + c ≤ i := by
      rw [hc, ← Nat.mul_succ]
      exact Nat.div_mul_le_self i (n + 1)
    have hcn' : n ≤ c * n := Nat.le_mul_of_pos_left n hc1
    have hlast : n = 0 → i - c = 0 := by
      rintro rfl
      rw [hc, Nat.div_one, Nat.sub_self]
    obtain ⟨v₁, hv₁, hq⟩ := qksort_spec ho.cmpLine uflg c a (a + c) v (by omega) fun k h1 h2 =>
      hv k h1 (by omega)
    obtain ⟨s₁, hs₁⟩ : ∃ s₁, s₁ = ({ s with
        blkcnt := update s.blkcnt j c
        blkcur := update s.blkcur j (a + c) } : Core) := ⟨_, rfl⟩
    obtain ⟨w, t, hwt, htree, hout, hw, hbefore, hblocks, hred⟩ := ih (j + 1) (i - c) (a + c)
      (v := v₁) (s := s₁) (by omega) hlast fun k h1 h2 => by
        rw [hq.outside k (by omega)]
        exact hv k (by omega) (by omega)
    have hj : t.blkcnt j = c ∧ t.blkcur j = a + c := by
      rw [(hbefore j (by omega)).1, (hbefore j (by omega)).2, hs₁]
      exact ⟨update_self .., update_self ..⟩
    have hwv : ∀ k, a ≤ k → k < a + c → w k = v₁ k := fun k _ h2 => hw k (by omega)
    have hstart : a + c - c = a := by omega
    refine ⟨w, t, ?_, ?_, ?_, fun k hk => ?_, fun m hm => ?_, fun m h1 h2 => ?_, ?_⟩
    · rw [blocks, ← hc, hv₁, bind_some, ← hs₁, hwt]
    · rw [htree, hs₁]
    · rw [hout, hs₁]
    · rw [hw k (by omega), hq.outside k (by omega)]
    · rw [(hbefore m (by omega)).1, (hbefore m (by omega)).2, hs₁]
      exact ⟨update_of_ne (by omega) .., update_of_ne (by omega) ..⟩
    · rcases Nat.lt_or_eq_of_le h1 with hlt | rfl
      · obtain ⟨h3, h4⟩ := hblocks m (by omega) (by omega)
        exact ⟨by omega, h4⟩
      · rw [hj.1, hj.2, hstart]
        refine ⟨le_rfl, ?_⟩
        have hblock : Block compare uflg v₁ c (a + c) := by
          refine ⟨by omega, hq.last (by omega), ?_, ?_⟩
          · rw [hstart]
            exact hq.order
          · rw [hstart]
            exact hq.full
        exact hblock.congr fun k h3 h4 => hwv k (by omega) h4
    · rw [filled_append (b := a + c) (by omega) (by omega), List.range'_succ]
      have hrest : filled v (a + c) (a + i) = filled v₁ (a + c) (a + c + (i - c)) := by
        rw [show a + c + (i - c) = a + i by omega]
        exact (filled_congr fun k h1 h2 => hq.outside k (by omega)).symm
      have hhead : blockLines w t (j :: List.range' (j + 1) n) =
          filled v₁ a (a + c) ++ blockLines w t (List.range' (j + 1) n) := by
        unfold blockLines
        rw [flatMap_cons, hj.1, hj.2, hstart, filled_congr hwv]
      rw [hrest, hhead]
      exact hq.content.append hred

/-- **The tree** has the first lines of all blocks. -/
theorem build_spec (uflg : Bool) (ho : IsOrder compare) (j : ℕ)
    (h : s.Good compare uflg v s.tree.treep) (hj : ∀ m ∈ s.tree.treep, j ≤ m)
    (hblock : ∀ m < j, Block compare uflg v (s.blkcnt m) (s.blkcur m)) :
    ∃ t, build compare v j s = some t ∧ t.Good compare uflg v t.tree.treep ∧ t.out = s.out ∧
      (t.pool v t.tree.treep).Perm (blockLines v s (List.range j) ++ s.pool v s.tree.treep) := by
  induction j generalizing s with
  | zero => exact ⟨s, rfl, h, rfl, .refl _⟩
  | succ j ih =>
    obtain ⟨hcount, hlast, hsorted, hfull⟩ := hblock j j.lt_succ_self
    obtain ⟨x, hx⟩ := isSome_iff_exists.1 hlast
    have hlines : Core.lines v (s.blkcnt j) (s.blkcur j - 1) =
        filled v (s.blkcur j - s.blkcnt j) (s.blkcur j) := by
      unfold Core.lines
      rw [show s.blkcur j - 1 + 1 = s.blkcur j by omega]
    have hnot : j ∉ s.tree.treep := fun hmem => by
      have := hj j hmem
      omega
    obtain ⟨u, hu⟩ : ∃ u, u = ({ s.tree with
        treep := j :: s.tree.treep
        buf := update s.tree.buf j x } : Merge) := ⟨_, rfl⟩
    obtain ⟨t, ht⟩ : ∃ t, t = ({ s with
        blkcur := update s.blkcur j (s.blkcur j - 1)
        tree := u.insert compare } : Core) := ⟨_, rfl⟩
    have htcur : ∀ m, t.blkcur m = if m = j then s.blkcur j - 1 else s.blkcur m := fun m => by
      rw [ht]
      exact update_apply ..
    have htcnt : ∀ m, t.blkcnt m = if m = j then s.blkcnt j else s.blkcnt m := fun m => by
      rw [ht]
      split_ifs with hm
      · rw [hm]
      · rfl
    have hutree : u.treep = j :: s.tree.treep := by rw [hu]
    have hubuf : u.buf = update s.tree.buf j x := by rw [hu]
    obtain ⟨hgood, htreep, hpool⟩ := Core.put_good (t := t) ho h hnot hx (by omega)
      (by rw [hlines]; exact hsorted) (fun hf k h1 h2 => hfull hf k (by omega) (by omega))
      hutree hubuf (by rw [ht]) htcnt htcur
    obtain ⟨w, hw, hgoodw, houtw, hpoolw⟩ := ih hgood (fun m hm => by
        rcases mem_cons.1 (htreep.mem_iff.1 hm) with rfl | hm
        · exact le_rfl
        · exact Nat.le_of_succ_le (hj m hm)) fun m hm => by
        rw [htcnt, htcur, if_neg (by omega), if_neg (by omega)]
        exact hblock m (by omega)
    have hsame : blockLines v t (List.range j) = blockLines v s (List.range j) := by
      unfold blockLines
      refine flatMap_congr fun m hm => ?_
      have := mem_range.1 hm
      rw [htcnt, htcur, if_neg (by omega), if_neg (by omega)]
    refine ⟨w, ?_, hgoodw, houtw.trans (by rw [ht]), ?_⟩
    · rw [build, hx, bind_some, ← hu, ← ht, hw]
    · refine hpoolw.trans ?_
      rw [hlines] at hpool
      rw [hsame, range_succ]
      unfold blockLines
      rw [flatMap_append, append_assoc]
      refine .append_left _ ?_
      rw [flatMap_cons, flatMap_nil, append_nil]
      exact hpool

theorem filled_lines (ls : List (List Byte)) : filled (ls[·]?) 0 ls.length = ls := by
  unfold filled
  rw [Nat.sub_zero, ← range_eq_range']
  induction ls with
  | nil => rfl
  | cons x ls ih =>
    rw [length_cons, range_succ_eq_map, filterMap_cons, filterMap_map]
    exact congrArg (x :: ·) ih

/-- All lines are written in order, or with `-u` one line of each kind. -/
theorem msort_writes (ho : IsOrder compare) (uflg : Bool) (ls : List (List Byte)) (s : Core) :
    ∃ t out, msort compare uflg ls s = some t ∧ t.out = s.out ++ out ∧
      Reduced (cmpLine compare) uflg ls out ∧
      out.Pairwise fun x y =>
        0 ≤ cmpLine compare x y ∧ (uflg = true → cmpLine compare x y ≠ 0) := by
  rcases ls with _ | ⟨x, _ | ⟨y, ls⟩⟩
  · exact ⟨s, [], rfl, (append_nil _).symm, .refl ho.cmpLine uflg _, .nil⟩
  · exact ⟨_, [x], rfl, rfl, .refl ho.cmpLine uflg _, pairwise_singleton _ _⟩
  obtain ⟨n, hn⟩ : ∃ n, n = min TREEZ (x :: y :: ls).length := ⟨_, rfl⟩
  have hn0 : n ≠ 0 := by
    rw [hn, TREEZ, length_cons]
    omega
  obtain ⟨v, u, hblocks, htree, hout, -, -, hblock, hred⟩ := blocks_spec (s := s)
    (v := ((x :: y :: ls)[·]?)) uflg ho n 0 (x :: y :: ls).length 0 (by omega) (by omega)
    fun k _ hk => by
      rw [List.getElem?_eq_getElem (by omega)]
      rfl
  rw [Nat.zero_add, filled_lines, ← range_eq_range'] at hred
  obtain ⟨u', hu'⟩ : ∃ u', u' = ({ u with tree := { u.tree with treep := [] } } : Core) := ⟨_, rfl⟩
  have hempty : u'.tree.treep = [] := by rw [hu']
  have hsame : blockLines v u' (List.range n) = blockLines v u (List.range n) := by rw [hu']; rfl
  obtain ⟨t, ht, hgood, houtt, hpool⟩ := build_spec (s := u') (v := v) uflg ho n
    (by rw [hempty]; exact ⟨.nil, .nil, nofun, nofun, nofun, fun _ => nofun⟩)
    (by rw [hempty]; exact nofun)
    fun m hm => by
      rw [hu']
      exact (hblock m (by omega) (by omega)).2
  have hpool' : (t.pool v t.tree.treep).Perm (blockLines v u (List.range n)) := by
    rw [hempty, hsame] at hpool
    exact hpool.trans (.of_eq (append_nil _))
  obtain ⟨t', ht'⟩ : ∃ t', t' = ({ t with
      tree := { t.tree with wasfirst := 0, notfirst := 0, bonus := cmpsave n } } : Core) := ⟨_, rfl⟩
  have htreep : t'.tree.treep = t.tree.treep := by rw [ht']
  have hpoolt : t'.pool v t'.tree.treep = t.pool v t.tree.treep := by
    rw [htreep, ht']
    rfl
  have hlen : (t.pool v t.tree.treep).length ≤ (x :: y :: ls).length := by
    rw [hpool'.length_eq]
    exact hred.length_le
  obtain ⟨w, out, hw, houtw, hredw, hpair⟩ := Core.writeLoop_spec (s := t') uflg ho
    (x :: y :: ls).length
    (by rw [htreep]; exact hgood.frame fun j _ => by rw [ht']; exact ⟨rfl, rfl, rfl⟩)
    (by rwa [hpoolt])
  rw [hpoolt] at hredw
  refine ⟨w, out, ?_, ?_, hred.trans ho.cmpLine (hredw.perm hpool'), hpair⟩
  · rw [msort]
    · dsimp only
      rw [← hn, hblocks, bind_some, ← hu', ht, bind_some, ← ht', hw]
    · exact fun h => nomatch h
    · exact fun z h => nomatch h
  · rw [houtw, ht', houtt, hu', hout]

/-- **The in-core sort is a sort.**  `msort` writes the lines of any array in order, each of them
once, or with `-u` one line of each kind; `qksort` ends, and compares no line that was emptied. -/
theorem msort_sorts (ho : IsOrder compare) (uflg : Bool) :
    (∀ (ls : List (List Byte)) (s : Core), ∃ t out, msort compare uflg ls s = some t ∧
      t.out = s.out ++ out ∧ (out.Pairwise fun x y => 0 ≤ cmpLine compare x y) ∧
      (uflg = false → out.Perm ls) ∧
      (uflg = true → out.Subperm ls ∧
        ∀ x ∈ ls, (out.countP fun y => cmpLine compare x y = 0) = 1)) ∧
    ∀ (v : ℕ → Option (List Byte)) (a l : ℕ), (∀ k, a ≤ k → k < l → (v k).isSome) →
      ∃ w, qksort (cmpLine compare) uflg (l - a) a l v = some w := by
  refine ⟨fun ls s => ?_, fun v a l hv => ?_⟩
  · obtain ⟨t, out, ht, hout, hred, hpair⟩ := msort_writes ho uflg ls s
    refine ⟨t, out, ht, hout, hpair.imp fun h => h.1, fun hu => ?_, fun hu => ?_⟩
    · rwa [Reduced, hu, if_neg Bool.false_ne_true] at hred
    · rw [Reduced, hu, if_pos rfl] at hred
      refine ⟨hred.1, fun x hx => ?_⟩
      exact ho.cmpLine.countP_one (hpair.imp fun h => h.2 hu) (hred.2 x hx)
  · obtain ⟨w, hw, -⟩ := qksort_spec ho.cmpLine uflg (l - a) a l v le_rfl hv
    exact ⟨w, hw⟩

/-- Lines in the default order, `-u` given. -/
theorem msort_sorts_three :
    IsOrder (cmpa 1) ∧ ∃ t out, msort (cmpa 1) true [[98, 10], [97, 10], [98, 10]]
      ⟨⟨[], fun _ => [], fun _ => [], 0, 0, 0, []⟩, fun _ => 0, fun _ => 0, []⟩ = some t ∧
      t.out = out ∧ out.Subperm [[98, 10], [97, 10], [98, 10]] ∧
      (out.countP fun y => cmpLine (cmpa 1) [98, 10] y = 0) = 1 := by
  have ho : IsOrder (cmpa 1) := cmpa_order (.inl rfl)
  refine ⟨ho, ?_⟩
  obtain ⟨t, out, ht, hout, -, -, huniq⟩ := (msort_sorts ho true).1 [[98, 10], [97, 10], [98, 10]]
    ⟨⟨[], fun _ => [], fun _ => [], 0, 0, 0, []⟩, fun _ => 0, fun _ => 0, []⟩
  exact ⟨t, out, ht, hout, (huniq rfl).1, (huniq rfl).2 _ mem_cons_self⟩

end routine

end Cmd
