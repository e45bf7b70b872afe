import OpusSysV.Lib.Comparator
import OpusSysV.Lib.Run
import Mathlib.Data.List.Nodup
import Mathlib.Data.List.Perm.Basic
import Mathlib.Tactic.Common

/-!
# Search trees

* `tsearch`, `tdelete`, `twalk` — the tree as its nodes hang together, each with its address.
* `entries` — the nodes from left to right; what the routines do is said of this list.
-/

namespace Libc.Tsearch

open Lib Function List

variable {α : Type*}

/-- `NODE`, with its address. -/
inductive Tree (α : Type*) where
  | null
  | node (addr : ℕ) (key : α) (llink rlink : Tree α)

open Tree

/-- `VISIT` -/
inductive VISIT where
  | preorder
  | postorder
  | endorder
  | leaf
  deriving DecidableEq

section

variable (compar : α → α → ℤ) (key : α)

/-- `tsearch`: the tree and the node found or made.  `new` is what `malloc` gives. -/
def tsearch (new : Option ℕ) : Tree α → Tree α × Option ℕ
  | null => (new.elim null fun q => node q key null null, new)
  | node a k l r =>
    if compar key k = 0 then (node a k l r, some a)
    else if compar key k < 0 then
      (node a k (tsearch new l).1 r, (tsearch new l).2)
    else (node a k l (tsearch new r).1, (tsearch new r).2)

/-- D3: the walk from a node to the last one on its left, which is taken out. -/
def detach : ℕ → α → Tree α → Tree α → (ℕ × α) × Tree α
  | a, k, null, r => ((a, k), r)
  | a, k, node b x l s, r => ((detach b x l s).1, node a k (detach b x l s).2 r)

/-- D1 and D2: what takes the place of a node with the sons `q` and `r`. -/
def successor : Tree α → Tree α → Tree α
  | null, r => r
  | q, null => q
  | q, node b x null s => node b x q s
  | q, node b x (node c y l m) s =>
    node (detach c y l m).1.1 (detach c y l m).1.2 q (node b x (detach c y l m).2 s)

/-- The loop of `tdelete` below the node `p`: the tree, the node freed and the one returned. -/
def deleteFrom : ℕ → Tree α → Tree α × Option (ℕ × ℕ)
  | _, null => (null, none)
  | p, node a k l r =>
    if compar key k = 0 then (successor l r, some (a, p))
    else if compar key k < 0 then (node a k (deleteFrom a l).1 r, (deleteFrom a l).2)
    else (node a k l (deleteFrom a r).1, (deleteFrom a r).2)

/-- `tdelete` -/
def tdelete : Tree α → Tree α × Option (ℕ × ℕ)
  | null => (null, none)
  | node a k l r => deleteFrom compar key a (node a k l r)

end

/-- `__twalk`: the calls of `action`. -/
def twalk : ℕ → Tree α → List (ℕ × VISIT × ℕ)
  | _, null => []
  | level, node a _ null null => [(a, .leaf, level)]
  | level, node a _ l r =>
    (a, .preorder, level) :: twalk (level + 1) l ++ (a, .postorder, level) ::
      (twalk (level + 1) r ++ [(a, .endorder, level)])

/-- The nodes from left to right. -/
def entries : Tree α → List (ℕ × α)
  | null => []
  | node a k l r => entries l ++ (a, k) :: entries r

/-- The calls on one tree. -/
inductive Call (α : Type*) where
  | search (key : α) (new : Option ℕ)
  | delete (key : α)

/-- One call.  `malloc` gives no node that is in the tree. -/
def step (compar : α → α → ℤ) (t : Tree α) : Call α → Option (Tree α)
  | .search key new =>
    if new.any fun a => a ∈ (entries t).map (·.1) then none
    else some (tsearch compar key new t).1
  | .delete key => some (tdelete compar key t).1

/-- The keys that are to be held, each with its node: what is inserted and not deleted since. -/
def held (compar : α → α → ℤ) (h : List (ℕ × α)) : Call α → List (ℕ × α)
  | .search key new =>
    if ∃ e ∈ h, compar key e.2 = 0 then h else new.toList.map (·, key) ++ h
  | .delete key => h.filter fun e => compar key e.2 ≠ 0

/-- The nodes reported to `action` with `v` or as leaves. -/
def reported (v : VISIT) (w : List (ℕ × VISIT × ℕ)) : List ℕ :=
  (w.filter fun x => x.2.1 = v ∨ x.2.1 = .leaf).map (·.1)

/-! ## One call -/

section

variable {compar : α → α → ℤ} {key k : α} {a : ℕ}
  {L R es : List (ℕ × α)} {t : Tree α} {v : VISIT} {x : ℕ × VISIT × ℕ} {w w' : List (ℕ × VISIT × ℕ)}

/-- The keys stand in order: a search tree, if said of its entries. -/
def Sorted (compar : α → α → ℤ) (es : List (ℕ × α)) : Prop :=
  es.Pairwise fun e f => compar e.2 f.2 < 0

/-- `key` belongs between the two lists. -/
def Between (compar : α → α → ℤ) (key : α) (L R : List (ℕ × α)) : Prop :=
  (∀ e ∈ L, 0 < compar key e.2) ∧ ∀ e ∈ R, compar key e.2 < 0

theorem side (h : IsCmp compar) {e f : ℕ × α} (hlt : compar e.2 f.2 < 0) :
    compar key f.2 < 0 ∨ 0 < compar key e.2 := by
  have h1 := h.flip key e.2
  have h2 := h.trans e.2 key f.2
  omega

/-- A node divides the others. -/
theorem Between.at (key : α) (h : IsCmp compar) (hs : Sorted compar (L ++ (a, k) :: R)) :
    (compar key k ≤ 0 → ∀ e ∈ R, compar key e.2 < 0) ∧
      (0 ≤ compar key k → ∀ e ∈ L, 0 < compar key e.2) := by
  obtain ⟨-, hR, hL⟩ := pairwise_append.1 hs
  refine ⟨fun hk e he => ?_, fun hk e he => ?_⟩
  · exact (side h ((pairwise_cons.1 hR).1 e he)).resolve_right (not_lt_of_ge hk)
  · exact (side h (hL e he _ mem_cons_self)).resolve_left (not_lt_of_ge hk)

theorem Between.left (h : IsCmp compar) (hs : Sorted compar (es ++ (a, k) :: entries t))
    (hk : compar key k < 0) (hb : Between compar key L R) :
    Between compar key L (R ++ (a, k) :: entries t) :=
  ⟨hb.1, forall_mem_append.2 ⟨hb.2, forall_mem_cons.2 ⟨hk, (Between.at key h hs).1 hk.le⟩⟩⟩

theorem Between.right (h : IsCmp compar) (hs : Sorted compar (entries t ++ (a, k) :: es))
    (hk : 0 < compar key k) (hb : Between compar key L R) :
    Between compar key (entries t ++ (a, k) :: L) R :=
  ⟨forall_mem_append.2 ⟨(Between.at key h hs).2 hk.le, forall_mem_cons.2 ⟨hk, hb.1⟩⟩, hb.2⟩

theorem tsearch_spec (key : α) (new : Option ℕ) (h : IsCmp compar)
    (hs : Sorted compar (entries t)) :
    ∃ L R, Between compar key L R ∧
      ((∃ e, entries t = L ++ e :: R ∧ compar key e.2 = 0 ∧
          tsearch compar key new t = (t, some e.1)) ∨
        entries t = L ++ R ∧ (tsearch compar key new t).2 = new ∧
          entries (tsearch compar key new t).1 = L ++ (new.toList.map (·, key) ++ R)) := by
  induction t with
  | null =>
    refine ⟨[], [], ⟨by simp, by simp⟩, .inr ⟨rfl, rfl, ?_⟩⟩
    cases new <;> rfl
  | node b k l r ihl ihr =>
    obtain ⟨hl, hr, -⟩ := pairwise_append.1 hs
    rcases lt_trichotomy (compar key k) 0 with hk | hk | hk
    · obtain ⟨L, R, hb, hf⟩ := ihl hl
      refine ⟨L, _, hb.left h hs hk, ?_⟩
      rw [tsearch, if_neg hk.ne, if_pos hk]
      rcases hf with ⟨e, he, he0, ht⟩ | ⟨he, hn, ht⟩
      · exact .inl ⟨e, by simp [entries, he], he0, by simp [ht]⟩
      · exact .inr ⟨by simp [entries, he], hn, by simp [entries, ht]⟩
    · have hb := Between.at key h hs
      refine ⟨_, _, ⟨hb.2 hk.ge, hb.1 hk.le⟩, .inl ⟨(b, k), rfl, hk, ?_⟩⟩
      rw [tsearch, if_pos hk]
    · obtain ⟨L, R, hb, hf⟩ := ihr (pairwise_cons.1 hr).2
      refine ⟨_, R, hb.right h hs hk, ?_⟩
      rw [tsearch, if_neg hk.ne', if_neg hk.not_gt]
      rcases hf with ⟨e, he, he0, ht⟩ | ⟨he, hn, ht⟩
      · exact .inl ⟨e, by simp [entries, he], he0, by simp [ht]⟩
      · exact .inr ⟨by simp [entries, he], hn, by simp [entries, ht]⟩

theorem entries_detach (a : ℕ) (k : α) (l r : Tree α) :
    (detach a k l r).1 :: entries (detach a k l r).2 = entries l ++ (a, k) :: entries r := by
  induction l generalizing a k r with
  | null => rfl
  | node b x l s ih =>
    simp [detach, entries, ← ih]

theorem entries_successor (q r : Tree α) : entries (successor q r) = entries q ++ entries r := by
  rcases q with _ | ⟨a, k, q, q'⟩
  · rfl
  · rcases r with _ | ⟨b, x, _ | ⟨c, y, l, m⟩, s⟩
    · simp [successor, entries]
    · rfl
    · simp [successor, entries, ← entries_detach c y l m]

theorem deleteFrom_spec (key : α) (p : ℕ) (h : IsCmp compar) (hs : Sorted compar (entries t)) :
    ∃ L R, Between compar key L R ∧ entries (deleteFrom compar key p t).1 = L ++ R ∧
      ((∃ e q, entries t = L ++ e :: R ∧ compar key e.2 = 0 ∧
          (deleteFrom compar key p t).2 = some (e.1, q)) ∨
        entries t = L ++ R ∧ (deleteFrom compar key p t).2 = none) := by
  induction t generalizing p with
  | null => exact ⟨[], [], ⟨by simp, by simp⟩, rfl, .inr ⟨rfl, rfl⟩⟩
  | node b k l r ihl ihr =>
    obtain ⟨hl, hr, -⟩ := pairwise_append.1 hs
    rcases lt_trichotomy (compar key k) 0 with hk | hk | hk
    · obtain ⟨L, R, hb, ht, hf⟩ := ihl b hl
      refine ⟨L, _, hb.left h hs hk, ?_⟩
      rw [deleteFrom, if_neg hk.ne, if_pos hk]
      refine ⟨by simp [entries, ht], hf.imp ?_ ?_⟩
      · rintro ⟨e, q, he, he0, hd⟩
        exact ⟨e, q, by simp [entries, he], he0, hd⟩
      · rintro ⟨he, hd⟩
        exact ⟨by simp [entries, he], hd⟩
    · have hb := Between.at key h hs
      refine ⟨_, _, ⟨hb.2 hk.ge, hb.1 hk.le⟩, ?_⟩
      rw [deleteFrom, if_pos hk]
      exact ⟨entries_successor l r, .inl ⟨(b, k), p, rfl, hk, rfl⟩⟩
    · obtain ⟨L, R, hb, ht, hf⟩ := ihr b (pairwise_cons.1 hr).2
      refine ⟨_, R, hb.right h hs hk, ?_⟩
      rw [deleteFrom, if_neg hk.ne', if_neg hk.not_gt]
      refine ⟨by simp [entries, ht], hf.imp ?_ ?_⟩
      · rintro ⟨e, q, he, he0, hd⟩
        exact ⟨e, q, by simp [entries, he], he0, hd⟩
      · rintro ⟨he, hd⟩
        exact ⟨by simp [entries, he], hd⟩

@[simp] theorem reported_nil : reported v [] = [] := rfl

@[simp] theorem reported_append : reported v (w ++ w') = reported v w ++ reported v w' := by
  simp [reported]

@[simp] theorem reported_cons : reported v (x :: w) =
    if x.2.1 = v ∨ x.2.1 = .leaf then x.1 :: reported v w else reported v w := by
  rw [reported, filter_cons, apply_ite (map _)]
  simp only [decide_eq_true_eq]
  rfl

theorem twalk_spec (t : Tree α) (level : ℕ) :
    reported .postorder (twalk level t) = (entries t).map (·.1) ∧
      ∀ v, v ≠ .leaf → reported v (twalk level t) ~ (entries t).map (·.1) := by
  fun_induction twalk level t with
  | case1 => simp [entries]
  | case2 => simp [entries]
  | case3 level b k l r hn ihl ihr =>
    refine ⟨by simp [entries, ihl.1, ihr.1], fun v hv => ?_⟩
    have hl := ihl.2 v hv
    have hr := ihr.2 v hv
    cases v with
    | leaf => exact absurd rfl hv
    | preorder => simpa [entries] using ((hl.append hr).cons b).trans perm_middle.symm
    | postorder => simpa [entries] using hl.append (hr.cons b)
    | endorder =>
      simpa [entries] using hl.append ((hr.append_right [b]).trans perm_append_comm)

/-! ## Runs -/

/-- What holds of a tree and of the keys that it is to hold. -/
def Holds (compar : α → α → ℤ) (t : Tree α) (h : List (ℕ × α)) : Prop :=
  Sorted compar (entries t) ∧ ((entries t).map (·.1)).Nodup ∧ entries t ~ h

theorem tdelete_eq (compar : α → α → ℤ) (key : α) (t : Tree α) :
    ∃ p, tdelete compar key t = deleteFrom compar key p t := by
  cases t with
  | null => exact ⟨0, rfl⟩
  | node a k l r => exact ⟨a, rfl⟩

theorem Between.ne (hb : Between compar key L R) : ∀ e ∈ L ++ R, compar key e.2 ≠ 0 :=
  forall_mem_append.2 ⟨fun e he => (hb.1 e he).ne', fun e he => (hb.2 e he).ne⟩

theorem step_holds (h : IsCmp compar) {t t' : Tree α} {hs : List (ℕ × α)} {c : Call α}
    (ht : Holds compar t hs) (hstep : step compar t c = some t') :
    Holds compar t' (held compar hs c) := by
  obtain ⟨hsort, hnodup, hperm⟩ := ht
  cases c with
  | search key new =>
    rw [step, ite_eq_iff] at hstep
    obtain ⟨-, hbad⟩ | ⟨hnew, ht⟩ := hstep
    · cases hbad
    cases ht
    obtain ⟨L, R, hb, ⟨e, he, he0, hf⟩ | ⟨he, hn, hf⟩⟩ := tsearch_spec key new h hsort
    · rw [hf, held, if_pos ⟨e, hperm.subset (he ▸ by simp), he0⟩]
      exact ⟨hsort, hnodup, hperm⟩
    · have hne : ∀ e ∈ hs, compar key e.2 ≠ 0 := fun e hm => hb.ne e (he ▸ hperm.mem_iff.2 hm)
      rw [held, if_neg (by simpa using fun a x => hne (a, x))]
      cases new with
      | none =>
        rw [Holds, hf]
        exact he ▸ ⟨hsort, hnodup, hperm⟩
      | some a =>
        have hp : L ++ (a, key) :: R ~ (a, key) :: entries t := he ▸ perm_middle
        rw [Holds, hf]
        refine ⟨?_, (hp.map _).nodup_iff.2 (nodup_cons.2 ⟨by simpa using hnew, hnodup⟩),
          hp.trans (hperm.cons _)⟩
        rw [he, Sorted, pairwise_append] at hsort
        refine pairwise_append.2 ⟨hsort.1, pairwise_cons.2 ⟨hb.2, hsort.2.1⟩, fun e hm => ?_⟩
        exact forall_mem_cons.2 ⟨(h.flip _ _).1 (hb.1 e hm), hsort.2.2 e hm⟩
  | delete key =>
    cases hstep
    obtain ⟨p, hd⟩ := tdelete_eq compar key t
    obtain ⟨L, R, hb, hf, hcase⟩ := deleteFrom_spec key p h hsort
    have hsub : L ++ R <+ entries t := by
      rcases hcase with ⟨e, -, he, -⟩ | ⟨he, -⟩
      · exact he ▸ (sublist_cons_self e R).append_left L
      · exact he ▸ Sublist.refl _
    have hkeep : (entries t).filter (fun e => compar key e.2 ≠ 0) = L ++ R := by
      have hLR := filter_eq_self.2 fun e he => decide_eq_true (hb.ne e he)
      rcases hcase with ⟨e, -, he, he0, -⟩ | ⟨he, -⟩
      · rw [he, filter_append, filter_cons_of_neg (by simpa using he0), ← filter_append, hLR]
      · rw [he, hLR]
    rw [Holds, hd, hf, held]
    exact ⟨hsort.sublist hsub, hnodup.sublist (hsub.map _), hkeep ▸ hperm.filter _⟩

end

/-- **Search trees**: after every sequence of calls the tree is a search tree that holds the keys
inserted and not deleted since, each once; `tsearch` returns the node of an equal key, or puts the
key in the new node; `tdelete` frees the node of an equal key, the others are as they were; `twalk`
reports every node, and those from left to right in order. -/
theorem calls_hold {compar : α → α → ℤ} (h : IsCmp compar) {calls : List (Call α)} {t : Tree α}
    (hrun : exec (step compar) null calls = some t) :
    Holds compar t (calls.foldl (held compar) []) ∧
      (∀ key new, (∃ e ∈ entries t, compar key e.2 = 0 ∧
          tsearch compar key new t = (t, some e.1)) ∨
        (∀ e ∈ entries t, compar key e.2 ≠ 0) ∧ (tsearch compar key new t).2 = new ∧
          ∃ L R, entries t = L ++ R ∧
            entries (tsearch compar key new t).1 = L ++ (new.toList.map (·, key) ++ R)) ∧
      (∀ key, ∃ L R, entries (tdelete compar key t).1 = L ++ R ∧
        ((∃ e p, entries t = L ++ e :: R ∧ compar key e.2 = 0 ∧
            (tdelete compar key t).2 = some (e.1, p)) ∨
          entries t = L ++ R ∧ (∀ e ∈ entries t, compar key e.2 ≠ 0) ∧
            (tdelete compar key t).2 = none)) ∧
      reported .postorder (twalk 0 t) = (entries t).map (·.1) ∧
      ∀ v, v ≠ .leaf → reported v (twalk 0 t) ~ (entries t).map (·.1) := by
  have hnull : Holds compar null [] := ⟨.nil, .nil, .refl []⟩
  have hh := exec_simulation (fun _ _ _ _ => step_holds h) hnull hrun
  refine ⟨hh, fun key new => ?_, fun key => ?_, twalk_spec t 0⟩
  · obtain ⟨L, R, hb, ⟨e, he, he0, hf⟩ | ⟨he, hn, hf⟩⟩ := tsearch_spec key new h hh.1
    · exact .inl ⟨e, he ▸ by simp, he0, hf⟩
    · exact .inr ⟨he ▸ hb.ne, hn, L, R, he, hf⟩
  · obtain ⟨p, hd⟩ := tdelete_eq compar key t
    obtain ⟨L, R, hb, hf, hcase⟩ := deleteFrom_spec key p h hh.1
    rw [hd]
    refine ⟨L, R, hf, hcase.imp_right ?_⟩
    rintro ⟨he, hn⟩
    exact ⟨he, he ▸ hb.ne, hn⟩

/-- Three keys below a root, which is then deleted. -/
theorem calls_hold_root : ∃ t, Holds (fun a b : ℤ => a - b) t ([.search 5 (some 1),
    .search 2 (some 2), .search 9 (some 3), .search 7 (some 4), .delete 5].foldl
      (held fun a b => a - b) []) := by
  have h : IsCmp fun a b : ℤ => a - b := .of_key (fun a => -a) (by simp) (by simp)
  exact ⟨_, (calls_hold h rfl).1⟩

end Libc.Tsearch
