import OpusSysV.Lib.Sweep
import Mathlib.Order.Interval.Finset.Nat
import Mathlib.Data.Finset.Card

/-!
# The character classes of lex: `cclinter` of `sub1.c`, `cfoll` and `member` of `sub2.c`

`cindex` gives each character the number of a block.  `cclinter` is called for each class, and for
each `.`, with the members of the class in `symbol`.

* `Classes.cclinter`, `Classes.call` — the three passes, and the actions of the scanner and the
  parser that call them.
* `packed`, `member` — the list of block numbers that `cfoll` puts in the place of a class.
* `Refines` — what one call does: a block is cut where the working set begins or ends.
* `Splitting` — what the last pass keeps; `cclinter_refines` is a call.
* `classes_partition` — all classes are unions of blocks, after any calls.
-/

namespace Cmd.Lex

open Lib Function List

/-- `NCH` -/
def NCH : ℕ := 128

/-- The characters of the loops from 1 to `NCH`. -/
def chars : List ℕ := List.range' 1 (NCH - 1)

/-- The variables of the classes; `psave` is true when it is set. -/
structure Classes where
  symbol : ℕ → Bool
  cindex : ℕ → ℕ
  ccount : ℕ
  psave : Bool

namespace Classes

/-! ## cclinter -/

/-- `symbol[i] ^= 1` -/
def reverse (s : Classes) : Classes :=
  chars.foldl (fun s i => { s with symbol := update s.symbol i (!s.symbol i) }) s

/-- "see if ccl is already in our table" -/
def already (s : Classes) (i : ℕ) : Bool :=
  i ≠ 0 && chars.all fun j => !(s.symbol j && s.cindex j ≠ i || !s.symbol j && s.cindex j = i)

/-- The variables of the second pass. -/
structure Pass where
  s : Classes
  m : Bool
  k : Bool

/-- A member goes to the new block, if it is in none. -/
def Pass.enter (x : Pass) (i : ℕ) : Pass :=
  if x.s.symbol i then
    if x.s.cindex i = 0 then
      ⟨{ x.s with
        cindex := update x.s.cindex i x.s.ccount
        symbol := update x.s.symbol i false }, true, x.k⟩
    else { x with k := true }
  else x

/-- A character of block `j`: a member stays, another one goes to the new block. -/
def split (j : ℕ) (x : Classes × Bool) (k : ℕ) : Classes × Bool :=
  if x.1.cindex k = j then
    if x.1.symbol k then ({ x.1 with symbol := update x.1.symbol k false }, x.2)
    else ({ x.1 with cindex := update x.1.cindex k x.1.ccount }, true)
  else x

/-- `if(m)ccount++;` -/
def counted (s : Classes) (m : Bool) : Classes := if m then { s with ccount := s.ccount + 1 } else s

/-- "intersection must be computed": the block of a member is split. -/
def splitBlock (s : Classes) (i : ℕ) : Classes :=
  if s.symbol i then
    let r := chars.foldl (split (s.cindex i)) (s, false)
    r.1.counted r.2
  else s

/-- `cclinter(sw)` -/
def cclinter (sw : Bool) (s : Classes) : Classes :=
  let s := if sw then s else s.reverse
  match chars.find? s.symbol with
  | none => s
  | some i =>
    if s.already (s.cindex i) then s
    else
      let r := chars.foldl Pass.enter ⟨s, false, false⟩
      let s := r.s.counted r.m
      if r.k then chars.foldl splitBlock s else s

end Classes

/-! ## The calls -/

/-- A class in the tree: the string of its characters, which are those of a complement if `not` is
set. -/
structure Ccl where
  not : Bool
  str : List ℕ
  mem_chars : ∀ c ∈ str, c ∈ chars

/-- `d` is in the class. -/
def Ccl.Has (K : Ccl) (d : ℕ) : Prop := if K.not then d ∉ K.str else d ∈ K.str

/-- The class of `.`: all characters but the newline. -/
def dot : Ccl where
  not := false
  str := chars.filter (· ≠ 10)
  mem_chars _ h := mem_of_mem_filter h

/-- A class was scanned, or a `.` parsed. -/
inductive Call where
  | ccl (K : Ccl)
  | dot

/-- The call of `cclinter`.  The scanner has put the characters into `symbol`; the parser does so for
the first `.` only. -/
def Classes.call (s : Classes) : Call → Classes
  | .ccl K => { s with symbol := fun c => c ∈ K.str }.cclinter (!K.not)
  | .dot =>
    let s := { s with symbol := update s.symbol 10 false }
    let s :=
      if s.psave then s
      else { s with psave := true, symbol := fun c => if c ∈ chars then c ≠ 10 else s.symbol c }
    s.cclinter true

/-- The class of a call. -/
def Call.cls : Call → Ccl
  | .ccl K => K
  | .dot => Lex.dot

/-- Before the first class. -/
def Classes.start : Classes := ⟨fun _ => false, fun _ => 0, 1, false⟩

/-- The string that `cfoll` leaves for a class. -/
def packed (cindex : ℕ → ℕ) (K : Ccl) : List ℕ :=
  let symbol := K.str.foldl (fun f p => update f p (!K.not)) fun _ => K.not
  chars.foldl
    (fun q j => if symbol j then if cindex j ∈ q then q else q ++ [cindex j] else q) [] ++ [0]

/-- `member(d, t)` -/
def member (cindex : ℕ → ℕ) (d : ℕ) : List ℕ → Bool
  | [] => false
  | s :: t => if s = 0 then false else if s = cindex d then true else member cindex d t

/-! ## The loops -/

namespace Classes

variable {l : List ℕ} {s t u : Classes} {S : ℕ → Bool} {i j k : ℕ}

theorem chars_nodup : chars.Nodup := nodup_range'

theorem reverse_apply (s : Classes) {k : ℕ} (hk : k ∈ chars) :
    s.reverse.symbol k = !s.symbol k := by
  have h : Sweep (fun s : Classes => s.symbol) (fun _ => True) (fun b => !b)
      (fun s i => { s with symbol := update s.symbol i (!s.symbol i) }) :=
    ⟨fun _ _ _ => trivial, fun _ _ _ => update_self .., fun _ _ _ hj =>
      update_of_ne hj ..⟩
  have hcell := h.cell_foldl chars_nodup (x := s) trivial k
  rwa [if_pos hk] at hcell

theorem reverse_same (s : Classes) :
    s.reverse.cindex = s.cindex ∧ s.reverse.ccount = s.ccount ∧ s.reverse.psave = s.psave := by
  unfold reverse
  generalize chars = l
  induction l generalizing s with
  | nil => exact ⟨rfl, rfl, rfl⟩
  | cons i l ih => exact ih _

/-- The body of the second pass, when the new block is `n`. -/
theorem sweep_enter (n : ℕ) (p : Bool) :
    Sweep (fun (x : Pass) i => (x.s.symbol i, x.s.cindex i))
      (fun x => x.s.ccount = n ∧ x.s.psave = p)
      (fun c => if c.1 = true ∧ c.2 = 0 then (false, n) else c) Pass.enter where
  keeps x i hx := by
    unfold Pass.enter
    split_ifs <;> exact hx
  self x i hx := by
    unfold Pass.enter
    split_ifs with h1 h2 h3 h3 h3 <;> simp_all
  other x i j hj := by
    unfold Pass.enter
    split_ifs <;> simp [hj]

/-- The body of the inner loop of the third pass. -/
theorem sweep_split (b n : ℕ) (p : Bool) :
    Sweep (fun (x : Classes × Bool) i => (x.1.symbol i, x.1.cindex i))
      (fun x => x.1.ccount = n ∧ x.1.psave = p)
      (fun c => if c.2 = b then (false, if c.1 then b else n) else c) (split b) where
  keeps x i hx := by
    unfold split
    split_ifs <;> exact hx
  self x i hx := by
    unfold split
    split_ifs with h1 h2 <;> simp_all
  other x i j hj := by
    unfold split
    split_ifs <;> simp [hj]

/-! ## One call -/

/-- Each character is in a block below `ccount`, and each number of a block is in use. -/
structure Numbered (s : Classes) : Prop where
  pos : 0 < s.ccount
  lt : ∀ i ∈ chars, s.cindex i < s.ccount
  used : ∀ b, 0 < b → b < s.ccount → ∃ i ∈ chars, s.cindex i = b

/-- `t` has the blocks of `s`, each one cut where `S` begins or ends. -/
structure Refines (S : ℕ → Bool) (s t : Classes) : Prop where
  numbered : Numbered t
  psave : t.psave = s.psave
  old : ∀ i ∈ chars, ∀ j ∈ chars, t.cindex i = t.cindex j → s.cindex i = s.cindex j
  cut : ∀ i ∈ chars, ∀ j ∈ chars, t.cindex i = t.cindex j → S i = true → S j = true
  nonzero : ∀ i ∈ chars, s.cindex i ≠ 0 ∨ S i = true → t.cindex i ≠ 0

/-- The third pass has come to `t`: the members that are left are those of blocks which it has not
looked at, and a block that it has looked at has members only or none. -/
structure Splitting (S : ℕ → Bool) (s t : Classes) : Prop where
  numbered : Numbered t
  psave : t.psave = s.psave
  sub : ∀ i ∈ chars, t.symbol i = true → S i = true
  left : ∀ i ∈ chars, ∀ j ∈ chars, S i = true → t.cindex i = t.cindex j → t.symbol j = true →
    t.symbol i = true
  done : ∀ i ∈ chars, ∀ j ∈ chars, S i = true → t.symbol i = false → t.cindex j = t.cindex i →
    S j = true
  old : ∀ i ∈ chars, ∀ j ∈ chars, t.cindex i = t.cindex j → s.cindex i = s.cindex j
  nonzero : ∀ i ∈ chars, s.cindex i ≠ 0 ∨ S i = true → t.cindex i ≠ 0

/-- No member is left. -/
theorem Splitting.refines (h : Splitting S s t) (hnone : ∀ i ∈ chars, t.symbol i = false) :
    Refines S s t :=
  ⟨h.numbered, h.psave, h.old, fun i hi j hj heq hS => h.done i hi j hj hS (hnone i hi) heq.symm,
    h.nonzero⟩

/-- The characters with `P` move to the new block; `m` says whether there are any. -/
structure Moves (P : ℕ → Prop) (s t : Classes) (m : Bool) : Prop where
  ccount : t.ccount = s.ccount
  psave : t.psave = s.psave
  new : ∀ i ∈ chars, P i → t.cindex i = s.ccount
  stay : ∀ i ∈ chars, ¬ P i → t.cindex i = s.cindex i
  flag : m = true ↔ ∃ i ∈ chars, P i

theorem counted_same (s : Classes) (m : Bool) : (s.counted m).cindex = s.cindex ∧
    (s.counted m).symbol = s.symbol ∧ (s.counted m).psave = s.psave := by
  unfold counted
  split <;> exact ⟨rfl, rfl, rfl⟩

namespace Moves

variable {P : ℕ → Prop} {m : Bool}

section

variable (h : Moves P s t m)

include h

theorem new_iff (hs : Numbered s) (hi : i ∈ chars) :
    t.cindex i = s.ccount ↔ P i := by
  refine ⟨fun hc => ?_, h.new i hi⟩
  by_contra hP
  exact (hs.lt i hi).ne ((h.stay i hi hP).symm.trans hc)

/-- Who shares a block with one that stays has stayed. -/
theorem stays (hs : Numbered s) (hi : i ∈ chars) (hj : j ∈ chars)
    (heq : t.cindex i = t.cindex j) (hP : ¬ P i) : ¬ P j ∧ s.cindex i = s.cindex j := by
  have hPj : ¬ P j := by
    intro hPj
    exact hP ((h.new_iff hs hi).mp (heq.trans (h.new j hj hPj)))
  exact ⟨hPj, by rw [← h.stay i hi hP, heq, h.stay j hj hPj]⟩

theorem old (hs : Numbered s)
    (hP : ∀ i j, P i → P j → s.cindex i = s.cindex j) (hi : i ∈ chars) (hj : j ∈ chars)
    (heq : t.cindex i = t.cindex j) : s.cindex i = s.cindex j := by
  by_cases hPi : P i
  · exact hP i j hPi ((h.new_iff hs hj).mp (heq.symm.trans (h.new i hi hPi)))
  · exact (h.stays hs hi hj heq hPi).2

/-- The number of blocks goes up, if the number was taken. -/
theorem numbered (hs : Numbered s)
    (hrest : ∀ i ∈ chars, P i → s.cindex i ≠ 0 →
      ∃ j ∈ chars, ¬ P j ∧ s.cindex j = s.cindex i) : Numbered (t.counted m) := by
  have hused : ∀ b, 0 < b → b < s.ccount → ∃ i ∈ chars, t.cindex i = b := by
    intro b hb hlt
    obtain ⟨i, hi, rfl⟩ := hs.used b hb hlt
    by_cases hP : P i
    · obtain ⟨j, hj, hPj, heq⟩ := hrest i hi hP hb.ne'
      exact ⟨j, hj, (h.stay j hj hPj).trans heq⟩
    · exact ⟨i, hi, h.stay i hi hP⟩
  have hle : ∀ i ∈ chars, ¬ P i → t.cindex i < s.ccount := by
    intro i hi hP
    rw [h.stay i hi hP]
    exact hs.lt i hi
  unfold Classes.counted
  split
  next hm =>
    refine ⟨Nat.succ_pos _, fun i hi => ?_, fun b hb hlt => ?_⟩
    · rw [h.ccount]
      by_cases hP : P i
      · exact (h.new i hi hP).trans_lt (Nat.lt_succ_self _)
      · exact (hle i hi hP).trans (Nat.lt_succ_self _)
    · rw [h.ccount] at hlt
      rcases Nat.lt_succ_iff_lt_or_eq.mp hlt with hlt | rfl
      · exact hused b hb hlt
      · obtain ⟨i, hi, hP⟩ := h.flag.mp hm
        exact ⟨i, hi, h.new i hi hP⟩
  next hm =>
    refine ⟨h.ccount ▸ hs.pos, fun i hi => ?_, fun b hb hlt => hused b hb (h.ccount ▸ hlt)⟩
    rw [h.ccount]
    exact hle i hi fun hP => hm (h.flag.mpr ⟨i, hi, hP⟩)

theorem nonzero (hs : Numbered s) (hi : i ∈ chars)
    (hc : P i ∨ s.cindex i ≠ 0) : t.cindex i ≠ 0 := by
  by_cases hP : P i
  · rw [h.new i hi hP]
    exact hs.pos.ne'
  · rw [h.stay i hi hP]
    exact hc.resolve_left hP

end

end Moves

/-! ### The passes -/

/-- After the second pass. -/
theorem splitting_enter (hs : Numbered s) {r : Pass}
    (hr : chars.foldl Pass.enter ⟨s, false, false⟩ = r) :
    Splitting s.symbol s (r.s.counted r.m) ∧
      (r.k = false → ∀ i ∈ chars, (r.s.counted r.m).symbol i = false) := by
  have h := sweep_enter s.ccount s.psave
  have hI : (⟨s, false, false⟩ : Pass).s.ccount = s.ccount ∧
    (⟨s, false, false⟩ : Pass).s.psave = s.psave := ⟨rfl, rfl⟩
  have hm := h.flag_foldl (f := Pass.m) (c := fun c => c.1 && decide (c.2 = 0)) (fun x i => by
    unfold Pass.enter
    split_ifs <;> simp_all) chars_nodup hI
  have hk := h.flag_foldl (f := Pass.k) (c := fun c => c.1 && decide (c.2 ≠ 0)) (fun x i => by
    unfold Pass.enter
    split_ifs <;> simp_all) chars_nodup hI
  have hcell := h.cell_foldl chars_nodup hI
  have hinv := h.inv (l := chars) hI
  rw [hr] at hm hk hcell hinv
  simp only [Bool.false_eq_true, false_or, Bool.and_eq_true, decide_eq_true_eq] at hm hk hcell
  have hmoves : Moves (fun i => s.symbol i = true ∧ s.cindex i = 0) s r.s r.m := by
    refine ⟨hinv.1, hinv.2, fun i hi hP => ?_, fun i hi hP => ?_, hm⟩
    · have := hcell i
      rw [if_pos hi, if_pos hP] at this
      exact congrArg Prod.snd this
    · have := hcell i
      rw [if_pos hi, if_neg hP] at this
      exact congrArg Prod.snd this
  have hsymbol : ∀ i ∈ chars, r.s.symbol i = true ↔ s.symbol i = true ∧ s.cindex i ≠ 0 := by
    intro i hi
    have := congrArg Prod.fst (hcell i)
    rw [if_pos hi] at this
    dsimp only at this
    rw [this]
    split_ifs <;> simp_all
  obtain ⟨hci, hsy, hp⟩ := counted_same r.s r.m
  refine ⟨⟨hmoves.numbered hs fun i _ hP hne => absurd hP.2 hne, hp.trans hmoves.psave, ?_, ?_, ?_, ?_,
    ?_⟩, fun hkf i hi => ?_⟩
  all_goals simp only [hci, hsy]
  · intro i hi h
    exact ((hsymbol i hi).mp h).1
  · intro i hi j hj hS heq h
    obtain ⟨-, hj0⟩ := (hsymbol j hj).mp h
    obtain ⟨hP, -⟩ := hmoves.stays hs hj hi heq.symm fun hP => hj0 hP.2
    exact (hsymbol i hi).mpr ⟨hS, fun h0 => hP ⟨hS, h0⟩⟩
  · intro i hi j hj hS h heq
    have h0 : s.cindex i = 0 := by
      by_contra hne
      exact Bool.false_ne_true (h.symm.trans ((hsymbol i hi).mpr ⟨hS, hne⟩))
    exact ((hmoves.new_iff hs hj).mp (heq.trans (hmoves.new i hi ⟨hS, h0⟩))).1
  · intro i hi j hj heq
    exact hmoves.old hs (fun _ _ hi hj => hi.2.trans hj.2.symm) hi hj heq
  · intro i hi h
    refine hmoves.nonzero hs hi ?_
    by_cases h0 : s.cindex i = 0
    · exact .inl ⟨h.resolve_left fun hne => hne h0, h0⟩
    · exact .inr h0
  · by_contra h
    have hk' := hk.mpr ⟨i, hi, (hsymbol i hi).mp (Bool.eq_true_of_not_eq_false h)⟩
    exact Bool.false_ne_true (hkf.symm.trans hk')

/-- One turn of the third pass. -/
theorem Splitting.splitBlock (h : Splitting S s t) (hi : i ∈ chars) :
    Splitting S s (t.splitBlock i) ∧ (t.splitBlock i).symbol i = false ∧
      ∀ k ∈ chars, t.symbol k = false → (t.splitBlock i).symbol k = false := by
  unfold Classes.splitBlock
  split_ifs with hsym
  swap
  · exact ⟨h, Bool.eq_false_iff.mpr hsym, fun _ _ hk => hk⟩
  obtain ⟨r, hr⟩ : ∃ r, chars.foldl (split (t.cindex i)) (t, false) = r := ⟨_, rfl⟩
  simp only [hr]
  have hsw := sweep_split (t.cindex i) t.ccount t.psave
  have hI : ((t, false) : Classes × Bool).1.ccount = t.ccount ∧
    ((t, false) : Classes × Bool).1.psave = t.psave := ⟨rfl, rfl⟩
  have hm := hsw.flag_foldl (f := Prod.snd) (c := fun c => decide (c.2 = t.cindex i) && !c.1)
    (fun x k => by
      unfold split
      split_ifs <;> simp_all) chars_nodup hI
  have hcell := hsw.cell_foldl chars_nodup hI
  have hinv := hsw.inv (l := chars) hI
  rw [hr] at hm hcell hinv
  simp only [Bool.false_eq_true, false_or, Bool.and_eq_true, decide_eq_true_eq, Bool.not_eq_true']
    at hm hcell
  have hmoves : Moves (fun k => t.cindex k = t.cindex i ∧ t.symbol k = false) t r.1 r.2 := by
    refine ⟨hinv.1, hinv.2, fun k hk hP => ?_, fun k hk hP => ?_, hm⟩
    · have := hcell k
      rw [if_pos hk, if_pos hP.1, hP.2, if_neg Bool.false_ne_true] at this
      exact congrArg Prod.snd this
    · have := congrArg Prod.snd (hcell k)
      rw [if_pos hk] at this
      dsimp only at this
      rw [this]
      split_ifs <;> simp_all
  have hsymbol : ∀ k ∈ chars, r.1.symbol k = true ↔
      t.symbol k = true ∧ t.cindex k ≠ t.cindex i := by
    intro k hk
    have := congrArg Prod.fst (hcell k)
    rw [if_pos hk] at this
    dsimp only at this
    rw [this]
    split_ifs <;> simp_all
  have hfalse : ∀ k ∈ chars, t.symbol k = false → r.1.symbol k = false := by
    intro k hk hf
    by_contra hc
    exact Bool.false_ne_true
      (hf.symm.trans ((hsymbol k hk).mp (Bool.eq_true_of_not_eq_false hc)).1)
  obtain ⟨hci, hsy, hp⟩ := counted_same r.1 r.2
  refine ⟨⟨hmoves.numbered h.numbered fun k _ hP _ => ⟨i, hi, fun hP' => ?_, hP.1.symm⟩,
    hp.trans (hmoves.psave.trans h.psave), ?_, ?_, ?_, ?_, ?_⟩, ?_, ?_⟩
  · exact Bool.false_ne_true (hP'.2.symm.trans hsym)
  all_goals simp only [hci, hsy]
  · intro k hk hk'
    exact h.sub k hk ((hsymbol k hk).mp hk').1
  · intro a ha b hb hS heq hb'
    obtain ⟨hbs, hbi⟩ := (hsymbol b hb).mp hb'
    obtain ⟨-, heq'⟩ := hmoves.stays h.numbered hb ha heq.symm fun hP => hbi hP.1
    exact (hsymbol a ha).mpr ⟨h.left a ha b hb hS heq'.symm hbs, fun hai => hbi (heq'.trans hai)⟩
  · intro a ha b hb hS ha' heq
    by_cases hai : t.cindex a = t.cindex i
    · -- a member of this block; only members have stayed in it
      have has : t.symbol a = true := h.left a ha i hi hS hai hsym
      obtain ⟨hPb, heq'⟩ := hmoves.stays h.numbered ha hb heq.symm fun hP =>
        Bool.false_ne_true (hP.2.symm.trans has)
      refine h.sub b hb ?_
      by_contra hbs
      exact hPb ⟨heq'.symm.trans hai, Bool.eq_false_of_not_eq_true hbs⟩
    · obtain ⟨-, heq'⟩ := hmoves.stays h.numbered ha hb heq.symm fun hP => hai hP.1
      refine h.done a ha b hb hS ?_ heq'.symm
      by_contra has
      exact Bool.false_ne_true
        (ha'.symm.trans ((hsymbol a ha).mpr ⟨Bool.eq_true_of_not_eq_false has, hai⟩))
  · intro a ha b hb heq
    exact h.old a ha b hb
      (hmoves.old h.numbered (fun _ _ ha hb => ha.1.trans hb.1.symm) ha hb heq)
  · intro k hk hk'
    exact hmoves.nonzero h.numbered hk (.inr (h.nonzero k hk hk'))
  · by_contra hc
    exact ((hsymbol i hi).mp (Bool.eq_true_of_not_eq_false hc)).2 rfl
  · exact hfalse

/-- The third pass. -/
theorem Splitting.splitBlocks (h : Splitting S s t) (hl : ∀ i ∈ l, i ∈ chars) :
    Splitting S s (l.foldl Classes.splitBlock t) ∧
      ∀ k ∈ chars, k ∈ l ∨ t.symbol k = false →
        (l.foldl Classes.splitBlock t).symbol k = false := by
  induction l generalizing t with
  | nil => exact ⟨h, fun k _ hk => hk.resolve_left not_mem_nil⟩
  | cons i l ih =>
    obtain ⟨hstep, hself, hkeep⟩ := h.splitBlock (hl i mem_cons_self)
    obtain ⟨hrest, hnone⟩ := ih hstep fun j hj => hl j (mem_cons_of_mem _ hj)
    refine ⟨hrest, fun k hk hc => hnone k hk ?_⟩
    rcases hc with hc | hc
    · rcases mem_cons.mp hc with rfl | hc
      · exact .inr hself
      · exact .inl hc
    · exact .inr (hkeep k hk hc)

theorem Numbered.refines_self (hs : Numbered s)
    (hcut : ∀ i ∈ chars, ∀ j ∈ chars, s.cindex i = s.cindex j → S i = true → S j = true)
    (hne : ∀ i ∈ chars, S i = true → s.cindex i ≠ 0) : Refines S s s :=
  ⟨hs, rfl, fun _ _ _ _ heq => heq, hcut, fun i hi h => h.elim id (hne i hi)⟩

theorem refines_member (hs : Numbered s) : Refines s.symbol s (s.cclinter true) := by
  unfold cclinter
  rw [if_pos rfl]
  dsimp only
  split
  next hnone =>
    have hempty : ∀ i ∈ chars, s.symbol i ≠ true := List.find?_eq_none.mp hnone
    exact hs.refines_self (fun i hi _ _ _ hS => absurd hS (hempty i hi)) fun i hi hS =>
      absurd hS (hempty i hi)
  next i hsome =>
    split_ifs with halready hk
    · -- the working set is the block of its first member
      simp only [already, Bool.and_eq_true, decide_eq_true_eq, all_eq_true] at halready
      obtain ⟨hne, hall⟩ := halready
      have hblock : ∀ j ∈ chars, s.symbol j = true ↔ s.cindex j = s.cindex i := by
        intro j hj
        have := hall j hj
        by_cases hc : s.cindex j = s.cindex i <;> simp_all
      refine hs.refines_self (fun a ha b hb heq hS => ?_) fun a ha hS => ?_
      · exact (hblock b hb).mpr (heq.symm.trans ((hblock a ha).mp hS))
      · rw [(hblock a ha).mp hS]
        exact hne
    · obtain ⟨h, -⟩ := splitting_enter hs rfl
      obtain ⟨h', hnone⟩ := h.splitBlocks fun _ hj => hj
      exact h'.refines fun j hj => hnone j hj (.inl hj)
    · obtain ⟨h, hnone⟩ := splitting_enter hs rfl
      exact h.refines (hnone (Bool.eq_false_of_not_eq_true hk))

theorem cclinter_false (s : Classes) : s.cclinter false = s.reverse.cclinter true := by
  unfold cclinter
  rw [if_pos rfl, if_neg Bool.false_ne_true]

/-- One call. -/
theorem cclinter_refines (hs : Numbered s) (sw : Bool) :
    ∃ S, (∀ i ∈ chars, S i = if sw then s.symbol i else !s.symbol i) ∧
      Refines S s (s.cclinter sw) := by
  cases sw with
  | true => exact ⟨s.symbol, fun _ _ => rfl, refines_member hs⟩
  | false =>
    obtain ⟨hci, hcc, hps⟩ := s.reverse_same
    have hs' : Numbered s.reverse := by
      refine ⟨hcc ▸ hs.pos, ?_, ?_⟩
      all_goals rw [hci, hcc]
      · exact hs.lt
      · exact hs.used
    have h := refines_member hs'
    rw [← cclinter_false] at h
    refine ⟨_, fun i hi => s.reverse_apply hi, h.numbered, h.psave.trans hps, ?_, h.cut, ?_⟩
    · rw [← hci]
      exact h.old
    · rw [← hci]
      exact h.nonzero

/-! ## The blocks of a class -/

/-- What holds after the calls for the classes `Ks`. -/
structure Partition (s : Classes) (Ks : List Ccl) : Prop where
  block : ∀ K ∈ Ks, ∀ i ∈ chars, ∀ j ∈ chars, s.cindex i = s.cindex j → K.Has i → K.Has j
  nonzero : ∀ K ∈ Ks, ∀ i ∈ chars, K.Has i → s.cindex i ≠ 0
  lt : ∀ i ∈ chars, s.cindex i < s.ccount
  fits : s.ccount ≤ NCH
  denote : ∀ K ∈ Ks, ∀ d ∈ chars, member s.cindex d (packed s.cindex K) = true ↔ K.Has d

/-- The numbers of blocks in use are as many as `ccount` says. -/
theorem Numbered.fits (h : Numbered s) : s.ccount ≤ NCH := by
  have hsub : Finset.Ico 1 s.ccount ⊆ chars.toFinset.image s.cindex := by
    intro b hb
    obtain ⟨hb1, hb2⟩ := Finset.mem_Ico.mp hb
    obtain ⟨i, hi, rfl⟩ := h.used b hb1 hb2
    exact Finset.mem_image_of_mem _ (mem_toFinset.mpr hi)
  have hcard := (Finset.card_le_card hsub).trans
    (Finset.card_image_le.trans (toFinset_card_le chars))
  rw [Nat.card_Ico, chars, length_range'] at hcard
  exact Nat.sub_le_sub_iff_right (by decide) |>.mp hcard

end Classes

theorem foldl_update {β : Type*} (l : List ℕ) (f : ℕ → β) (b : β) (k : ℕ) :
    l.foldl (fun f p => update f p b) f k = if k ∈ l then b else f k := by
  induction l generalizing f with
  | nil => rfl
  | cons p l ih =>
    rw [foldl_cons, ih]
    by_cases hk : k = p <;> simp [hk]

theorem mem_packed_foldl (cindex : ℕ → ℕ) (f : ℕ → Bool) (l q : List ℕ) (b : ℕ) :
    b ∈ l.foldl (fun q j => if f j then if cindex j ∈ q then q else q ++ [cindex j] else q) q ↔
      b ∈ q ∨ ∃ j ∈ l, f j = true ∧ cindex j = b := by
  induction l generalizing q with
  | nil => simp
  | cons j l ih =>
    rw [foldl_cons, ih, exists_mem_cons_iff, ← or_assoc]
    refine or_congr_left ?_
    split_ifs with h1 h2
    · refine ⟨.inl, fun h => h.elim id fun h => h.2 ▸ h2⟩
    · simp [h1, eq_comm]
    · simp [h1]

theorem member_append_zero {cindex : ℕ → ℕ} {d : ℕ} {q : List ℕ} (hq : 0 ∉ q) :
    member cindex d (q ++ [0]) = true ↔ cindex d ∈ q := by
  induction q with
  | nil => simp [member]
  | cons b q ih =>
    obtain ⟨hb, hq⟩ := not_or.mp (mt mem_cons.mpr hq)
    rw [cons_append, member, if_neg fun h => hb h.symm]
    split_ifs with h
    · simp [h]
    · simp [ih hq, eq_comm, h]

/-- A union of blocks, all in use, is found by the numbers of the blocks. -/
theorem member_packed {cindex : ℕ → ℕ} {K : Ccl}
    (hblock : ∀ i ∈ chars, ∀ j ∈ chars, cindex i = cindex j → K.Has i → K.Has j)
    (hne : ∀ i ∈ chars, K.Has i → cindex i ≠ 0) {d : ℕ} (hd : d ∈ chars) :
    member cindex d (packed cindex K) = true ↔ K.Has d := by
  have hsymbol : ∀ j, K.str.foldl (fun f p => update f p (!K.not)) (fun _ => K.not) j =
      true ↔ K.Has j := by
    intro j
    rw [foldl_update, Ccl.Has]
    cases K.not <;> by_cases hj : j ∈ K.str <;> simp [hj]
  have hmem : ∀ b, b ∈ chars.foldl (fun q j =>
      if K.str.foldl (fun f p => update f p (!K.not)) (fun _ => K.not) j then
        if cindex j ∈ q then q else q ++ [cindex j] else q) [] ↔
      ∃ j ∈ chars, K.Has j ∧ cindex j = b := by
    intro b
    rw [mem_packed_foldl]
    simp only [hsymbol, not_mem_nil, false_or]
  unfold packed
  rw [member_append_zero, hmem]
  · refine ⟨fun ⟨j, hj, hK, heq⟩ => hblock j hj d hd heq hK, fun hK => ⟨d, hd, hK, rfl⟩⟩
  · rw [hmem]
    rintro ⟨j, hj, hK, h0⟩
    exact hne j hj hK h0

/-! ## Any calls -/

namespace Classes

variable {s t u : Classes} {S : ℕ → Bool} {Ks : List Ccl}

/-- The invariant of the calls. -/
structure Seen (s : Classes) (Ks : List Ccl) : Prop where
  numbered : Numbered s
  block : ∀ K ∈ Ks, ∀ i ∈ chars, ∀ j ∈ chars, s.cindex i = s.cindex j → K.Has i → K.Has j
  nonzero : ∀ K ∈ Ks, ∀ i ∈ chars, K.Has i → s.cindex i ≠ 0
  psave : s.psave = true → dot ∈ Ks

/-- Classes that were unions of blocks are so still, and those which the working set was are too. -/
theorem Seen.refines {K : Ccl} (h : Seen s Ks) (ht : Refines S u t) (hu : u.cindex = s.cindex)
    (hK : K ∈ Ks ∨ ∀ i ∈ chars, S i = true ↔ K.Has i) (hp : t.psave = true → dot ∈ Ks ++ [K]) :
    Seen t (Ks ++ [K]) := by
  have hold : ∀ L ∈ Ks, (∀ i ∈ chars, ∀ j ∈ chars, t.cindex i = t.cindex j → L.Has i → L.Has j) ∧
      ∀ i ∈ chars, L.Has i → t.cindex i ≠ 0 := fun L hL =>
    ⟨fun i hi j hj heq => h.block L hL i hi j hj (hu ▸ ht.old i hi j hj heq), fun i hi hi' =>
      ht.nonzero i hi (.inl (hu ▸ h.nonzero L hL i hi hi'))⟩
  have hall : ∀ L ∈ Ks ++ [K],
      (∀ i ∈ chars, ∀ j ∈ chars, t.cindex i = t.cindex j → L.Has i → L.Has j) ∧
      ∀ i ∈ chars, L.Has i → t.cindex i ≠ 0 := by
    intro L hL
    rcases mem_append.mp hL with hL | hL
    · exact hold L hL
    · obtain rfl := mem_singleton.mp hL
      rcases hK with hK | hK
      · exact hold L hK
      · refine ⟨fun i hi j hj heq hi' => ?_, fun i hi hi' => ?_⟩
        · exact (hK j hj).mp (ht.cut i hi j hj heq ((hK i hi).mpr hi'))
        · exact ht.nonzero i hi (.inr ((hK i hi).mpr hi'))
  exact ⟨ht.numbered, fun L hL => (hall L hL).1, fun L hL => (hall L hL).2, hp⟩

/-- One call, whatever is left in `symbol`. -/
theorem Seen.call (h : Seen s Ks) (c : Call) : Seen (s.call c) (Ks ++ [c.cls]) := by
  cases c with
  | ccl K =>
    have hs : Numbered { s with symbol := fun c => c ∈ K.str } := ⟨h.1.1, h.1.2, h.1.3⟩
    obtain ⟨S, hS, ht⟩ := cclinter_refines hs (!K.not)
    refine h.refines ht rfl (.inr fun i hi => ?_) fun hp => ?_
    · rw [hS i hi]
      cases hn : K.not <;> simp [Call.cls, Ccl.Has, hn]
    · exact mem_append_left _ (h.psave (ht.psave.symm.trans hp))
  | dot =>
    unfold Classes.call
    dsimp only
    split_ifs with hp
    · have hs : Numbered { s with symbol := update s.symbol 10 false } :=
        ⟨h.1.1, h.1.2, h.1.3⟩
      obtain ⟨S, hS, ht⟩ := cclinter_refines hs true
      exact h.refines ht rfl (.inl (h.psave hp)) fun _ =>
        mem_append_left _ (h.psave hp)
    · have hs : Numbered { s with
          psave := true
          symbol := fun c => if c ∈ chars then c ≠ 10 else update s.symbol 10 false c } :=
        ⟨h.1.1, h.1.2, h.1.3⟩
      obtain ⟨S, hS, ht⟩ := cclinter_refines hs true
      refine h.refines ht rfl (.inr fun i hi => ?_) fun _ => mem_append_right _ (by
        exact mem_singleton.mpr rfl)
      rw [hS i hi]
      simp [Call.cls, Ccl.Has, dot, hi]

theorem Seen.calls (h : Seen s Ks) (cs : List Call) :
    Seen (cs.foldl Classes.call s) (Ks ++ cs.map Call.cls) := by
  induction cs generalizing s Ks with
  | nil => rwa [map_nil, append_nil]
  | cons c cs ih =>
    have := ih (h.call c)
    rwa [append_assoc] at this

theorem seen_start : Seen start [] := by
  refine ⟨⟨Nat.one_pos, fun _ _ => Nat.one_pos, fun b hb hlt => ?_⟩, nofun, nofun, fun h => by cases h⟩
  exact absurd hlt (Nat.not_lt.mpr hb)

/-- After any calls each class is a union of blocks, none of them block 0, and is found by the
numbers that `cfoll` leaves for it. -/
theorem classes_partition (calls : List Call) :
    Partition (calls.foldl Classes.call start) (calls.map Call.cls) := by
  have h := seen_start.calls calls
  rw [nil_append] at h
  exact ⟨h.block, h.nonzero, h.numbered.lt, h.numbered.fits, fun K hK d hd =>
    member_packed (h.block K hK) (h.nonzero K hK) hd⟩

end Classes

end Cmd.Lex
