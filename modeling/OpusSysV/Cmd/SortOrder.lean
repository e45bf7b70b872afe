import Mathlib.Tactic.Linarith
import Mathlib.Tactic.Ring
import Mathlib.Algebra.Order.Field.Rat
import Mathlib.Data.List.Lex
import OpusSysV.Cmd.SortFrame
import OpusSysV.Cmd.SortTree
import OpusSysV.Lib.Comparator

/-!
# The order of lines: `cmp` of `sort/sort.c`

* `numKey`, `ascKey` — what a field of a line is compared by: a number, or a word over the
  integers; a month is compared by its place in the year.
* `numCmp_key`, `monCmp_key`, `ascCmp_key` — the scans compare these.
* `fieldCmp_cmp`, `cmp_cmp` — the signs of a field, of all fields and of `cmp` are those of a total
  order.
* `LineOrder`, `cmp_order` — for all lines, whatever follows them, `cmp` is an order exactly if
  all its fields stop at the newline.
-/

namespace Cmd

open Lib List Option

/-! ## Digits -/

/-- The sign of `x` is the sign of `y`. -/
def SameSign (x : ℤ) (y : ℚ) : Prop := (0 < x ↔ 0 < y) ∧ (x < 0 ↔ y < 0)

/-- The value of a digit. -/
def dig (c : Byte) : ℤ := (c.toNat : ℤ) - 48

/-- The value of digits, the last one first. -/
def val : List Byte → ℤ
  | [] => 0
  | c :: cs => dig c + 10 * val cs

/-- The value of digits behind a point. -/
def frac : List Byte → ℚ
  | [] => 0
  | c :: cs => (dig c + frac cs) / 10

/-- All characters are digits. -/
def AllDigits (l : List Byte) : Prop := ∀ c ∈ l, isdigit c = true

section digits

variable {c : Byte} {l xs ys : List Byte}

theorem dig_range (h : isdigit c = true) : 0 ≤ dig c ∧ dig c ≤ 9 := by
  unfold isdigit at h
  rw [Bool.and_eq_true, decide_eq_true_eq, decide_eq_true_eq, UInt8.le_iff_toNat_le,
    UInt8.le_iff_toNat_le] at h
  unfold dig
  simp only [UInt8.reduceToNat] at h
  omega

theorem nonzero_iff (h : isdigit c = true) : nonzero c = true ↔ 0 < dig c := by
  have hr := dig_range h
  unfold nonzero
  rw [decide_eq_true_eq]
  constructor
  · intro hne
    refine lt_of_le_of_ne hr.1 fun hz => hne (UInt8.toNat_inj.1 ?_)
    unfold dig at hz
    have h48 : (48 : UInt8).toNat = 48 := rfl
    omega
  · rintro hpos rfl
    exact absurd hpos (by decide)

theorem sameSign_mul {r : ℤ} (hr : r = 1 ∨ r = -1) {x : ℚ} (hx : 0 < x) : SameSign r (r * x) := by
  rcases hr with rfl | rfl
  · rw [Int.cast_one, one_mul]
    exact ⟨iff_of_true zero_lt_one hx, iff_of_false (by decide) (not_lt.2 hx.le)⟩
  · rw [Int.cast_neg, Int.cast_one, neg_one_mul]
    exact ⟨iff_of_false (by decide) (by linarith), iff_of_true (by decide) (by linarith)⟩

theorem digits_all (la p : List Byte) : AllDigits (digits la p).1 := by
  induction p with
  | nil => exact forall_mem_nil _
  | cons c p ih =>
    unfold digits
    split_ifs with h
    · exact forall_mem_cons.2 ⟨h.2, ih⟩
    · exact forall_mem_nil _

theorem val_range (h : AllDigits l) : 0 ≤ val l ∧ (l.any nonzero = true ↔ 0 < val l) := by
  induction l with
  | nil => exact ⟨le_rfl, by simp [val]⟩
  | cons c l ih =>
    obtain ⟨hc, hl⟩ := forall_mem_cons.1 h
    obtain ⟨hnn, hiff⟩ := ih hl
    have hr := dig_range hc
    rw [any_cons, Bool.or_eq_true, nonzero_iff hc, hiff, val]
    omega

theorem frac_range (h : AllDigits l) :
    0 ≤ frac l ∧ frac l < 1 ∧ (l.any nonzero = true ↔ 0 < frac l) := by
  induction l with
  | nil => exact ⟨le_rfl, zero_lt_one, by simp [frac]⟩
  | cons c l ih =>
    obtain ⟨hc, hl⟩ := forall_mem_cons.1 h
    obtain ⟨hnn, hlt, hiff⟩ := ih hl
    obtain ⟨h0, h9⟩ := dig_range hc
    have h0' : (0 : ℚ) ≤ dig c := by exact_mod_cast h0
    have h9' : (dig c : ℚ) ≤ 9 := by exact_mod_cast h9
    rw [any_cons, Bool.or_eq_true, nonzero_iff hc, hiff, frac]
    refine ⟨by linarith, by linarith, ?_⟩
    constructor
    · rintro (hpos | hpos)
      · have : (0 : ℚ) < dig c := by exact_mod_cast hpos
        linarith
      · linarith
    · intro hpos
      by_contra hno
      rw [not_or, not_lt, not_lt] at hno
      have : (dig c : ℚ) ≤ 0 := by exact_mod_cast hno.1
      linarith [hno.2]

/-- What the loops over digits leave decides: more digits of the first number that are not 0, of
the second one, and then a difference. -/
def left (r : ℤ × List Byte × List Byte) : ℤ :=
  if r.2.1.any nonzero then -1 else if r.2.2.any nonzero then 1 else r.1

/-- **The digits before the point**, from the last ones on: a later difference outweighs the ones
before. -/
theorem alignLoop_left (hx : AllDigits xs) (hy : AllDigits ys) {a : ℤ} (ha : -9 ≤ a ∧ a ≤ 9) :
    (0 < left (alignLoop a xs ys) ↔ 0 < 10 * (val ys - val xs) + a) ∧
      (left (alignLoop a xs ys) < 0 ↔ 10 * (val ys - val xs) + a < 0) := by
  induction xs generalizing ys a with
  | nil =>
    obtain ⟨hnn, hiff⟩ := val_range hy
    have hdef : alignLoop a [] ys = (a, [], ys) := by cases ys <;> rfl
    rw [hdef]
    unfold left
    have hval : val [] = 0 := rfl
    simp only [any_nil, Bool.false_eq_true, if_false, hval]
    split_ifs with h
    · have := hiff.1 h
      omega
    · have : ¬ 0 < val ys := fun hpos => h (hiff.2 hpos)
      omega
  | cons x xs ih =>
    cases ys with
    | nil =>
      obtain ⟨hnn, hiff⟩ := val_range hx
      have hval : val [] = 0 := rfl
      have hdef : alignLoop a (x :: xs) [] = (a, x :: xs, []) := rfl
      rw [hdef]
      unfold left
      simp only [any_nil, Bool.false_eq_true, if_false, hval]
      split_ifs with h
      · have := hiff.1 h
        omega
      · have : ¬ 0 < val (x :: xs) := fun hpos => h (hiff.2 hpos)
        omega
    | cons y ys =>
      obtain ⟨hxc, hxs⟩ := forall_mem_cons.1 hx
      obtain ⟨hyc, hys⟩ := forall_mem_cons.1 hy
      have hxr := dig_range hxc
      have hyr := dig_range hyc
      have hdiff : diff y x = dig y - dig x := by
        unfold diff dig
        omega
      rw [alignLoop, val, val]
      by_cases hd : diff y x = 0
      · rw [if_neg (not_not.2 hd)]
        have := ih hxs hys ha
        omega
      · rw [if_pos hd]
        have := ih hxs hys (a := diff y x) (by omega)
        omega

/-- **The digits behind the point**, from the first ones on: the first difference decides. -/
theorem fracLoop_left (hx : AllDigits xs) (hy : AllDigits ys) :
    SameSign (if (fracLoop xs ys).1 ≠ 0 then (fracLoop xs ys).1
      else left (0, (fracLoop xs ys).2)) (frac ys - frac xs) := by
  induction xs generalizing ys with
  | nil =>
    obtain ⟨hnn, -, hiff⟩ := frac_range hy
    have hdef : fracLoop [] ys = (0, [], ys) := by cases ys <;> rfl
    rw [hdef, if_neg (not_not.2 rfl)]
    unfold left SameSign
    have hfrac : frac [] = 0 := rfl
    simp only [any_nil, Bool.false_eq_true, if_false, hfrac, sub_zero]
    split_ifs with h
    · have := hiff.1 h
      exact ⟨iff_of_true zero_lt_one this, iff_of_false (by decide) (not_lt.2 hnn)⟩
    · have : ¬ 0 < frac ys := fun hpos => h (hiff.2 hpos)
      exact ⟨iff_of_false (lt_irrefl 0) this, iff_of_false (lt_irrefl 0) (not_lt.2 hnn)⟩
  | cons x xs ih =>
    cases ys with
    | nil =>
      obtain ⟨hnn, -, hiff⟩ := frac_range hx
      have hdef : fracLoop (x :: xs) [] = (0, x :: xs, []) := rfl
      rw [hdef, if_neg (not_not.2 rfl)]
      unfold left SameSign
      have hfrac : frac [] = 0 := rfl
      simp only [any_nil, Bool.false_eq_true, if_false, hfrac, zero_sub]
      split_ifs with h
      · have := hiff.1 h
        exact ⟨iff_of_false (by decide) (by linarith), iff_of_true (by decide) (by linarith)⟩
      · have : ¬ 0 < frac (x :: xs) := fun hpos => h (hiff.2 hpos)
        exact ⟨iff_of_false (lt_irrefl 0) (by linarith), iff_of_false (lt_irrefl 0) (by linarith)⟩
    | cons y ys =>
      obtain ⟨hxc, hxs⟩ := forall_mem_cons.1 hx
      obtain ⟨hyc, hys⟩ := forall_mem_cons.1 hy
      have hdiff : diff y x = dig y - dig x := by
        unfold diff dig
        omega
      have hcast : (diff y x : ℚ) = dig y - dig x := by
        rw [hdiff]
        push_cast
        rfl
      rw [fracLoop, frac, frac]
      by_cases hd : diff y x = 0
      · rw [if_neg (not_not.2 hd)]
        obtain ⟨h1, h2⟩ := ih hxs hys
        rw [hd, Int.cast_zero] at hcast
        refine ⟨h1.trans ?_, h2.trans ?_⟩
        · constructor <;> intro <;> linarith
        · constructor <;> intro <;> linarith
      · obtain ⟨hx0, hx1, -⟩ := frac_range hxs
        obtain ⟨hy0, hy1, -⟩ := frac_range hys
        rw [if_pos hd]
        dsimp only
        rw [if_pos hd]
        unfold SameSign
        rcases lt_or_gt_of_ne hd with hneg | hpos
        · have : (diff y x : ℚ) ≤ -1 := by exact_mod_cast Int.le_sub_one_of_lt hneg
          exact ⟨iff_of_false (by omega) (by linarith), iff_of_true hneg (by linarith)⟩
        · have : (1 : ℚ) ≤ diff y x := by exact_mod_cast hpos
          exact ⟨iff_of_true hpos (by linarith), iff_of_false (by omega) (by linarith)⟩

end digits

/-! ## Numbers -/

section numbers

variable {sa sb : ℤ} {da db fa fb : List Byte}

/-- **The comparison before the points** has the sign of the difference of the signed values. -/
theorem intCmp_sign (hsa : sa = 1 ∨ sa = -1) (hsb : sb = 1 ∨ sb = -1) (ha : AllDigits da)
    (hb : AllDigits db) :
    (0 < intCmp sa sb da db ↔ 0 < sb * val db.reverse - sa * val da.reverse) ∧
      (intCmp sa sb da db < 0 ↔ sb * val db.reverse - sa * val da.reverse < 0) := by
  have ha' : AllDigits da.reverse := fun c hc => ha c (mem_reverse.1 hc)
  have hb' : AllDigits db.reverse := fun c hc => hb c (mem_reverse.1 hc)
  obtain ⟨ha0, hapos⟩ := val_range ha'
  obtain ⟨hb0, hbpos⟩ := val_range hb'
  by_cases heq : sa = sb
  · subst heq
    have hdef : intCmp sa sa da db = sa * left (alignLoop 0 da.reverse db.reverse) := by
      unfold intCmp left
      rw [if_pos rfl]
      dsimp only
      split_ifs
      · rw [mul_neg_one]
      · rw [mul_one]
      · rw [mul_comm]
    have hloop := alignLoop_left ha' hb' (a := 0) (by omega)
    rw [hdef]
    rcases hsa with rfl | rfl <;> omega
  · have hdef : intCmp sa sb da db =
        if da.reverse.any nonzero then -sa else if db.reverse.any nonzero then sb else 0 := by
      unfold intCmp
      rw [if_neg heq]
      dsimp only
      rw [zero_mul]
    rw [hdef]
    split_ifs with h1 h2
    · have := hapos.1 h1
      rcases hsa with rfl | rfl <;> rcases hsb with rfl | rfl <;> omega
    · have := hbpos.1 h2
      have : ¬ 0 < val da.reverse := fun hpos => h1 (hapos.2 hpos)
      rcases hsa with rfl | rfl <;> rcases hsb with rfl | rfl <;> omega
    · have : ¬ 0 < val da.reverse := fun hpos => h1 (hapos.2 hpos)
      have : ¬ 0 < val db.reverse := fun hpos => h2 (hbpos.2 hpos)
      rcases hsa with rfl | rfl <;> rcases hsb with rfl | rfl <;> omega

/-- The comparison behind the points likewise. -/
theorem fracCmp_sign (hsa : sa = 1 ∨ sa = -1) (hsb : sb = 1 ∨ sb = -1) (ha : AllDigits fa)
    (hb : AllDigits fb) : SameSign (fracCmp sa sb fa fb) (sb * frac fb - sa * frac fa) := by
  obtain ⟨ha0, -, hapos⟩ := frac_range ha
  obtain ⟨hb0, -, hbpos⟩ := frac_range hb
  by_cases heq : sa = sb
  · subst heq
    have hdef : fracCmp sa sa fa fb = sa * (if (fracLoop fa fb).1 ≠ 0 then (fracLoop fa fb).1
        else left (0, (fracLoop fa fb).2)) := by
      unfold fracCmp left
      rw [if_pos rfl]
      dsimp only
      split_ifs
      · rw [mul_comm]
      · rw [mul_neg_one]
      · rw [mul_one]
      · rw [mul_zero]
    obtain ⟨h1, h2⟩ := fracLoop_left ha hb
    rw [hdef]
    unfold SameSign
    rcases hsa with rfl | rfl
    · rw [one_mul, Int.cast_one, one_mul, one_mul]
      exact ⟨h1, h2⟩
    · rw [neg_one_mul, Int.cast_neg, Int.cast_one, neg_one_mul, neg_one_mul, neg_pos,
        neg_neg_iff_pos]
      refine ⟨h2.trans ?_, h1.trans ?_⟩
      · constructor <;> intro <;> linarith
      · constructor <;> intro <;> linarith
  · -- the signs differ: what decides is whether one of the numbers is not 0
    obtain rfl : sb = -sa := by
      rcases hsa with rfl | rfl <;> rcases hsb with rfl | rfl
      · exact absurd rfl heq
      · rfl
      · rfl
      · exact absurd rfl heq
    have hdef : fracCmp sa (-sa) fa fb =
        if fa.any nonzero then -sa else if fb.any nonzero then -sa else 0 := by
      unfold fracCmp
      rw [if_neg heq]
      dsimp only
      rw [if_neg (not_not.2 rfl)]
    have hsum : ((-sa : ℤ) : ℚ) * frac fb - sa * frac fa = (-sa : ℤ) * (frac fa + frac fb) := by
      push_cast
      ring
    rw [hdef, hsum]
    split_ifs with h1 h2
    · have := hapos.1 h1
      exact sameSign_mul hsb (by linarith)
    · have := hbpos.1 h2
      exact sameSign_mul hsb (by linarith)
    · have h1' : ¬ 0 < frac fa := fun h => h1 (hapos.2 h)
      have h2' : ¬ 0 < frac fb := fun h => h2 (hbpos.2 h)
      rw [le_antisymm (not_lt.1 h1') ha0, le_antisymm (not_lt.1 h2') hb0, add_zero, mul_zero]
      exact ⟨iff_of_false (lt_irrefl 0) (lt_irrefl 0), iff_of_false (lt_irrefl 0) (lt_irrefl 0)⟩

/-- What is behind the point in a number, if there is one. -/
def pointDigits (la jpa : List Byte) : List Byte :=
  match point jpa with
  | none => []
  | some pa => (digits la pa).1

/-- **The number** that a field is compared by; with `-r` it is negative. -/
def numKey (rflg : ℤ) (la pa : List Byte) : ℚ :=
  match sign rflg pa with
  | none => 0
  | some (sa, pa) =>
    sa * (val (digits la pa).1.reverse + frac (pointDigits la (digits la pa).2))

theorem sign_unit {rflg : ℤ} (hr : rflg = 1 ∨ rflg = -1) {p q : List Byte}
    (h : sign rflg p = some (sa, q)) : sa = 1 ∨ sa = -1 := by
  cases p with
  | nil => cases h
  | cons c p =>
    rw [sign] at h
    split_ifs at h
    · cases h
      omega
    · cases h
      exact hr

theorem pointDigits_all (la jpa : List Byte) : AllDigits (pointDigits la jpa) := by
  unfold pointDigits
  split
  · exact forall_mem_nil _
  · exact digits_all _ _

/-- The integer parts decide, and then the fractions. -/
theorem sameSign_parts (hsa : sa = 1 ∨ sa = -1) (hsb : sb = 1 ∨ sb = -1) {A B c d : ℤ}
    {F G : ℚ} (hA : 0 ≤ A) (hB : 0 ≤ B) (hF : 0 ≤ F ∧ F < 1) (hG : 0 ≤ G ∧ G < 1)
    (hc : (0 < c ↔ 0 < sb * B - sa * A) ∧ (c < 0 ↔ sb * B - sa * A < 0))
    (hd : SameSign d (sb * G - sa * F)) :
    SameSign (if c ≠ 0 then c else d) (sb * (B + G) - sa * (A + F)) := by
  obtain ⟨hF0, hF1⟩ := hF
  obtain ⟨hG0, hG1⟩ := hG
  have hsplit : (sb : ℚ) * (B + G) - sa * (A + F) =
      ((sb * B - sa * A : ℤ) : ℚ) + (sb * G - sa * F) := by
    push_cast
    ring
  rw [hsplit]
  obtain ⟨e, he⟩ : ∃ e, sb * B - sa * A = e := ⟨_, rfl⟩
  rw [he] at hc ⊢
  by_cases hz : c = 0
  · have hez : e = 0 := by omega
    rw [if_neg (not_not.2 hz), hez, Int.cast_zero, zero_add]
    exact hd
  · rw [if_pos hz]
    unfold SameSign
    -- the fractions do not make up for a difference of the integer parts
    have hsmall : (sa = sb → -1 < sb * G - sa * F ∧ sb * G - sa * F < 1) ∧
        (sa ≠ sb → (0 < e → 0 ≤ sb * G - sa * F) ∧ (e < 0 → sb * G - sa * F ≤ 0)) := by
      rcases hsa with rfl | rfl <;> rcases hsb with rfl | rfl <;> push_cast
      · exact ⟨fun _ => ⟨by linarith, by linarith⟩, fun h => h.elim⟩
      · exact ⟨fun h => absurd h (by decide), fun _ => ⟨fun h => by omega, fun _ => by linarith⟩⟩
      · exact ⟨fun h => absurd h (by decide), fun _ => ⟨fun _ => by linarith, fun h => by omega⟩⟩
      · exact ⟨fun _ => ⟨by linarith, by linarith⟩, fun h => h.elim⟩
    rcases lt_or_gt_of_ne hz with hneg | hpos
    · have hlt := hc.2.1 hneg
      have hle : (e : ℚ) ≤ -1 := by exact_mod_cast Int.le_sub_one_of_lt hlt
      have hsum : (e : ℚ) + (sb * G - sa * F) < 0 := by
        by_cases heq : sa = sb
        · linarith [(hsmall.1 heq).2]
        · linarith [(hsmall.2 heq).2 hlt]
      exact ⟨iff_of_false (by omega) (not_lt.2 hsum.le), iff_of_true hneg hsum⟩
    · have hlt := hc.1.1 hpos
      have hle : (1 : ℚ) ≤ e := by exact_mod_cast hlt
      have hsum : 0 < (e : ℚ) + (sb * G - sa * F) := by
        by_cases heq : sa = sb
        · linarith [(hsmall.1 heq).1]
        · linarith [(hsmall.2 heq).1 hlt]
      exact ⟨iff_of_true hpos hsum, iff_of_false (by omega) (not_lt.2 hsum.le)⟩

/-- **Numbers** are compared by their values. -/
theorem numCmp_key {rflg c : ℤ} (hr : rflg = 1 ∨ rflg = -1) {la pa lb pb : List Byte}
    (h : numCmp rflg la pa lb pb = some c) :
    SameSign c (numKey rflg lb pb - numKey rflg la pa) := by
  unfold numCmp at h
  obtain ⟨⟨sa, qa⟩, ha, h⟩ := bind_eq_some_iff.1 h
  obtain ⟨⟨sb, qb⟩, hb, h⟩ := bind_eq_some_iff.1 h
  have hsa := sign_unit hr ha
  have hsb := sign_unit hr hb
  have hda := digits_all la qa
  have hdb := digits_all lb qb
  have hra := val_range fun c hc => hda c (mem_reverse.1 hc)
  have hrb := val_range fun c hc => hdb c (mem_reverse.1 hc)
  have hfa := frac_range (pointDigits_all la (digits la qa).2)
  have hfb := frac_range (pointDigits_all lb (digits lb qb).2)
  have hkey := sameSign_parts hsa hsb hra.1 hrb.1 ⟨hfa.1, hfa.2.1⟩ ⟨hfb.1, hfb.2.1⟩
    (intCmp_sign hsa hsb hda hdb)
    (fracCmp_sign hsa hsb (pointDigits_all la (digits la qa).2)
      (pointDigits_all lb (digits lb qb).2))
  have hc : c = if intCmp sa sb (digits la qa).1 (digits lb qb).1 ≠ 0 then
      intCmp sa sb (digits la qa).1 (digits lb qb).1
      else fracCmp sa sb (pointDigits la (digits la qa).2) (pointDigits lb (digits lb qb).2) := by
    dsimp only at h
    split_ifs at h ⊢
    · cases h
      rfl
    · obtain ⟨pa, hpa, h⟩ := bind_eq_some_iff.1 h
      obtain ⟨pb, hpb, h⟩ := bind_eq_some_iff.1 h
      cases h
      unfold pointDigits
      rw [hpa, hpb]
  unfold numKey
  rw [ha, hb, hc]
  exact hkey

end numbers

/-! ## Months and words -/

section words

variable {env : Env} {code : Byte → ℤ} {ign : Byte → Bool} {rflg c : ℤ}
variable {la pa lb pb : List Byte}

/-- The month that a field is compared by. -/
def monKey (env : Env) (rflg : ℤ) (pa : List Byte) : ℤ := rflg * (month env pa).getD 0

theorem monCmp_key (h : monCmp env rflg pa pb = some c) :
    c = monKey env rflg pb - monKey env rflg pa := by
  unfold monCmp at h
  obtain ⟨mb, hb, h⟩ := bind_eq_some_iff.1 h
  obtain ⟨ma, ha, h⟩ := bind_eq_some_iff.1 h
  cases h
  unfold monKey
  rw [ha, hb, getD_some, getD_some, mul_sub]

/-- **The word** that a field is compared by: the codes of its characters that are not ignored. -/
def ascKey (code : Byte → ℤ) (ign : Byte → Bool) (la : List Byte) : List Byte → List ℤ
  | [] => []
  | c :: p =>
    if ign c then ascKey code ign la p
    else if ended la c p then [] else code c :: ascKey code ign la p

/-- The comparison of words: positive if the first one comes first. -/
def lexCmp : List ℤ → List ℤ → ℤ
  | [], [] => 0
  | [], _ :: _ => 1
  | _ :: _, [] => -1
  | a :: as, b :: bs => if b - a = 0 then lexCmp as bs else b - a

theorem skipIgnored_key {b : Byte} {q : List Byte} (h : skipIgnored ign pb = some (b, q)) :
    ascKey code ign lb pb = if ended lb b q then [] else code b :: ascKey code ign lb q := by
  induction pb with
  | nil => cases h
  | cons c p ih =>
    unfold skipIgnored at h
    rw [ascKey]
    by_cases hc : ign c = true
    · rw [if_pos hc] at h ⊢
      exact ih h
    · rw [if_neg hc] at h ⊢
      cases h
      rfl

theorem ascCmp_key (h : ascCmp code ign rflg la lb pa pb = some c) :
    c = rflg * lexCmp (ascKey code ign la pa) (ascKey code ign lb pb) := by
  induction pa generalizing pb with
  | nil => cases h
  | cons a pa ih =>
    unfold ascCmp at h
    rw [ascKey]
    by_cases hskip : ign a = true
    · rw [if_pos hskip] at h ⊢
      exact ih h
    · rw [if_neg hskip] at h ⊢
      obtain ⟨⟨b, q⟩, hq, h⟩ := bind_eq_some_iff.1 h
      rw [skipIgnored_key hq]
      dsimp only at h
      split_ifs at h ⊢ with ha hb hb hz
      · cases h
        exact (mul_zero rflg).symm
      · cases h
        exact (mul_one rflg).symm
      · cases h
        exact (mul_neg_one rflg).symm
      · rw [lexCmp, if_pos hz]
        exact ih h
      · cases h
        rw [lexCmp, if_neg hz, mul_comm]

theorem lexCmp_sign (as bs : List ℤ) :
    (0 < lexCmp as bs ↔ as < bs) ∧ (lexCmp as bs < 0 ↔ bs < as) := by
  induction as generalizing bs with
  | nil => cases bs <;> simp [lexCmp]
  | cons a as ih =>
    cases bs with
    | nil => simp [lexCmp]
    | cons b bs =>
      rw [lexCmp, cons_lt_cons_iff, cons_lt_cons_iff]
      split_ifs with h
      · obtain rfl : a = b := by omega
        obtain ⟨h1, h2⟩ := ih bs
        exact ⟨h1.trans (by simp), h2.trans (by simp)⟩
      · have hne : a ≠ b := fun heq => h (by omega)
        refine ⟨?_, ?_⟩
        · rw [or_iff_left fun heq => hne heq.1]
          omega
        · rw [or_iff_left fun heq => hne heq.1.symm]
          omega

theorem lexCmp_cmp : IsCmp lexCmp :=
  .of_key id (fun a b => (lexCmp_sign a b).1) fun a b => (lexCmp_sign a b).2

end words

/-! ## Lines -/

/-- A line, without its newline. -/
def Line : Type := { x : List Byte // NL ∉ x }

/-- The memory from a line on, with what follows its newline. -/
def Line.mem (x : Line) (s : List Byte) : List Byte := x.1 ++ NL :: s

theorem Line.inLine (x : Line) (s : List Byte) : InLine (x.mem s) :=
  mem_append_right _ mem_cons_self

section lines

variable {env : Env} {k : Bool} {fp : Field} {fs : List Field}

/-- What `cmp` finds in a field of two lines, in the loop over the fields, and at its end. -/
def fieldVal (env : Env) (k : Bool) (fp : Field) (x y : Line) : ℤ :=
  (cmpField env k fp (x.mem []) (y.mem [])).getD 0

def fieldsVal (env : Env) (k : Bool) (fs : List Field) (x y : Line) : ℤ :=
  (cmpFields env k fs (x.mem []) (y.mem [])).getD 0

def cmpVal (env : Env) (field0 : Field) (fields : List Field) (x y : Line) : ℤ :=
  (cmp env field0 fields (x.mem []) (y.mem [])).getD 0

/-- A key of a line, from the place of the field in it. -/
def Line.key {β : Type} (env : Env) (k : Bool) (fp : Field) (g : List Byte → List Byte → β)
    (d : β) (x : Line) : β :=
  match place env k fp (x.mem []) with
  | none => d
  | some (la, pa) => g la pa

/-- **A field** orders lines by its key. -/
theorem fieldVal_cmp (hs : Stops env.tabchar k fp) : IsCmp (fieldVal env k fp) := by
  have hval : ∀ x y : Line, ∃ la pa lb pb, place env k fp (x.mem []) = some (la, pa) ∧
      place env k fp (y.mem []) = some (lb, pb) ∧
        keyCmp env fp la pa lb pb = some (fieldVal env k fp x y) := by
    intro x y
    obtain ⟨la, pa, ha, hina⟩ := place_stops hs (x.inLine [])
    obtain ⟨lb, pb, hb, hinb⟩ := place_stops hs (y.inLine [])
    obtain ⟨c, hc⟩ := keyCmp_stops hs hina hinb la lb
    refine ⟨la, pa, lb, pb, ha, hb, ?_⟩
    unfold fieldVal cmpField
    rw [ha, bind_some]
    dsimp only
    rw [hb, bind_some, hc, getD_some]
  cases hf : fp.fcmp with
  | num =>
    have hkey : ∀ x y : Line, SameSign (fieldVal env k fp x y)
        (y.key env k fp (numKey fp.rflg) 0 - x.key env k fp (numKey fp.rflg) 0) := by
      intro x y
      obtain ⟨la, pa, lb, pb, ha, hb, hc⟩ := hval x y
      unfold keyCmp at hc
      rw [hf] at hc
      unfold Line.key
      rw [ha, hb]
      exact numCmp_key fp.rflg_mem hc
    refine .of_key (Line.key env k fp (numKey fp.rflg) 0) (fun x y => ?_) fun x y => ?_
    · rw [(hkey x y).1, sub_pos]
    · rw [(hkey x y).2, sub_neg]
  | mon =>
    have hkey : ∀ x y : Line, fieldVal env k fp x y =
        y.key env k fp (fun _ => monKey env fp.rflg) 0 -
          x.key env k fp (fun _ => monKey env fp.rflg) 0 := by
      intro x y
      obtain ⟨la, pa, lb, pb, ha, hb, hc⟩ := hval x y
      unfold keyCmp at hc
      rw [hf] at hc
      unfold Line.key
      rw [ha, hb]
      exact monCmp_key hc
    refine .of_key (Line.key env k fp (fun _ => monKey env fp.rflg) 0) (fun x y => ?_) fun x y => ?_
    · rw [hkey x y, sub_pos]
    · rw [hkey x y, sub_neg]
  | asc =>
    obtain ⟨g, hg⟩ : ∃ g, g = ascKey (fp.code.at env) (fp.ignore.at env) := ⟨_, rfl⟩
    have hkey : fieldVal env k fp = fun x y =>
        fp.rflg * lexCmp (x.key env k fp g []) (y.key env k fp g []) := by
      funext x y
      obtain ⟨la, pa, lb, pb, ha, hb, hc⟩ := hval x y
      unfold keyCmp at hc
      rw [hf] at hc
      unfold Line.key
      rw [ha, hb, hg]
      exact ascCmp_key hc
    rw [hkey]
    exact .reverse fp.rflg_mem (lexCmp_cmp.comap _)

/-- **The fields** one after the other. -/
theorem fieldsVal_cmp (hs : ∀ fp ∈ fs, Stops env.tabchar k fp) : IsCmp (fieldsVal env k fs) := by
  induction fs with
  | nil => exact .zero
  | cons fp fs ih =>
    obtain ⟨hfp, hfs⟩ := forall_mem_cons.1 hs
    have hdef : fieldsVal env k (fp :: fs) = fun x y =>
        if fieldVal env k fp x y = 0 then fieldsVal env k fs x y else fieldVal env k fp x y := by
      funext x y
      obtain ⟨c, hc⟩ := cmpField_stops hfp (x.inLine []) (y.inLine [])
      unfold fieldsVal fieldVal
      rw [cmpFields, hc, bind_some, getD_some]
      split_ifs <;> rfl
    rw [hdef]
    exact (fieldVal_cmp hfp).orElse (ih hfs)

theorem cmpaAt_eq (rflg : ℤ) {x y : List Byte} (hx : NL ∉ x) (hy : NL ∉ y) (s t : List Byte) :
    cmpaAt rflg (x ++ NL :: s) (y ++ NL :: t) = some (cmpa rflg x y) := by
  induction x generalizing y with
  | nil =>
    cases y with
    | nil =>
      rw [nil_append, nil_append, cmpaAt, if_pos rfl, if_pos rfl]
      rfl
    | cons b y =>
      have hb : NL ≠ b := ne_of_not_mem_cons hy
      rw [nil_append, cons_append, cmpaAt, if_neg hb, if_pos rfl]
      rfl
  | cons a x ih =>
    have ha : a ≠ NL := (ne_of_not_mem_cons hx).symm
    cases y with
    | nil =>
      rw [nil_append, cons_append, cmpaAt, if_neg ha, if_neg ha, if_pos rfl]
      rfl
    | cons b y =>
      have hb : b ≠ NL := (ne_of_not_mem_cons hy).symm
      rw [cons_append, cons_append, cmpaAt, cmpa, if_neg ha, if_neg ha, if_neg hb]
      split_ifs
      · exact ih (not_mem_of_not_mem_cons hx) (not_mem_of_not_mem_cons hy)
      · rfl
      · rfl

theorem cmpa_eq_zero {rflg : ℤ} (hr : rflg ≠ 0) {x y : List Byte} (h : cmpa rflg x y = 0) :
    x = y := by
  induction x generalizing y with
  | nil =>
    cases y with
    | nil => rfl
    | cons b y => exact absurd h hr
  | cons a x ih =>
    cases y with
    | nil => exact absurd (neg_eq_zero.1 h) hr
    | cons b y =>
      rw [cmpa] at h
      split_ifs at h with hab
      · rw [hab, ih h]
      · exact absurd h hr
      · exact absurd (neg_eq_zero.1 h) hr

/-- `cmp` is the comparison by the fields, and then by the whole lines without `-u`. -/
theorem cmpVal_eq {field0 : Field} {fields : List Field} (hs : AllStop env field0 fields) :
    ∃ keys : Line → Line → ℤ, IsCmp keys ∧ cmpVal env field0 fields = fun x y =>
      if keys x y = 0 then if env.uflg then 0 else cmpa field0.rflg x.1 y.1 else keys x y := by
  obtain ⟨keys, hkeys, hdef⟩ : ∃ keys : Line → Line → ℤ, IsCmp keys ∧ ∀ x y,
      (if fields = [] then cmpFields env false [field0] (x.mem []) (y.mem [])
        else cmpFields env true fields (x.mem []) (y.mem [])) = some (keys x y) := by
    have hsome : ∀ x y : Line, ∃ c,
        (if fields = [] then cmpFields env false [field0] (x.mem []) (y.mem [])
          else cmpFields env true fields (x.mem []) (y.mem [])) = some c :=
      fun x y => keys_stops hs (x.inLine []) (y.inLine [])
    unfold AllStop at hs
    split_ifs at hs hsome ⊢
    · refine ⟨fieldsVal env false [field0], fieldsVal_cmp (forall_mem_singleton.2 hs), ?_⟩
      intro x y
      obtain ⟨c, hc⟩ := hsome x y
      unfold fieldsVal
      rw [hc, getD_some]
    · refine ⟨fieldsVal env true fields, fieldsVal_cmp hs, ?_⟩
      intro x y
      obtain ⟨c, hc⟩ := hsome x y
      unfold fieldsVal
      rw [hc, getD_some]
  refine ⟨keys, hkeys, ?_⟩
  funext x y
  unfold cmpVal cmp
  rw [hdef, bind_some]
  split_ifs
  · rfl
  · rw [Line.mem, Line.mem, cmpaAt_eq _ x.2 y.2, getD_some]
  · rfl

/-- **`cmp` is an order of lines**: for all lines, whatever follows them, it returns what depends
on the lines only; the signs are those of a total order up to equivalence; and without `-u` only
equal lines are equivalent. -/
def LineOrder (env : Env) (field0 : Field) (fields : List Field) : Prop :=
  ∃ c : Line → Line → ℤ,
    (∀ x y s t, cmp env field0 fields (x.mem s) (y.mem t) = some (c x y)) ∧ IsCmp c ∧
      (env.uflg = false → ∀ x y, c x y = 0 → x = y)

/-- **`cmp` is an order of lines** exactly if all fields that it looks at stop at the newline. -/
theorem cmp_order (env : Env) (field0 : Field) (fields : List Field) :
    LineOrder env field0 fields ↔ AllStop env field0 fields := by
  constructor
  · rintro ⟨c, hc, -, -⟩
    by_contra hs
    have hempty := hc ⟨[], not_mem_nil⟩ ⟨[], not_mem_nil⟩ [] []
    have hmem : Line.mem ⟨[], not_mem_nil⟩ [] = [NL] := rfl
    rw [hmem, cmp_none hs] at hempty
    cases hempty
  · intro hs
    obtain ⟨keys, hkeys, hval⟩ := cmpVal_eq hs
    have hr : field0.rflg ≠ 0 := by
      rcases field0.rflg_mem with h | h <;> omega
    refine ⟨cmpVal env field0 fields, fun x y s t => ?_, ?_, fun hu x y hz => ?_⟩
    · obtain ⟨c, hc⟩ := cmp_some hs (x.inLine []) (y.inLine [])
      have happ := cmp_append hc s t
      have hmem : ∀ (z : Line) (s : List Byte), z.mem [] ++ s = z.mem s := fun z s =>
        append_assoc z.1 [NL] s
      rw [hmem, hmem] at happ
      rw [happ]
      unfold cmpVal
      rw [hc, getD_some]
    · rw [hval]
      have hlast : IsCmp fun x y : Line => if env.uflg then 0 else cmpa field0.rflg x.1 y.1 := by
        split_ifs
        · exact .zero
        · obtain ⟨hflip, htrans⟩ := cmpa_order field0.rflg_mem
          exact ⟨fun _ _ => hflip _ _, fun _ _ _ => htrans _ _ _⟩
      exact hkeys.orElse hlast
    · rw [hval] at hz
      dsimp only at hz
      split_ifs at hz with h1 h2
      · rw [hu] at h2
        exact absurd h2 Bool.false_ne_true
      · exact Subtype.ext (cmpa_eq_zero hr hz)
      · exact absurd hz h1

end lines

/-! ## A newline as the tab character -/

/-- `-t` with a newline. -/
def tabNewline : Env := { Env.c with tabchar := NL }

attribute [local instance] neZero_ends

/-- `+1 -2` -/
def secondField : Field := { proto with m := fun j => if j = 0 then 1 else 2 }

/-- Between two newlines is the next line: one line is compared with itself and is smaller, if
the lines that follow it in memory are. -/
theorem cmp_next_line : ¬ LineOrder tabNewline proto [secondField] := by
  rintro ⟨c, hc, -, -⟩
  obtain ⟨x, hx⟩ : ∃ x : Line, x.1 = [97] := ⟨⟨[97], by decide⟩, rfl⟩
  have hsame := hc x x [0, 98, NL] [0, 98, NL]
  have hother := hc x x [0, 98, NL] [0, 99, NL]
  unfold Line.mem at hsame hother
  rw [hx] at hsame hother
  have hsame' : cmp tabNewline proto [secondField] [97, NL, 0, 98, NL] [97, NL, 0, 98, NL] =
      some 0 := by decide
  have hother' : cmp tabNewline proto [secondField] [97, NL, 0, 98, NL] [97, NL, 0, 99, NL] =
      some 1 := by decide
  have heq : (some 0 : Option ℤ) = some 1 :=
    (hsame'.symm.trans hsame).trans (hother'.symm.trans hother).symm
  exact absurd heq (by decide)

end Cmd
