import Mathlib.Data.Nat.Bitwise
import OpusSysV.Libc.Malloc

/-!
# One holding block

What the pointers `lfreeq` and `unused` of a holding block and the headers of its little blocks say
together, and what taking and freeing one little block does to that.

* `HoldOk` — `k` little blocks were handed out so far, those of `F` are free again, and the list
  from `lfreeq` runs through them, to the first one never handed out if there is one.
* `HoldOk.took`, `HoldOk.put` — a little block is taken; it is freed.
* `HoldOk.reaches` — what can be reached from `lfreeq`.
-/

namespace Libc

open Function List

/-! ## Flags -/

theorem clr_set {x m : ℕ} (h : x &&& m = 0) : (x ||| m) ^^^ ((x ||| m) &&& m) = x := by
  refine Nat.eq_of_testBit_eq fun i => ?_
  have hi : (x &&& m).testBit i = false := by rw [h, Nat.zero_testBit]
  rw [Nat.testBit_and] at hi
  rw [Nat.testBit_xor, Nat.testBit_and, Nat.testBit_or]
  cases hx : x.testBit i <;> cases hm : m.testBit i <;> simp_all

theorem and_flag {x m : ℕ} (hx : ALIGNSZ ∣ x) (hm : m < ALIGNSZ) : x &&& m = 0 := by
  obtain ⟨y, rfl⟩ := hx
  refine Nat.eq_of_testBit_eq fun i => ?_
  rw [Nat.testBit_and, Nat.zero_testBit, Bool.and_eq_false_iff]
  rcases Nat.lt_or_ge i 3 with hi | hi
  · left
    rw [show ALIGNSZ = 2 ^ 3 from rfl, Nat.testBit_two_pow_mul, Bool.and_eq_false_iff]
    exact Or.inl (decide_eq_false (by omega))
  · exact Or.inr (Nat.testBit_lt_two_pow (lt_of_lt_of_le hm (Nat.pow_le_pow_right Nat.two_pos hi)))

section flags

variable {x : ℕ} (hx : ALIGNSZ ∣ x)

include hx

theorem CLRSMAL_SETSMAL : CLRSMAL (SETSMAL x) = x := clr_set (and_flag hx (by decide))

theorem CLRALL_SETALL : CLRALL (SETALL x) = x := clr_set (and_flag hx (by decide))

theorem CLRBUSY_eq : CLRBUSY x = x := by
  unfold CLRBUSY
  rw [and_flag hx (by decide), Nat.xor_zero]

theorem TESTSMAL_SETSMAL : TESTSMAL (SETSMAL x) = true := by
  unfold TESTSMAL SETSMAL
  rw [Nat.and_or_distrib_right, and_flag hx (by decide)]
  rfl

theorem TESTBUSY_SETSMAL : TESTBUSY (SETSMAL x) = false := by
  unfold TESTBUSY SETSMAL
  rw [Nat.and_or_distrib_right, and_flag hx (by decide)]
  rfl

theorem TESTSMAL_SETALL : TESTSMAL (SETALL x) = true := by
  unfold TESTSMAL SETALL
  rw [Nat.and_or_distrib_right, and_flag hx (by decide)]
  rfl

theorem TESTBUSY_SETALL : TESTBUSY (SETALL x) = true := by
  unfold TESTBUSY SETALL
  rw [Nat.and_or_distrib_right, and_flag hx (by decide)]
  rfl

end flags

/-! ## Little blocks -/

variable {o : Mallopt} {u : Heap} {h i j k n x e : ℕ} {F : List ℕ}

theorem size_pos : 0 < o.size i := Nat.succ_pos _

theorem dvd_size : ALIGNSZ ∣ o.size i :=
  Nat.dvd_add (Dvd.dvd.mul_left o.grain_dvd i) (dvd_refl ALIGNSZ)

theorem dvd_lblkAt (hh : ALIGNSZ ∣ h) : ALIGNSZ ∣ lblkAt h (o.size i) j :=
  Nat.dvd_add (Nat.dvd_add hh ⟨3, rfl⟩) (Dvd.dvd.mul_left dvd_size j)

theorem lblkAt_ne : lblkAt h n j ≠ GROUND := by
  unfold lblkAt SPACE GROUND
  omega

theorem lblkAt_succ : lblkAt h n j + n = lblkAt h n (j + 1) := by
  unfold lblkAt
  rw [Nat.succ_mul, Nat.add_assoc]

theorem lblkAt_le : lblkAt h (o.size i) j ≤ lblkAt h (o.size i) k ↔ j ≤ k := by
  unfold lblkAt
  rw [Nat.add_le_add_iff_left]
  exact Nat.mul_le_mul_right_iff size_pos

theorem lblkAt_lt : lblkAt h (o.size i) j < lblkAt h (o.size i) k ↔ j < k := by
  rw [← Nat.not_le, lblkAt_le, Nat.not_le]

theorem lblkAt_inj (he : lblkAt h (o.size i) j = lblkAt h (o.size i) k) : j = k :=
  Nat.le_antisymm (lblkAt_le.mp he.le) (lblkAt_le.mp he.ge)

/-- A little block ends in its holding block. -/
theorem lblkAt_end (hj : j < o.numlblks) :
    lblkAt h (o.size i) j + o.size i ≤ h + o.HOLDSZ (o.size i) := by
  rw [lblkAt_succ]
  unfold lblkAt Mallopt.HOLDSZ
  rw [Nat.mul_comm (o.size i), Nat.add_assoc, Nat.add_le_add_iff_left, Nat.add_le_add_iff_left]
  exact Nat.mul_le_mul_right _ hj

theorem lblkAt_numlblks : lblkAt h (o.size i) o.numlblks = h + o.HOLDSZ (o.size i) := by
  unfold lblkAt Mallopt.HOLDSZ
  rw [Nat.mul_comm, Nat.add_assoc]

/-! ## The list of free little blocks -/

/-- Each of the little blocks names the next one, and the last one names `e`. -/
def FreeList (header : ℕ → ℕ) (e : ℕ) : List ℕ → Prop
  | [] => True
  | x :: F => header x = SETSMAL (F.headD e) ∧ FreeList header e F

theorem FreeList.congr {header header' : ℕ → ℕ} (hF : FreeList header e F)
    (hx : ∀ x ∈ F, header' x = header x) : FreeList header' e F := by
  induction F with
  | nil => trivial
  | cons x F ih =>
    exact ⟨(hx x mem_cons_self).trans hF.1,
      ih hF.2 fun y hy => hx y (mem_cons_of_mem x hy)⟩

theorem FreeList.header_eq {header : ℕ → ℕ} {G : List ℕ} (hF : FreeList header e (G ++ x :: F)) :
    header x = SETSMAL (F.headD e) := by
  induction G with
  | nil => exact hF.1
  | cons y G ih => exact ih hF.2

/-- The first little block never handed out, when `k` were. -/
def restOf (o : Mallopt) (h i k : ℕ) : ℕ :=
  if k < o.numlblks then lblkAt h (o.size i) k else GROUND

theorem dvd_restOf (hh : ALIGNSZ ∣ h) : ALIGNSZ ∣ restOf o h i k := by
  unfold restOf
  split_ifs
  · exact dvd_lblkAt hh
  · exact ⟨0, rfl⟩

/-- A holding block of which `k` little blocks were handed out so far, and those of `F` are free
again. -/
structure HoldOk (o : Mallopt) (u : Heap) (h i k : ℕ) (F : List ℕ) : Prop where
  pos : 0 < k
  le : k ≤ o.numlblks
  blksz : (u.mall.hold h).blksz = i * o.grain
  unused : (u.mall.hold h).unused = lblkAt h (o.size i) (min k (o.numlblks - 1))
  lfreeq : (u.mall.hold h).lfreeq = F.headD (restOf o h i k)
  chain : FreeList u.mall.header (restOf o h i k) F
  nodup : F.Nodup
  freed : ∀ x ∈ F, ∃ j < k, x = lblkAt h (o.size i) j
  given : ∀ j < o.numlblks, lblkAt h (o.size i) j ∈ u.given ↔ j < k
  live : ∀ j < o.numlblks,
    lblkAt h (o.size i) j ∈ u.live ↔ j < k ∧ lblkAt h (o.size i) j ∉ F
  busy : ∀ j < k, lblkAt h (o.size i) j ∉ F → u.mall.header (lblkAt h (o.size i) j) = SETALL h

namespace HoldOk

section

variable (hk : HoldOk o u h i k F)

include hk

/-- What happens to other holding blocks does not matter, nor what happens to the links of the
queue. -/
theorem congr {v : Heap}
    (hb : (v.mall.hold h).blksz = (u.mall.hold h).blksz)
    (hu : (v.mall.hold h).unused = (u.mall.hold h).unused)
    (hl : (v.mall.hold h).lfreeq = (u.mall.hold h).lfreeq)
    (hx : ∀ j < o.numlblks, v.mall.header (lblkAt h (o.size i) j) =
      u.mall.header (lblkAt h (o.size i) j))
    (hg : ∀ j < o.numlblks, lblkAt h (o.size i) j ∈ v.given ↔ lblkAt h (o.size i) j ∈ u.given)
    (hlive : ∀ j < o.numlblks, lblkAt h (o.size i) j ∈ v.live ↔ lblkAt h (o.size i) j ∈ u.live) :
    HoldOk o v h i k F := by
  refine ⟨hk.pos, hk.le, hb.trans hk.blksz, hu.trans hk.unused, hl.trans hk.lfreeq, ?_, hk.nodup,
    hk.freed, fun j hj => (hg j hj).trans (hk.given j hj),
    fun j hj => (hlive j hj).trans (hk.live j hj), fun j hj hF => ?_⟩
  · refine hk.chain.congr fun x hxF => ?_
    obtain ⟨j, hj, rfl⟩ := hk.freed x hxF
    exact hx j (lt_of_lt_of_le hj hk.le)
  · rw [hx j (lt_of_lt_of_le hj hk.le)]
    exact hk.busy j hj hF

/-- What the last cell of a part of the list names is aligned. -/
theorem dvd_headD (hh : ALIGNSZ ∣ h) {G : List ℕ} (hG : G ⊆ F) :
    ALIGNSZ ∣ G.headD (restOf o h i k) := by
  cases G with
  | nil => exact dvd_restOf hh
  | cons x G =>
    obtain ⟨j, -, rfl⟩ := hk.freed x (hG mem_cons_self)
    exact dvd_lblkAt hh

/-- It is full if and only if all its little blocks are allocated. -/
theorem full_iff :
    (u.mall.hold h).lfreeq = GROUND ↔ ∀ j < o.numlblks, lblkAt h (o.size i) j ∈ u.live := by
  rw [hk.lfreeq]
  constructor
  · intro h0 j hj
    cases F with
    | nil =>
      unfold restOf at h0
      rw [headD_nil] at h0
      split_ifs at h0 with hlt
      · exact absurd h0 lblkAt_ne
      · exact (hk.live j hj).mpr ⟨by omega, not_mem_nil⟩
    | cons x F =>
      obtain ⟨m, -, rfl⟩ := hk.freed x mem_cons_self
      exact absurd h0 lblkAt_ne
  · intro hall
    cases F with
    | nil =>
      unfold restOf
      rw [headD_nil, if_neg]
      intro hlt
      exact absurd ((hk.live k hlt).mp (hall k hlt)).1 (lt_irrefl k)
    | cons x F =>
      obtain ⟨m, hm, rfl⟩ := hk.freed x mem_cons_self
      have hmn := lt_of_lt_of_le hm hk.le
      exact absurd mem_cons_self ((hk.live m hmn).mp (hall m hmn)).2

/-- The last little block and the first one never handed out, by the address in `unused`. -/
theorem lfreeq_lt (h0 : (u.mall.hold h).lfreeq ≠ GROUND)
    (hlt : (u.mall.hold h).lfreeq < (u.mall.hold h).unused) :
    ∃ F', F = (u.mall.hold h).lfreeq :: F' := by
  rw [hk.lfreeq] at h0 hlt ⊢
  cases F with
  | nil =>
    rw [headD_nil] at h0 hlt
    unfold restOf at h0 hlt
    rw [hk.unused] at hlt
    split_ifs at h0 hlt with hkn
    · rw [lblkAt_lt] at hlt
      omega
    · exact absurd rfl h0
  | cons x F => exact ⟨F, rfl⟩

/-- A little block from `unused` on that is first on the list: it was never handed out, or it is the
last one of its holding block. -/
theorem lfreeq_ge (h0 : (u.mall.hold h).lfreeq ≠ GROUND)
    (hge : (u.mall.hold h).unused ≤ (u.mall.hold h).lfreeq) :
    (F = [] ∧ k < o.numlblks ∧ (u.mall.hold h).lfreeq = lblkAt h (o.size i) k) ∨
    (k = o.numlblks ∧ (u.mall.hold h).lfreeq = lblkAt h (o.size i) (o.numlblks - 1) ∧
      ∃ F', F = (u.mall.hold h).lfreeq :: F') := by
  have hn := o.numlblks_gt
  have hle := hk.le
  rw [hk.unused] at hge
  rw [hk.lfreeq] at h0 hge ⊢
  cases F with
  | nil =>
    left
    rw [headD_nil] at h0 ⊢
    unfold restOf at h0 ⊢
    by_cases hkn : k < o.numlblks
    · exact ⟨rfl, hkn, if_pos hkn⟩
    · rw [if_neg hkn] at h0
      exact absurd rfl h0
  | cons x F =>
    right
    obtain ⟨m, hm, rfl⟩ := hk.freed x mem_cons_self
    rw [headD_cons, lblkAt_le] at hge
    have hmn : m = o.numlblks - 1 := by omega
    refine ⟨by omega, ?_, F, rfl⟩
    rw [headD_cons, hmn]

/-! ## A little block is taken -/

theorem lt_of_mem
    (hx : lblkAt h (o.size i) j ∈ F) : j < k := by
  obtain ⟨m, hm, he⟩ := hk.freed _ hx
  rw [lblkAt_inj he]
  exact hm

end

end HoldOk

/-- The first holding block gives its first free little block; its list goes on with `q`. -/
def Mall.took (s : Mall) (i q un : ℕ) : Mall :=
  let h := s.holdhead i
  { s with
    holdhead := if q = GROUND then update s.holdhead i (s.hold h).nexthblk
      else s.holdhead
    hold := update s.hold h { s.hold h with lfreeq := q, unused := un }
    header := update s.header (s.hold h).lfreeq (SETALL h) }

/-- One more little block is allocated: the first of those that are free again, or else the first
one never handed out. -/
def Takes (o : Mallopt) (h i k k' lblk : ℕ) (F F' : List ℕ) : Prop :=
  (k' = k ∧ F = lblk :: F') ∨
  (k' = k + 1 ∧ k < o.numlblks ∧ F = [] ∧ F' = [] ∧ lblk = lblkAt h (o.size i) k)

/-- **The three ways to take a little block.** -/
theorem takeLblk_spec (hk : HoldOk o u h i k F) (hhead : u.mall.holdhead i = h)
    (hal : ALIGNSZ ∣ h) (h0 : (u.mall.hold h).lfreeq ≠ GROUND)
    (hlast : (u.mall.hold h).lfreeq = lblkAt h (o.size i) (o.numlblks - 1) →
      ∀ j < o.numlblks - 1, lblkAt h (o.size i) j ∈ u.live) :
    ∃ k' F', Takes o h i k k' (u.mall.hold h).lfreeq F F' ∧
      u.mall.takeLblk o i = ((u.mall.hold h).lfreeq + MINHEAD,
        u.mall.took i (F'.headD (restOf o h i k'))
          (lblkAt h (o.size i) (min k' (o.numlblks - 1)))) := by
  have hn := o.numlblks_gt
  unfold Mall.takeLblk Mall.setHold Mall.setHeader Mall.setHead Mall.took
  rw [hhead]
  dsimp only
  rw [update_self]
  by_cases hlt : (u.mall.hold h).lfreeq < (u.mall.hold h).unused
  · obtain ⟨F', hF⟩ := hk.lfreeq_lt h0 hlt
    have hch := hk.chain
    rw [hF] at hch
    have hd : ALIGNSZ ∣ F'.headD (restOf o h i k) :=
      hk.dvd_headD hal (by rw [hF]; exact subset_cons_self _ F')
    refine ⟨k, F', Or.inl ⟨rfl, hF⟩, ?_⟩
    rw [if_pos hlt, hch.1, CLRSMAL_SETSMAL hd]
    rw [← hk.unused]
    split_ifs
    · rfl
    · rfl
  · rw [if_neg hlt]
    have hge := Nat.le_of_not_lt hlt
    rcases hk.lfreeq_ge h0 hge with ⟨hF, hkn, hl⟩ | ⟨hkn, hl, F', hF⟩
    · refine ⟨k + 1, [], Or.inr ⟨rfl, hkn, hF, rfl, hl⟩, ?_⟩
      have hun : (u.mall.hold h).unused = lblkAt h (o.size i) k := by
        rw [hk.unused, Nat.min_eq_left (by omega)]
      rw [hun, lblkAt_succ, ← lblkAt_numlblks, headD_nil]
      unfold restOf
      by_cases hnext : k + 1 < o.numlblks
      · rw [if_pos (lblkAt_lt.mpr hnext), if_pos hnext, if_neg lblkAt_ne,
          Nat.min_eq_left (by omega)]
      · rw [if_neg (fun hc => hnext (lblkAt_lt.mp hc)), if_neg hnext, if_pos rfl,
          Nat.min_eq_right (by omega), show o.numlblks - 1 = k by omega, ← hun, update_self]
    · have hone : F' = [] := by
        cases F' with
        | nil => rfl
        | cons y l =>
          have hy : y ∈ F := by rw [hF]; exact mem_cons_of_mem _ mem_cons_self
          obtain ⟨j, hj, rfl⟩ := hk.freed y hy
          have hnd := hk.nodup
          rw [hF, hl] at hnd
          have hne : j ≠ o.numlblks - 1 := by
            rintro rfl
            exact (nodup_cons.mp hnd).1 mem_cons_self
          have hm := hlast hl j (by omega)
          exact absurd hy ((hk.live j (by omega)).mp hm).2
      refine ⟨k, F', Or.inl ⟨rfl, hF⟩, ?_⟩
      have hun := hk.unused
      rw [Nat.min_eq_right (by omega)] at hun
      have hend : ¬ (u.mall.hold h).unused + o.size i < h + o.HOLDSZ (o.size i) := by
        rw [hun, lblkAt_succ, ← lblkAt_numlblks, lblkAt_lt]
        omega
      rw [if_neg hend, hone, headD_nil]
      unfold restOf
      rw [if_neg (by omega : ¬ k < o.numlblks), if_pos rfl, Nat.min_eq_right (by omega), ← hun,
        update_self]

/-- What is known of a holding block after one of its little blocks was taken. -/
theorem HoldOk.took {v : Heap} {k' : ℕ} {F' : List ℕ} (hk : HoldOk o u h i k F)
    (htake : Takes o h i k k' (u.mall.hold h).lfreeq F F')
    (hhold : v.mall.hold h = { u.mall.hold h with
      lfreeq := F'.headD (restOf o h i k')
      unused := lblkAt h (o.size i) (min k' (o.numlblks - 1)) })
    (hheader : v.mall.header =
      update u.mall.header (u.mall.hold h).lfreeq (SETALL h))
    (hgiven : v.given = (u.mall.hold h).lfreeq :: u.given)
    (hlive : v.live = (u.mall.hold h).lfreeq :: u.live) : HoldOk o v h i k' F' := by
  have hpos := hk.pos
  have hle := hk.le
  obtain ⟨x, hx⟩ : ∃ x, x = (u.mall.hold h).lfreeq := ⟨_, rfl⟩
  rw [← hx] at htake hheader hgiven hlive
  rcases htake with ⟨rfl, hF⟩ | ⟨rfl, hkn, rfl, rfl, hxk⟩
  · have hnd := hk.nodup
    have hch := hk.chain
    rw [hF] at hnd hch
    have hnd' := nodup_cons.mp hnd
    have hxF : x ∈ F := by rw [hF]; exact mem_cons_self
    obtain ⟨m, hm, hxm⟩ := hk.freed x hxF
    refine ⟨hpos, hle, by rw [hhold]; exact hk.blksz, by rw [hhold], by rw [hhold], ?_, hnd'.2,
      fun y hy => hk.freed y (by rw [hF]; exact mem_cons_of_mem _ hy), fun j hj => ?_,
      fun j hj => ?_, fun j hj hjF => ?_⟩
    · rw [hheader]
      refine hch.2.congr fun y hy => update_of_ne ?_ _ _
      rintro rfl
      exact hnd'.1 hy
    · rw [hgiven, mem_cons, hk.given j hj]
      refine ⟨?_, Or.inr⟩
      rintro (he | hj)
      · rw [lblkAt_inj (he.trans hxm)]
        exact hm
      · exact hj
    · rw [hlive, mem_cons, hk.live j hj, hF, mem_cons, not_or]
      constructor
      · rintro (he | ⟨hjk, -, hn⟩)
        · rw [he]
          refine ⟨?_, hnd'.1⟩
          rw [lblkAt_inj (he.trans hxm)]
          exact hm
        · exact ⟨hjk, hn⟩
      · rintro ⟨hjk, hn⟩
        by_cases he : lblkAt h (o.size i) j = x
        · exact Or.inl he
        · exact Or.inr ⟨hjk, he, hn⟩
    · rw [hheader]
      by_cases he : lblkAt h (o.size i) j = x
      · rw [he, update_self]
      · rw [update_of_ne he]
        refine hk.busy j hj ?_
        rw [hF, mem_cons, not_or]
        exact ⟨he, hjF⟩
  · refine ⟨Nat.succ_pos k, hkn, by rw [hhold]; exact hk.blksz, by rw [hhold], by rw [hhold],
      trivial, nodup_nil, fun y hy => absurd hy not_mem_nil, fun j hj => ?_,
      fun j hj => ?_, fun j hj _ => ?_⟩
    · rw [hgiven, mem_cons, hk.given j hj, hxk]
      constructor
      · rintro (he | hj)
        · rw [lblkAt_inj he]
          exact Nat.lt_succ_self k
        · exact Nat.lt_succ_of_lt hj
      · intro hjk
        rcases Nat.lt_succ_iff_lt_or_eq.mp hjk with h1 | rfl
        · exact Or.inr h1
        · exact Or.inl rfl
    · rw [hlive, mem_cons, hk.live j hj, hxk]
      constructor
      · rintro (he | ⟨hj, -⟩)
        · rw [lblkAt_inj he]
          exact ⟨Nat.lt_succ_self k, not_mem_nil⟩
        · exact ⟨Nat.lt_succ_of_lt hj, not_mem_nil⟩
      · rintro ⟨hjk, -⟩
        rcases Nat.lt_succ_iff_lt_or_eq.mp hjk with h1 | rfl
        · exact Or.inr ⟨h1, not_mem_nil⟩
        · exact Or.inl rfl
    · rw [hheader]
      rcases Nat.lt_succ_iff_lt_or_eq.mp hj with h1 | rfl
      · rw [update_of_ne]
        · exact hk.busy j h1 not_mem_nil
        · rw [hxk]
          intro he
          exact absurd (lblkAt_inj he) (Nat.ne_of_lt h1)
      · rw [← hxk, update_self]

/-! ## A little block is freed -/

/-- What is known of a holding block after one of its little blocks was freed. -/
theorem HoldOk.put {v : Heap} (hk : HoldOk o u h i k F) (hj : j < k)
    (hjF : lblkAt h (o.size i) j ∉ F)
    (hb : (v.mall.hold h).blksz = (u.mall.hold h).blksz)
    (hun : (v.mall.hold h).unused = (u.mall.hold h).unused)
    (hl : (v.mall.hold h).lfreeq = lblkAt h (o.size i) j)
    (hheader : v.mall.header = update u.mall.header (lblkAt h (o.size i) j)
      (SETSMAL (u.mall.hold h).lfreeq))
    (hgiven : v.given = u.given)
    (hlive : v.live = u.live.filter fun x => x ≠ lblkAt h (o.size i) j) :
    HoldOk o v h i k (lblkAt h (o.size i) j :: F) := by
  refine ⟨hk.pos, hk.le, hb.trans hk.blksz, hun.trans hk.unused, hl, ⟨?_, ?_⟩,
    nodup_cons.mpr ⟨hjF, hk.nodup⟩, fun y hy => ?_, fun m hm => by rw [hgiven, hk.given m hm],
    fun m hm => ?_, fun m hm hmF => ?_⟩
  · rw [hheader, update_self, hk.lfreeq]
  · rw [hheader]
    refine hk.chain.congr fun y hy => update_of_ne ?_ _ _
    rintro rfl
    exact hjF hy
  · rcases mem_cons.mp hy with rfl | hy
    · exact ⟨j, hj, rfl⟩
    · exact hk.freed y hy
  · rw [hlive, mem_filter, hk.live m hm, mem_cons, not_or, decide_eq_true_eq]
    tauto
  · rw [mem_cons, not_or] at hmF
    rw [hheader, update_of_ne hmF.1]
    exact hk.busy m hm hmF.2

/-! ## What can be reached -/

/-- The little blocks that can be reached from `lfreeq`: a block that was handed out before names
the next one. -/
inductive Reaches (u : Heap) (h : ℕ) : ℕ → Prop
  | lfreeq (h0 : (u.mall.hold h).lfreeq ≠ GROUND) : Reaches u h (u.mall.hold h).lfreeq
  | next {y : ℕ} (hy : Reaches u h y) (hg : y ∈ u.given)
      (h0 : CLRSMAL (u.mall.header y) ≠ GROUND) : Reaches u h (CLRSMAL (u.mall.header y))

namespace HoldOk

/-- What a part of the list leads to. -/
theorem headD_cases {G : List ℕ} (hG : G ⊆ F) (h0 : G.headD (restOf o h i k) ≠ GROUND) :
    G.headD (restOf o h i k) ∈ F ∨
      (k < o.numlblks ∧ G.headD (restOf o h i k) = lblkAt h (o.size i) k) := by
  cases G with
  | nil =>
    rw [headD_nil] at h0 ⊢
    unfold restOf at h0 ⊢
    by_cases hkn : k < o.numlblks
    · rw [if_pos hkn]
      exact Or.inr ⟨hkn, rfl⟩
    · rw [if_neg hkn] at h0
      exact absurd rfl h0
  | cons y G => exact Or.inl (hG mem_cons_self)

theorem mem_given (hk : HoldOk o u h i k F) (hx : x ∈ F) : x ∈ u.given := by
  obtain ⟨j, hj, rfl⟩ := hk.freed x hx
  exact (hk.given j (lt_of_lt_of_le hj hk.le)).mpr hj

/-- From `lfreeq` one gets to the free little blocks and to the first one never handed out. -/
theorem of_reaches (hk : HoldOk o u h i k F) (hal : ALIGNSZ ∣ h) (hr : Reaches u h x) :
    x ∈ F ∨ (k < o.numlblks ∧ x = lblkAt h (o.size i) k) := by
  induction hr with
  | lfreeq h0 =>
    rw [hk.lfreeq] at h0 ⊢
    exact headD_cases (fun _ hy => hy) h0
  | next hy hg h0 ih =>
    rcases ih with hyF | ⟨hkn, rfl⟩
    · obtain ⟨G, H, hGH⟩ := append_of_mem hyF
      have hH : H ⊆ F := by
        rw [hGH]
        exact fun z hz => mem_append_right G (mem_cons_of_mem _ hz)
      have hch := hk.chain
      rw [hGH] at hch
      rw [hch.header_eq, CLRSMAL_SETSMAL (hk.dvd_headD hal hH)] at h0 ⊢
      exact headD_cases hH h0
    · exact absurd ((hk.given k hkn).mp hg) (lt_irrefl k)

/-- From the first cell of a part of the list one gets to the others. -/
theorem reaches_part (hk : HoldOk o u h i k F) (hal : ALIGNSZ ∣ h) {G : List ℕ} (hG : G ⊆ F)
    (hch : FreeList u.mall.header (restOf o h i k) G)
    (hr : G.headD (restOf o h i k) ≠ GROUND → Reaches u h (G.headD (restOf o h i k)))
    (hx : x ∈ G ∨ (k < o.numlblks ∧ x = lblkAt h (o.size i) k)) : Reaches u h x := by
  induction G with
  | nil =>
    rcases hx with hx | ⟨hkn, rfl⟩
    · cases hx
    · unfold restOf at hr
      rw [headD_nil, if_pos hkn] at hr
      exact hr lblkAt_ne
  | cons y G ih =>
    have hyF : y ∈ F := hG mem_cons_self
    have hG' : G ⊆ F := fun z hz => hG (mem_cons_of_mem y hz)
    obtain ⟨j, hj, hyj⟩ := hk.freed y hyF
    have hy : Reaches u h y := by
      refine hr ?_
      rw [headD_cons, hyj]
      exact lblkAt_ne
    by_cases hxy : x = y
    · rw [hxy]
      exact hy
    · refine ih hG' hch.2 (fun h0 => ?_) ?_
      · have hn := Reaches.next hy (hk.mem_given hyF)
        rw [hch.1, CLRSMAL_SETSMAL (hk.dvd_headD hal hG')] at hn
        exact hn h0
      · exact hx.imp_left fun hx => (mem_cons.mp hx).resolve_left hxy

theorem reaches_iff (hk : HoldOk o u h i k F) (hal : ALIGNSZ ∣ h) :
    Reaches u h x ↔ x ∈ F ∨ (k < o.numlblks ∧ x = lblkAt h (o.size i) k) := by
  refine ⟨hk.of_reaches hal, hk.reaches_part hal (fun _ hy => hy) hk.chain fun h0 => ?_⟩
  rw [← hk.lfreeq] at h0 ⊢
  exact .lfreeq h0

/-- **Reachable or never handed out is free.** -/
theorem reaches (hk : HoldOk o u h i k F) (hal : ALIGNSZ ∣ h) (hj : j < o.numlblks) :
    (Reaches u h (lblkAt h (o.size i) j) ∨
      ((u.mall.hold h).unused ≤ lblkAt h (o.size i) j ∧ (u.mall.hold h).unused ∉ u.given)) ↔
    lblkAt h (o.size i) j ∉ u.live := by
  have hn := o.numlblks_gt
  have hle := hk.le
  have hmin : min k (o.numlblks - 1) < o.numlblks := by omega
  rw [hk.reaches_iff hal, hk.unused, lblkAt_le, hk.given _ hmin, hk.live j hj]
  constructor
  · rintro ((hF | ⟨hkn, he⟩) | ⟨h1, h2⟩) ⟨hjk, hnF⟩
    · exact hnF hF
    · rw [lblkAt_inj he] at hjk
      exact lt_irrefl k hjk
    · omega
  · intro hnot
    by_cases hF : lblkAt h (o.size i) j ∈ F
    · exact Or.inl (Or.inl hF)
    · have hjk : ¬ j < k := fun hlt => hnot ⟨hlt, hF⟩
      exact Or.inr (by omega)

end HoldOk

end Libc
