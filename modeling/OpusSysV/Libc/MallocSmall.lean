import OpusSysV.Libc.MallocHold
import OpusSysV.Libc.MallocQueue

/-!
# Small blocks over whole runs

* `Heap.Good` — every holding block is as `HoldOk` says, they share no byte, and in the queue of
  each size no full one comes before one with a free little block.
* `small_blocks` — what holds after any calls of `malloc` and `free` of small sizes of which none
  takes the last little block of a holding block while another one of it is free: the free little
  blocks are exactly those that can be reached, and a new holding block is obtained only when all
  little blocks of the size are allocated.
* `small_block_lost` — what happens otherwise.
-/

namespace Libc

open Lib Function List Option

variable {o : Mallopt} {u v : Heap} {s t : Mall} {h i j k m n x : ℕ} {F L l : List ℕ}

/-- No holding block with a free little block comes after a full one. -/
def FullLast (s : Mall) (L : List ℕ) : Prop :=
  L.Pairwise fun a b => (s.hold a).lfreeq = GROUND → (s.hold b).lfreeq = GROUND

/-- What holds between any two calls. -/
structure Heap.Good (o : Mallopt) (u : Heap) : Prop where
  fresh : u.mall.change = false → u.blocks = [] ∧ u.given = []
  owned : ∀ x ∈ u.live, x ∈ u.given
  aligned : ∀ b ∈ u.blocks, ALIGNSZ ∣ b.1 ∧ b.1 ≠ GROUND
  apart : ∀ a ∈ u.blocks, ∀ b ∈ u.blocks, a ≠ b →
    a.1 + o.HOLDSZ (o.size a.2) ≤ b.1 ∨ b.1 + o.HOLDSZ (o.size b.2) ≤ a.1
  indexed : ∀ b ∈ u.blocks, 1 ≤ b.2 ∧ b.2 ≤ o.fastct
  hold : ∀ b ∈ u.blocks, ∃ k F, HoldOk o u b.1 b.2 k F
  within : ∀ x ∈ u.given, ∃ b ∈ u.blocks, ∃ j < o.numlblks, x = lblkAt b.1 (o.size b.2) j
  queue : u.mall.change = true → ∀ i, 1 ≤ i → i ≤ o.fastct →
    ∃ L, Queued u.mall i L ∧ (∀ h, h ∈ L ↔ (h, i) ∈ u.blocks) ∧ FullLast u.mall L

/-! ## Addresses -/

theorem index_range (hn : n ≠ 0) (hm : n ≤ o.maxfast) : 1 ≤ o.index n ∧ o.index n ≤ o.fastct := by
  have hg := o.grain_pos
  unfold Mallopt.index
  constructor
  · rw [Nat.le_div_iff_mul_le hg]
    omega
  · refine Nat.lt_succ_iff.mp ?_
    rw [Nat.div_lt_iff_lt_mul hg, Nat.succ_mul]
    unfold Mallopt.maxfast at hm
    omega

theorem le_lblkAt : h ≤ lblkAt h n j := by
  unfold lblkAt
  omega

/-- Little blocks of holding blocks that share no byte are different. -/
theorem lblkAt_ne_lblkAt {h' i' : ℕ} (hd : h + o.HOLDSZ (o.size i) ≤ h' ∨
    h' + o.HOLDSZ (o.size i') ≤ h) (hj : j < o.numlblks) (hm : m < o.numlblks) :
    lblkAt h (o.size i) j ≠ lblkAt h' (o.size i') m := by
  have h1 : lblkAt h (o.size i) j + o.size i ≤ h + o.HOLDSZ (o.size i) := lblkAt_end hj
  have h2 : lblkAt h' (o.size i') m + o.size i' ≤ h' + o.HOLDSZ (o.size i') := lblkAt_end hm
  have h3 : h ≤ lblkAt h (o.size i) j := le_lblkAt
  have h4 : h' ≤ lblkAt h' (o.size i') m := le_lblkAt
  have h5 : 0 < o.size i := size_pos
  have h6 : 0 < o.size i' := size_pos
  omega

theorem HOLDSZ_pos : 0 < o.HOLDSZ n := Nat.lt_of_lt_of_le (by decide) (Nat.le_add_right SPACE _)

namespace Heap.Good

/-- There is one holding block at an address. -/
theorem index_unique {i' : ℕ} (hu : u.Good o) (h1 : (h, i) ∈ u.blocks)
    (h2 : (h, i') ∈ u.blocks) : i = i' := by
  by_contra hne
  have hp : 0 < o.HOLDSZ (o.size i) := HOLDSZ_pos
  have hp' : 0 < o.HOLDSZ (o.size i') := HOLDSZ_pos
  have := hu.apart _ h1 _ h2 fun he => hne (Prod.mk.inj he).2
  dsimp only at this
  omega

end Heap.Good

/-- Nothing changed in a holding block but links of the queue, and the little block `x` of another
one. -/
theorem HoldOk.frame (hk : HoldOk o u h i k F)
    (hcore : (v.mall.hold h).core = (u.mall.hold h).core)
    (hx : ∀ j < o.numlblks, lblkAt h (o.size i) j ≠ x)
    (hheader : ∀ y, y ≠ x → v.mall.header y = u.mall.header y)
    (hgiven : ∀ y, y ≠ x → (y ∈ v.given ↔ y ∈ u.given))
    (hlive : ∀ y, y ≠ x → (y ∈ v.live ↔ y ∈ u.live)) : HoldOk o v h i k F := by
  have hc := Prod.mk.inj hcore
  have hc' := Prod.mk.inj hc.2
  exact hk.congr hc'.2 hc'.1 hc.1 (fun j hj => hheader _ (hx j hj))
    (fun j hj => hgiven _ (hx j hj)) fun j hj => hlive _ (hx j hj)

theorem FullLast.congr (hL : FullLast s L)
    (hl : ∀ a ∈ L, (t.hold a).lfreeq = (s.hold a).lfreeq) : FullLast t L := by
  refine List.Pairwise.imp_of_mem (fun {a b} ha hb hab => ?_) hL
  rw [hl a ha, hl b hb]
  exact hab

/-! ## `malloc` -/

/-- The space for `holdhead` is obtained. -/
theorem Heap.Good.init {table : ℕ} (hu : u.Good o) (hs : u.mall.init o table = some s) :
    s.change = true ∧ ({ u with mall := s } : Heap).Good o := by
  unfold Mall.init at hs
  split_ifs at hs with hc ht
  · cases hs
    exact ⟨hc, hu⟩
  · cases hs
    obtain ⟨hb, hg⟩ := hu.fresh (by simpa using hc)
    refine ⟨rfl, fun h => absurd h (by simp), hu.owned, hu.aligned, hu.apart, hu.indexed, ?_,
      hu.within, ?_⟩
    · intro b hbm
      rw [show ({ u with mall := _ } : Heap).blocks = u.blocks from rfl, hb] at hbm
      cases hbm
    · intro _ i h1 h2
      refine ⟨[], ?_, fun h => ?_, List.Pairwise.nil⟩
      · show (if 1 ≤ i ∧ i < o.fastct + 1 then GROUND else u.mall.holdhead i) = GROUND
        rw [if_pos ⟨h1, Nat.lt_succ_of_le h2⟩]
      · show h ∈ [] ↔ (h, i) ∈ u.blocks
        rw [hb]
        exact iff_of_false not_mem_nil not_mem_nil

/-- The little block that is taken is one of the holding block's. -/
theorem Takes.lblk {k' : ℕ} {F' : List ℕ} (hk : HoldOk o u h i k F)
    (ht : Takes o h i k k' x F F') : ∃ j < o.numlblks, x = lblkAt h (o.size i) j := by
  rcases ht with ⟨-, hF⟩ | ⟨-, hkn, -, -, hx⟩
  · obtain ⟨j, hj, hx⟩ := hk.freed x (by rw [hF]; exact mem_cons_self)
    exact ⟨j, lt_of_lt_of_le hj hk.le, hx⟩
  · exact ⟨k, hkn, hx⟩

theorem took_hold_of_ne {q un : ℕ} (hx : x ≠ s.holdhead i) :
    (s.took i q un).hold x = s.hold x := update_of_ne hx _ _

theorem took_hold {q un : ℕ} (hh : s.holdhead i = h) :
    (s.took i q un).hold h = { s.hold h with lfreeq := q, unused := un } := by
  subst hh
  exact update_self _ _ _

theorem took_links {q un : ℕ} : nextOf (s.took i q un) = nextOf s ∧
    prevOf (s.took i q un) = prevOf s := by
  constructor
  · funext x
    by_cases hx : x = s.holdhead i
    · unfold nextOf
      rw [took_hold hx.symm]
    · unfold nextOf
      rw [took_hold_of_ne hx]
  · funext x
    by_cases hx : x = s.holdhead i
    · unfold prevOf
      rw [took_hold hx.symm]
    · unfold prevOf
      rw [took_hold_of_ne hx]

/-- The queue of the size after a little block was taken. -/
theorem queue_took {q un : ℕ} (hq : Queued s i (h :: l)) (hf : FullLast s (h :: l)) :
    ∃ L, Queued (s.took i q un) i L ∧ (∀ x, x ∈ L ↔ x ∈ h :: l) ∧ FullLast (s.took i q un) L := by
  have hh : s.holdhead i = h := hq.1
  have hnd := nodup_cons.mp hq.2.nodup
  have hf' := pairwise_cons.mp hf
  have hlfreeq : ∀ a ∈ l, ((s.took i q un).hold a).lfreeq = (s.hold a).lfreeq := by
    intro a ha
    rw [took_hold_of_ne]
    rintro rfl
    exact hnd.1 (hh ▸ ha)
  have hlast : FullLast (s.took i q un) l := FullLast.congr hf'.2 hlfreeq
  by_cases hz : q = GROUND
  · refine ⟨l ++ [h], hq.rotate took_links.1 took_links.2 ?_, fun x => ?_, ?_⟩
    · unfold Mall.took
      dsimp only
      rw [if_pos hz, update_self, hh]
    · rw [mem_append, mem_singleton, mem_cons, or_comm]
    · refine pairwise_append.mpr ⟨hlast, pairwise_singleton _ h, fun a _ b hb _ => ?_⟩
      rw [mem_singleton.mp hb, took_hold hh]
      exact hz
  · refine ⟨h :: l, hq.congr ?_ (fun x _ => congrFun took_links.1 x)
      fun x _ => congrFun took_links.2 x, fun x => Iff.rfl, pairwise_cons.mpr ⟨fun a _ h0 => ?_, hlast⟩⟩
    · unfold Mall.took
      dsimp only
      rw [if_neg hz]
    · rw [took_hold hh] at h0
      exact absurd h0 hz

/-- **A little block is taken** out of the first holding block. -/
theorem Heap.Good.took {k' : ℕ} {F' : List ℕ} (hu : u.Good o) (hc : u.mall.change = true)
    (hi : 1 ≤ i ∧ i ≤ o.fastct) (hq : Queued u.mall i (h :: l))
    (hmem : ∀ x, x ∈ h :: l ↔ (x, i) ∈ u.blocks) (hf : FullLast u.mall (h :: l))
    (hk : HoldOk o u h i k F) (ht : Takes o h i k k' (u.mall.hold h).lfreeq F F') :
    ({ u with
      mall := u.mall.took i (F'.headD (restOf o h i k'))
        (lblkAt h (o.size i) (min k' (o.numlblks - 1)))
      given := (u.mall.hold h).lfreeq :: u.given
      live := (u.mall.hold h).lfreeq :: u.live } : Heap).Good o := by
  have hh : u.mall.holdhead i = h := hq.1
  have hb : (h, i) ∈ u.blocks := (hmem h).mp mem_cons_self
  obtain ⟨m, hm, hx⟩ := ht.lblk hk
  have hother : ∀ b ∈ u.blocks, b ≠ (h, i) → b.1 ≠ h := by
    rintro ⟨h', i'⟩ hb' hne rfl
    rw [hu.index_unique hb' hb] at hne
    exact hne rfl
  refine ⟨fun h0 => absurd h0 (by rw [show (Mall.took _ _ _ _).change = _ from hc]; simp),
    fun y hy => ?_, hu.aligned, hu.apart, hu.indexed, fun b hbm => ?_, fun y hy => ?_,
    fun _ i' h1 h2 => ?_⟩
  · rcases mem_cons.mp hy with rfl | hy
    · exact mem_cons_self
    · exact mem_cons_of_mem _ (hu.owned y hy)
  · by_cases hbe : b = (h, i)
    · subst hbe
      refine ⟨k', F', hk.took ht (took_hold hh) ?_ rfl rfl⟩
      show (u.mall.took i _ _).header = _
      unfold Mall.took
      dsimp only
      rw [hh]
    · obtain ⟨k₁, F₁, hk₁⟩ := hu.hold b hbm
      have hne := hother b hbm hbe
      refine ⟨k₁, F₁, hk₁.frame (x := (u.mall.hold h).lfreeq) ?_ (fun j hj => ?_) (fun y hy => ?_)
        (fun y hy => mem_cons.trans (or_iff_right hy))
        fun y hy => mem_cons.trans (or_iff_right hy)⟩
      · exact congrArg Holdblk.core (took_hold_of_ne (by rw [hh]; exact hne))
      · rw [hx]
        exact lblkAt_ne_lblkAt (hu.apart b hbm _ hb hbe) hj hm
      · show update u.mall.header (u.mall.hold (u.mall.holdhead i)).lfreeq _ y = _
        rw [hh, update_of_ne hy]
  · rcases mem_cons.mp hy with rfl | hy
    · exact ⟨(h, i), hb, m, hm, hx⟩
    · exact hu.within y hy
  · by_cases hii : i' = i
    · subst hii
      obtain ⟨L, h3, h4, h5⟩ := queue_took hq hf
      exact ⟨L, h3, fun y => (h4 y).trans (hmem y), h5⟩
    · obtain ⟨L, h3, h4, h5⟩ := hu.queue hc i' h1 h2
      refine ⟨L, h3.congr ?_ (fun x _ => congrFun took_links.1 x)
        fun x _ => congrFun took_links.2 x, h4, h5.congr fun a ha => ?_⟩
      · show (if _ then update u.mall.holdhead i _ else u.mall.holdhead) i' = _
        split_ifs
        · rw [update_of_ne hii]
        · rfl
      · rw [took_hold_of_ne]
        rw [hh]
        refine hother (a, i') ((h4 a).mp ha) ?_
        rintro he
        exact hii (Prod.mk.inj he).2

/-- The queues after a holding block with a free little block came to the front of its own. -/
theorem Heap.Good.queue_fronted {blocks : List (ℕ × ℕ)} (hu : u.Good o)
    (hc : u.mall.change = true) (hfr : Fronted u.mall t i h L) (hfull : FullLast u.mall L)
    (hlfreeq : (t.hold h).lfreeq ≠ GROUND)
    (hL : ∀ x, x ∈ h :: L ↔ (x, i) ∈ blocks)
    (hblocks : ∀ x i', (x, i') ∈ blocks ↔ (x, i') ∈ u.blocks ∨ (x = h ∧ i' = i))
    (hh : ∀ i', (h, i') ∈ u.blocks → i' = i) {i' : ℕ} (h1 : 1 ≤ i') (h2 : i' ≤ o.fastct) :
    ∃ L', Queued t i' L' ∧ (∀ x, x ∈ L' ↔ (x, i') ∈ blocks) ∧ FullLast t L' := by
  by_cases hii : i' = i
  · subst hii
    have hnd := nodup_cons.mp hfr.queued.nodup
    refine ⟨h :: L, hfr.queued, hL, pairwise_cons.mpr ⟨fun a _ h0 => absurd h0 hlfreeq, ?_⟩⟩
    refine hfull.congr fun a ha => ?_
    exact (Prod.mk.inj (hfr.core a fun he => hnd.1 (he ▸ ha))).1
  · obtain ⟨L', h3, h4, h5⟩ := hu.queue hc i' h1 h2
    have hnot : ∀ x ∈ L', x ∉ h :: L := by
      intro x hx hxL
      have hx' := (h4 x).mp hx
      rcases (hblocks x i).mp ((hL x).mp hxL) with hxi | ⟨rfl, -⟩
      · exact hii (hu.index_unique hx' hxi)
      · exact hii (hh i' hx')
    refine ⟨L', h3.congr ?_ (fun x hx => (hfr.links x (hnot x hx)).1)
      fun x hx => (hfr.links x (hnot x hx)).2, fun x => ?_, h5.congr fun a ha => ?_⟩
    · rw [hfr.head, update_of_ne hii]
    · rw [h4 x, hblocks x i']
      exact ⟨Or.inl, fun hx => hx.resolve_right fun he => hii he.2⟩
    · exact (Prod.mk.inj (hfr.core a fun he => hnot a ha (he ▸ mem_cons_self))).1

theorem lblkAt_zero : lblkAt h n 0 = h + SPACE := by
  unfold lblkAt
  rw [Nat.zero_mul, Nat.add_zero]

/-- **A new holding block is obtained**, and its first little block taken. -/
theorem Heap.Good.newHold {mem : ℕ} (hu : u.Good o) (hc : u.mall.change = true)
    (hi : 1 ≤ i ∧ i ≤ o.fastct) (h0 : mem ≠ GROUND) (hfits : u.Fits o mem i) :
    ({ mall := (u.mall.newHold o i mem).2
       blocks := (mem, i) :: u.blocks
       given := (mem + SPACE) :: u.given
       live := (mem + SPACE) :: u.live } : Heap).Good o := by
  have hn := o.numlblks_gt
  have hsep : ∀ b ∈ u.blocks, mem + o.HOLDSZ (o.size i) ≤ b.1 ∨
      b.1 + o.HOLDSZ (o.size b.2) ≤ mem := hfits.2
  have hne : ∀ b ∈ u.blocks, b.1 ≠ mem := by
    intro b hb he
    have hp : 0 < o.HOLDSZ (o.size i) := HOLDSZ_pos
    have hp' : 0 < o.HOLDSZ (o.size b.2) := HOLDSZ_pos
    have := hsep b hb
    omega
  obtain ⟨L, hq, hmem, hfull⟩ := hu.queue hc i hi.1 hi.2
  have hnew : mem ∉ L := fun hm => hne _ ((hmem mem).mp hm) rfl
  obtain ⟨hfr, hheader, hcore⟩ := hq.newHold (o := o) hnew
    fun x hx => (hu.aligned _ ((hmem x).mp hx)).2
  obtain ⟨t, ht⟩ : ∃ t, t = (u.mall.newHold o i mem).2 := ⟨_, rfl⟩
  rw [← ht] at hfr hheader hcore ⊢
  have hc1 := Prod.mk.inj hcore
  have hc2 := Prod.mk.inj hc1.2
  have hone : mem + SPACE + o.size i = lblkAt mem (o.size i) 1 := by
    rw [← lblkAt_zero (n := o.size i), lblkAt_succ]
  have hnotgiven : ∀ j < o.numlblks, lblkAt mem (o.size i) j ∉ u.given := by
    intro j hj hg
    obtain ⟨b, hb, m, hm, he⟩ := hu.within _ hg
    exact lblkAt_ne_lblkAt (hsep b hb) hj hm he
  have hgiven : ∀ l : List ℕ, (∀ x ∈ l, x ∈ u.given) → ∀ j < o.numlblks,
      (lblkAt mem (o.size i) j ∈ (mem + SPACE) :: l ↔ j < 1) := by
    intro l hl j hj
    rw [mem_cons, ← lblkAt_zero (n := o.size i)]
    constructor
    · rintro (he | hm)
      · rw [lblkAt_inj he]
        exact Nat.one_pos
      · exact absurd (hl _ hm) (hnotgiven j hj)
    · intro hj1
      rw [Nat.lt_one_iff.mp hj1]
      exact Or.inl rfl
  refine ⟨fun h => ?_, fun y hy => ?_, fun b hb => ?_, fun a ha b hb hab => ?_, fun b hb => ?_,
    fun b hb => ?_, fun y hy => ?_, fun _ i' h1 h2 => ?_⟩
  · rw [show t.change = true from hfr.change.trans hc] at h
    cases h
  · rcases mem_cons.mp hy with rfl | hy
    · exact mem_cons_self
    · exact mem_cons_of_mem _ (hu.owned y hy)
  · rcases mem_cons.mp hb with rfl | hb
    · exact ⟨hfits.1, h0⟩
    · exact hu.aligned b hb
  · rcases mem_cons.mp ha with rfl | ha
    · rcases mem_cons.mp hb with rfl | hb
      · exact absurd rfl hab
      · exact hsep b hb
    · rcases mem_cons.mp hb with rfl | hb
      · exact (hsep a ha).symm
      · exact hu.apart a ha b hb hab
  · rcases mem_cons.mp hb with rfl | hb
    · exact hi
    · exact hu.indexed b hb
  · rcases mem_cons.mp hb with rfl | hb
    · refine ⟨1, [], Nat.one_pos, hn.le, ?_, ?_, ?_, trivial, nodup_nil,
        fun x hx => absurd hx not_mem_nil, hgiven u.given fun x hx => hx,
        fun j hj => ?_, fun j hj _ => ?_⟩
      · rw [hc2.2]
        unfold Mallopt.size
        exact Nat.add_sub_cancel _ _
      · rw [hc2.1, hone, Nat.min_eq_left (by omega)]
      · rw [hc1.1, hone, headD_nil]
        unfold restOf
        rw [if_pos hn]
      · rw [hgiven u.live hu.owned j hj]
        exact (and_iff_left not_mem_nil).symm
      · rw [hheader, Nat.lt_one_iff.mp hj, lblkAt_zero, update_self]
    · obtain ⟨k, F, hk⟩ := hu.hold b hb
      refine ⟨k, F, hk.frame (x := mem + SPACE) (hfr.core b.1 (hne b hb)) (fun j hj => ?_)
        (fun y hy => ?_) (fun y hy => mem_cons.trans (or_iff_right hy))
        fun y hy => mem_cons.trans (or_iff_right hy)⟩
      · rw [← lblkAt_zero (n := o.size i)]
        exact (lblkAt_ne_lblkAt (hsep b hb) (Nat.lt_of_succ_lt hn) hj).symm
      · show t.header y = _
        rw [hheader, update_of_ne hy]
  · rcases mem_cons.mp hy with rfl | hy
    · exact ⟨(mem, i), mem_cons_self, 0, Nat.lt_of_succ_lt hn, lblkAt_zero.symm⟩
    · obtain ⟨b, hb, j, hj, he⟩ := hu.within y hy
      exact ⟨b, mem_cons_of_mem _ hb, j, hj, he⟩
  · refine hu.queue_fronted hc hfr hfull ?_ (fun x => ?_) (fun x i' => ?_) (fun i' hi' => ?_) h1 h2
    · rw [hc1.1, hone]
      exact lblkAt_ne
    · rw [mem_cons, mem_cons, hmem x, Prod.mk.injEq]
      exact or_congr_left (and_iff_left rfl).symm
    · rw [mem_cons, Prod.mk.injEq, or_comm]
    · exact absurd rfl (hne _ hi')

/-! ## `free` -/

/-- Only which little blocks are allocated matters, not in which order. -/
theorem Heap.Good.congr_live (hu : u.Good o) (hl : ∀ x, x ∈ l ↔ x ∈ u.live) :
    ({ u with live := l } : Heap).Good o := by
  refine ⟨hu.fresh, fun x hx => hu.owned x ((hl x).mp hx), hu.aligned, hu.apart, hu.indexed,
    fun b hb => ?_, hu.within, hu.queue⟩
  obtain ⟨k, F, hk⟩ := hu.hold b hb
  exact ⟨k, F, hk.congr rfl rfl rfl (fun _ _ => rfl) (fun _ _ => Iff.rfl) fun _ _ => hl _⟩

theorem Heap.Good.free {ptr : ℕ} (hu : u.Good o) (hptr : ptr - MINHEAD ∈ u.given)
    (hs : u.mall.free o ptr = some t) :
    ({ u with
      mall := t
      live := u.live.filter fun x => x ≠ ptr - MINHEAD } : Heap).Good o := by
  obtain ⟨⟨h, i⟩, hb, j, hj, hx⟩ := hu.within _ hptr
  dsimp only at hx
  obtain ⟨k, F, hk⟩ := hu.hold _ hb
  dsimp only at hk
  have hal := (hu.aligned _ hb).1
  have hxal : ALIGNSZ ∣ lblkAt h (o.size i) j := dvd_lblkAt hal
  have hjk : j < k := by
    rw [hx, hk.given j hj] at hptr
    exact hptr
  have hp0 : ptr ≠ 0 := by
    rintro rfl
    exact absurd hx.symm lblkAt_ne
  have hc : u.mall.change = true := by
    by_contra hc
    rw [(hu.fresh (by simpa using hc)).2] at hptr
    cases hptr
  unfold Mall.free at hs
  rw [if_neg hp0] at hs
  dsimp only at hs
  rw [hx, CLRBUSY_eq hxal] at hs
  rw [hx]
  by_cases hF : lblkAt h (o.size i) j ∈ F
  · -- the block was free already
    obtain ⟨G, H, hGH⟩ := append_of_mem hF
    have hH : H ⊆ F := by
      rw [hGH]
      exact fun z hz => mem_append_right G (mem_cons_of_mem _ hz)
    have hch := hk.chain
    rw [hGH] at hch
    have hd := hk.dvd_headD hal hH
    rw [hch.header_eq, TESTSMAL_SETSMAL hd, TESTBUSY_SETSMAL hd, if_pos rfl,
      if_neg Bool.false_ne_true] at hs
    cases hs
    refine hu.congr_live fun x => ?_
    rw [mem_filter, decide_eq_true_eq]
    refine and_iff_left_of_imp ?_
    rintro hxl rfl
    exact ((hk.live j hj).mp hxl).2 hF
  · rw [hk.busy j hjk hF, TESTSMAL_SETALL hal, TESTBUSY_SETALL hal, CLRALL_SETALL hal,
      if_pos rfl, if_pos rfl] at hs
    obtain ⟨w, hw⟩ : ∃ w, w = (u.mall.setHeader (lblkAt h (o.size i) j)
        (SETSMAL (u.mall.hold h).lfreeq)).setHold h fun x =>
        { x with lfreeq := lblkAt h (o.size i) j } := ⟨_, rfl⟩
    rw [← hw] at hs
    have hwh : w.hold h = { u.mall.hold h with lfreeq := lblkAt h (o.size i) j } := by
      rw [hw]
      exact update_self _ _ _
    have hwne : ∀ x, x ≠ h → w.hold x = u.mall.hold x := by
      intro x hxh
      rw [hw]
      exact update_of_ne hxh _ _
    have hlinks : ∀ x, nextOf w x = nextOf u.mall x ∧ prevOf w x = prevOf u.mall x := by
      intro x
      unfold nextOf prevOf
      by_cases hxh : x = h
      · rw [hxh, hwh]
        exact ⟨rfl, rfl⟩
      · rw [hwne x hxh]
        exact ⟨rfl, rfl⟩
    have hi : 1 ≤ i ∧ i ≤ o.fastct := hu.indexed _ hb
    obtain ⟨L, hq, hmem, hfull⟩ := hu.queue hc i hi.1 hi.2
    obtain ⟨l₁, l₂, rfl⟩ := append_of_mem ((hmem h).mpr hb)
    have hqw : Queued w i (l₁ ++ h :: l₂) :=
      hq.congr (by rw [hw]; rfl) (fun x _ => (hlinks x).1) fun x _ => (hlinks x).2
    have hblksz : (w.hold h).blksz / o.grain = i := by
      rw [hwh]
      dsimp only
      rw [hk.blksz, Nat.mul_div_cancel i o.grain_pos]
    obtain ⟨hfr, hheader, hcore⟩ := hqw.moveFront hblksz
    cases hs
    obtain ⟨t, ht⟩ : ∃ t, t = w.moveFront o h := ⟨_, rfl⟩
    rw [← ht] at hfr hheader hcore ⊢
    rw [hwh] at hcore
    have hc1 := Prod.mk.inj hcore
    have hc2 := Prod.mk.inj hc1.2
    have hheader' : t.header = update u.mall.header (lblkAt h (o.size i) j)
        (SETSMAL (u.mall.hold h).lfreeq) := by
      rw [hheader, hw]
      rfl
    have hfr' : Fronted u.mall t i h (l₁ ++ l₂) := by
      refine ⟨?_, ?_, fun x hxh => ?_, hfr.queued, fun x hxL => ?_⟩
      · rw [hfr.change, hw]
        rfl
      · rw [hfr.head, hw]
        rfl
      · rw [hfr.core x hxh, hwne x hxh]
      · rw [(hfr.links x hxL).1, (hfr.links x hxL).2]
        exact hlinks x
    have hlive : ∀ x, x ≠ lblkAt h (o.size i) j →
        (x ∈ u.live.filter (fun x => x ≠ lblkAt h (o.size i) j) ↔ x ∈ u.live) := by
      intro x hxne
      rw [mem_filter, decide_eq_true_eq]
      exact and_iff_left hxne
    refine ⟨fun h => ?_, fun y hy => hu.owned y (mem_of_mem_filter hy), hu.aligned, hu.apart,
      hu.indexed, fun b hbm => ?_, hu.within, fun _ i' h1 h2 => ?_⟩
    · rw [show t.change = true from hfr'.change.trans hc] at h
      cases h
    · by_cases hbe : b = (h, i)
      · subst hbe
        exact ⟨k, _, hk.put hjk hF hc2.2 hc2.1 hc1.1 hheader' rfl rfl⟩
      · obtain ⟨k₁, F₁, hk₁⟩ := hu.hold b hbm
        have hne : b.1 ≠ h := by
          rintro rfl
          exact hbe (Prod.ext rfl (hu.index_unique (by exact hbm) hb))
        refine ⟨k₁, F₁, hk₁.frame (x := lblkAt h (o.size i) j) (hfr'.core b.1 hne)
          (fun m hm => lblkAt_ne_lblkAt (hu.apart b hbm _ hb hbe) hm hj) (fun y hy => ?_)
          (fun _ _ => Iff.rfl) hlive⟩
        show t.header y = _
        rw [hheader', update_of_ne hy]
    · refine hu.queue_fronted hc hfr' ?_ ?_ (fun x => ?_) (fun x i' => ?_)
        (fun i' hi' => hu.index_unique hi' hb) h1 h2
      · exact List.Pairwise.sublist (List.Sublist.append_left (sublist_cons_self h l₂) l₁) hfull
      · rw [hc1.1]
        exact lblkAt_ne
      · rw [← hmem x]
        simp only [mem_cons, mem_append]
        tauto
      · refine ⟨Or.inl, ?_⟩
        rintro (hxb | ⟨rfl, rfl⟩)
        · exact hxb
        · exact hb

/-! ## Runs -/

theorem Mall.hasSpace_iff : s.hasSpace i = true ↔
    s.holdhead i ≠ GROUND ∧ (s.hold (s.holdhead i)).lfreeq ≠ GROUND := by
  unfold hasSpace
  rw [decide_eq_true_eq]

/-- A little block is looked for in the holding blocks there are. -/
theorem Heap.Good.takeLblk {w : Mall} {r : ℕ} (hu : u.Good o) (hc : u.mall.change = true)
    (hi : 1 ≤ i ∧ i ≤ o.fastct) (hsp : u.mall.hasSpace i = true)
    (hlast : (u.mall.hold (u.mall.holdhead i)).lfreeq =
      lblkAt (u.mall.holdhead i) (o.size i) (o.numlblks - 1) →
      ∀ j < o.numlblks - 1, lblkAt (u.mall.holdhead i) (o.size i) j ∈ u.live)
    (hw : u.mall.takeLblk o i = (r, w)) :
    r ≠ GROUND ∧ ({ u with
      mall := w
      given := (r - MINHEAD) :: u.given
      live := (r - MINHEAD) :: u.live } : Heap).Good o := by
  obtain ⟨h0, h1⟩ := Mall.hasSpace_iff.mp hsp
  obtain ⟨L, hq, hmem, hfull⟩ := hu.queue hc i hi.1 hi.2
  cases L with
  | nil => exact absurd hq h0
  | cons h l =>
    have hh : u.mall.holdhead i = h := hq.1
    rw [hh] at h1 hlast
    have hb := (hmem h).mp mem_cons_self
    obtain ⟨k, F, hk⟩ := hu.hold _ hb
    obtain ⟨k', F', htk, heq⟩ := takeLblk_spec hk hh (hu.aligned _ hb).1 h1 hlast
    rw [heq] at hw
    obtain ⟨rfl, rfl⟩ := Prod.mk.inj hw
    rw [Nat.add_sub_cancel]
    exact ⟨Nat.succ_ne_zero _, hu.took hc hi hq hmem hfull hk htk⟩

/-- What one call keeps. -/
theorem Heap.Good.step {e : HeapEvent} (hu : u.Good o) (hC : ¬ u.Leaks o e)
    (hs : u.step o e = some v) : v.Good o := by
  cases e with
  | malloc nbytes table mem =>
    unfold Heap.step at hs
    dsimp only at hs
    obtain ⟨⟨hmax, hfits⟩, hs⟩ := ite_none_right_eq_some.mp hs
    obtain ⟨⟨r, t⟩, hm, rfl⟩ := map_eq_some_iff.mp hs
    unfold Mall.malloc at hm
    split_ifs at hm with hn
    · cases hm
      exact hu
    obtain ⟨s, hinit, hsm⟩ := map_eq_some_iff.mp hm
    have hi := index_range hn hmax
    obtain ⟨hc, hg⟩ := hu.init hinit
    rw [hinit, any_some]
    unfold Mall.smallblk at hsm
    dsimp only at hsm ⊢
    by_cases hsp : s.hasSpace (o.index nbytes) = true
    · rw [if_pos hsp] at hsm
      have hsu : s = u.mall := by
        unfold Mall.init at hinit
        split_ifs at hinit with hch
        · cases hinit
          rfl
        · cases hinit
          refine absurd ?_ (Mall.hasSpace_iff.mp hsp).1
          exact if_pos ⟨hi.1, Nat.lt_succ_of_le hi.2⟩
      subst hsu
      obtain ⟨hr, hgood⟩ := hg.takeLblk hc hi hsp (fun he j hj => by
        by_contra hlive
        exact hC ⟨hn, hc, hsp, he, j, hj, hlive⟩) hsm
      rw [if_neg hr, hsp, if_pos rfl]
      exact hgood
    · rw [if_neg hsp] at hsm
      by_cases h0 : mem = GROUND
      · rw [if_pos h0] at hsm
        cases hsm
        exact hg
      · rw [if_neg h0] at hsm
        have hgood := hg.newHold hc hi h0 (hfits h0)
        have hr : r = mem + SPACE + MINHEAD := (congrArg Prod.fst hsm).symm
        have ht : (s.newHold o (o.index nbytes) mem).2 = t := congrArg Prod.snd hsm
        rw [if_neg (by rw [hr]; exact Nat.succ_ne_zero _), if_neg hsp, hr, Nat.add_sub_cancel, ← ht]
        exact hgood
  | free ptr =>
    unfold Heap.step at hs
    dsimp only at hs
    obtain ⟨hptr, hs⟩ := ite_none_right_eq_some.mp hs
    obtain ⟨t, ht, rfl⟩ := map_eq_some_iff.mp hs
    by_cases h0 : ptr = 0
    · unfold Mall.free at ht
      rw [if_pos h0] at ht
      cases ht
      refine hu.congr_live fun x => ?_
      rw [mem_filter, decide_eq_true_eq, h0]
      refine and_iff_left_of_imp ?_
      rintro hx rfl
      obtain ⟨b, -, j, -, he⟩ := hu.within _ (hu.owned _ hx)
      exact lblkAt_ne he.symm
    · exact hu.free (hptr.resolve_left h0) ht

theorem good_start (hs : s.change = false) : (Heap.start s).Good o := by
  refine ⟨fun _ => ⟨rfl, rfl⟩, ?_, ?_, ?_, ?_, ?_, ?_, fun h => ?_⟩
  · exact fun x hx => absurd hx not_mem_nil
  · exact fun b hb => absurd hb not_mem_nil
  · exact fun b hb => absurd hb not_mem_nil
  · exact fun b hb => absurd hb not_mem_nil
  · exact fun b hb => absurd hb not_mem_nil
  · exact fun x hx => absurd hx not_mem_nil
  · rw [show (Heap.start s).mall.change = false from hs] at h
    cases h

/-- A holding block is full when all its little blocks are allocated. -/
def Heap.Full (o : Mallopt) (u : Heap) (h i : ℕ) : Prop :=
  ∀ j < o.numlblks, lblkAt h (o.size i) j ∈ u.live

theorem Heap.Good.full_iff (hu : u.Good o) (hb : (h, i) ∈ u.blocks) :
    (u.mall.hold h).lfreeq = GROUND ↔ u.Full o h i := by
  obtain ⟨k, F, hk⟩ := hu.hold _ hb
  exact hk.full_iff

/-- **Small blocks are not leaked.**  After any calls of `malloc` and `free` of small sizes of which
none takes the last little block of a holding block while another one of it is free: the little
blocks that can be reached from `lfreeq`, and those from `unused` on if that one was never handed
out, are exactly the ones that are not allocated; in the queue of a size, which runs through the
holding blocks of that size from `holdhead` on, none comes after a full one unless it is full; and
when the first one has no space, all are full. -/
theorem small_blocks {es : List HeapEvent} (hs : s.change = false)
    (hC : StepsMeet (fun u e => ¬ u.Leaks o e) (Heap.step o) (Heap.start s) es)
    (hrun : exec (Heap.step o) (Heap.start s) es = some u) :
    (∀ h i, (h, i) ∈ u.blocks → ∀ j < o.numlblks,
      ((Reaches u h (lblkAt h (o.size i) j) ∨
        ((u.mall.hold h).unused ≤ lblkAt h (o.size i) j ∧ (u.mall.hold h).unused ∉ u.given)) ↔
      lblkAt h (o.size i) j ∉ u.live)) ∧
    (u.mall.change = true → ∀ i, 1 ≤ i → i ≤ o.fastct →
      (∃ L, Queued u.mall i L ∧ (∀ h, h ∈ L ↔ (h, i) ∈ u.blocks) ∧
        L.Pairwise fun a b => u.Full o a i → u.Full o b i) ∧
      (u.mall.hasSpace i = false → ∀ h, (h, i) ∈ u.blocks → u.Full o h i)) := by
  have hg : u.Good o :=
    exec_invariant (P := fun u => u.Good o) (fun _ _ _ hu he ht => hu.step he ht) (good_start hs)
      hC hrun
  refine ⟨fun h i hb j hj => ?_, fun hc i h1 h2 => ?_⟩
  · obtain ⟨k, F, hk⟩ := hg.hold _ hb
    exact hk.reaches (hg.aligned _ hb).1 hj
  · obtain ⟨L, hq, hmem, hfull⟩ := hg.queue hc i h1 h2
    refine ⟨⟨L, hq, hmem, ?_⟩, fun hsp h hb => ?_⟩
    · refine List.Pairwise.imp_of_mem (fun {a b} ha hb hab => ?_) hfull
      rw [← hg.full_iff ((hmem a).mp ha), ← hg.full_iff ((hmem b).mp hb)]
      exact hab
    · rw [← hg.full_iff hb]
      cases L with
      | nil => exact absurd ((hmem h).mpr hb) not_mem_nil
      | cons a l =>
        have ha : u.mall.holdhead i = a := hq.1
        have hba := (hmem a).mp mem_cons_self
        have hlf : (u.mall.hold a).lfreeq = GROUND := by
          by_contra hne
          rw [← Bool.not_eq_true, Mall.hasSpace_iff, ha] at hsp
          exact hsp ⟨(hg.aligned _ hba).2, hne⟩
        rcases mem_cons.mp ((hmem h).mpr hb) with rfl | hl
        · exact hlf
        · exact (pairwise_cons.mp hfull).1 h hl hlf

/-- Two small blocks, both freed, and one of them allocated again. -/
theorem small_blocks_run : ∃ u, exec (Heap.step Mallopt.initial)
      (Heap.start ⟨false, fun _ => 0, fun _ => ⟨0, 0, 0, 0, 0⟩, fun _ => 0⟩)
      [.malloc 8 8 4096, .malloc 5 0 0, .free 4128, .free 4144, .malloc 8 0 0] = some u ∧
    (u.mall.change = true → ∃ L, Queued u.mall 1 L ∧ ∀ h, h ∈ L ↔ (h, 1) ∈ u.blocks) := by
  obtain ⟨u, hu⟩ := isSome_iff_exists.mp (by decide : (exec (Heap.step Mallopt.initial)
    (Heap.start ⟨false, fun _ => 0, fun _ => ⟨0, 0, 0, 0, 0⟩, fun _ => 0⟩)
    [.malloc 8 8 4096, .malloc 5 0 0, .free 4128, .free 4144, .malloc 8 0 0]).isSome = true)
  refine ⟨u, hu, fun hc => ?_⟩
  have hmeet := stepsMeet_of_allSteps (C := fun u e => ¬ Heap.Leaks Mallopt.initial u e)
    (c := fun u e => !decide (Heap.Leaks Mallopt.initial u e)) (fun s e he => by simpa using he)
    (by decide : allSteps (fun u e => !decide (Heap.Leaks Mallopt.initial u e))
      (Heap.step Mallopt.initial)
      (Heap.start ⟨false, fun _ => 0, fun _ => ⟨0, 0, 0, 0, 0⟩, fun _ => 0⟩)
      [.malloc 8 8 4096, .malloc 5 0 0, .free 4128, .free 4144, .malloc 8 0 0] = true)
  obtain ⟨⟨L, hq, hL, -⟩, -⟩ := (small_blocks rfl hmeet hu).2 hc 1 (by decide) (by decide)
  exact ⟨L, hq, hL⟩

/-! ## The last little block -/

/-- Nothing can be reached from an empty list. -/
theorem not_reaches (h0 : (u.mall.hold h).lfreeq = GROUND) : ¬ Reaches u h x := by
  intro hr
  induction hr with
  | lfreeq hne => exact hne h0
  | next _ _ _ ih => exact ih

/-- **Otherwise a little block is lost.**  After such calls the last little block of a holding block
is taken while another one is free: that one is not allocated afterwards, and it can not be
reached. -/
theorem small_block_lost {es : List HeapEvent} {e : HeapEvent} (hs : s.change = false)
    (hC : StepsMeet (fun u e => ¬ u.Leaks o e) (Heap.step o) (Heap.start s) es)
    (hrun : exec (Heap.step o) (Heap.start s) es = some u) (hleak : u.Leaks o e)
    (hstep : u.step o e = some v) :
    ∃ h i, (h, i) ∈ v.blocks ∧ ∃ j < o.numlblks, lblkAt h (o.size i) j ∉ v.live ∧
      ¬ (Reaches v h (lblkAt h (o.size i) j) ∨
        ((v.mall.hold h).unused ≤ lblkAt h (o.size i) j ∧ (v.mall.hold h).unused ∉ v.given)) := by
  have hu : u.Good o :=
    exec_invariant (P := fun u => u.Good o) (fun _ _ _ hu he ht => hu.step he ht) (good_start hs)
      hC hrun
  have hn1 := o.numlblks_gt
  cases e with
  | free => exact hleak.elim
  | malloc nbytes table mem => ?_
  obtain ⟨hn, hc, hsp, hlast, j, hj, hjl⟩ := hleak
  unfold Heap.step at hstep
  dsimp only at hstep
  obtain ⟨⟨hmax, -⟩, hstep⟩ := ite_none_right_eq_some.mp hstep
  obtain ⟨⟨r, t⟩, hm, rfl⟩ := map_eq_some_iff.mp hstep
  have hinit : u.mall.init o table = some u.mall := by
    unfold Mall.init
    rw [if_pos hc]
  unfold Mall.malloc at hm
  rw [if_neg hn, hinit, map_some] at hm
  have hsm := Option.some.inj hm
  unfold Mall.smallblk at hsm
  dsimp only at hsm
  rw [if_pos hsp] at hsm
  have hi := index_range hn hmax
  obtain ⟨i, hie⟩ : ∃ i, i = o.index nbytes := ⟨_, rfl⟩
  rw [← hie] at hi hsp hlast hjl hsm
  obtain ⟨h, hh⟩ : ∃ h, h = u.mall.holdhead i := ⟨_, rfl⟩
  rw [← hh] at hlast hjl
  obtain ⟨L, hq, hmem, -⟩ := hu.queue hc i hi.1 hi.2
  have hb : (h, i) ∈ u.blocks := by
    cases L with
    | nil => exact absurd hq (Mall.hasSpace_iff.mp hsp).1
    | cons a l =>
      rw [hh, hq.1]
      exact (hmem a).mp mem_cons_self
  obtain ⟨k, F, hk⟩ := hu.hold _ hb
  dsimp only at hk
  have hjF : j < k → lblkAt h (o.size i) j ∈ F := fun hjk => by
    by_contra hF
    exact hjl ((hk.live j (by omega)).mpr ⟨hjk, hF⟩)
  have hun : (u.mall.hold h).unused = lblkAt h (o.size i) (o.numlblks - 1) := by
    rcases hk.lfreeq_ge (by rw [hlast]; exact lblkAt_ne) (by
      rw [hlast, hk.unused, lblkAt_le]
      omega) with ⟨hF, hkn, hl⟩ | ⟨hkn, -, -⟩
    · rw [hlast] at hl
      have hk1 := lblkAt_inj hl
      have := hjF (by omega)
      rw [hF] at this
      cases this
    · rw [hk.unused, Nat.min_eq_right (by omega)]
  have hlt : ¬ (u.mall.hold h).lfreeq < (u.mall.hold h).unused := by
    rw [hlast, hun]
    exact lt_irrefl _
  have hend : ¬ (u.mall.hold h).unused + o.size i < h + o.HOLDSZ (o.size i) := by
    rw [hun, lblkAt_succ, ← lblkAt_numlblks, lblkAt_lt]
    omega
  unfold Mall.takeLblk at hsm
  dsimp only at hsm
  rw [← hh, if_neg hlt, if_neg hend] at hsm
  obtain ⟨hr, ht⟩ := Prod.mk.inj hsm
  have hth : t.hold h = { u.mall.hold h with lfreeq := GROUND } := by
    rw [← ht]
    exact update_self _ _ _
  rw [if_neg (by rw [← hr]; exact Nat.succ_ne_zero _), hinit, any_some, ← hie, hsp,
    if_pos rfl, ← hr, Nat.add_sub_cancel]
  refine ⟨h, i, hb, j, by omega, ?_, ?_⟩
  · rw [mem_cons, not_or, hlast]
    refine ⟨fun he => ?_, hjl⟩
    have := lblkAt_inj he
    omega
  · rintro (hre | ⟨hge, -⟩)
    · refine not_reaches ?_ hre
      show (t.hold h).lfreeq = _
      rw [hth]
    · have hle : (t.hold h).unused ≤ lblkAt h (o.size i) j := hge
      rw [hth] at hle
      dsimp only at hle
      rw [hun, lblkAt_le] at hle
      omega

/-- All hundred blocks of 8 bytes of a holding block are allocated, the first and then the last one
are freed, and one is allocated. -/
def firstThenLast : List HeapEvent :=
  .malloc 8 8 4096 :: List.replicate 99 (.malloc 8 0 0) ++
    [.free (lblkAt 4096 16 0 + MINHEAD), .free (lblkAt 4096 16 99 + MINHEAD), .malloc 8 0 0]

/-- The last of these calls. -/
theorem small_block_lost_last : ∃ v : Heap, ∃ h i, (h, i) ∈ v.blocks ∧
    ∃ j < 100, lblkAt h (Mallopt.initial.size i) j ∉ v.live ∧
      ¬ Reaches v h (lblkAt h (Mallopt.initial.size i) j) := by
  have hrun : (exec (Heap.step Mallopt.initial)
      (Heap.start ⟨false, fun _ => 0, fun _ => ⟨0, 0, 0, 0, 0⟩, fun _ => 0⟩)
      firstThenLast.dropLast).any (fun u => decide (u.Leaks Mallopt.initial (.malloc 8 0 0)) &&
        (u.step Mallopt.initial (.malloc 8 0 0)).isSome) = true := by
    decide +kernel
  obtain ⟨u, hu, h⟩ := (any_eq_true _ _).mp hrun
  rw [Bool.and_eq_true, decide_eq_true_eq] at h
  obtain ⟨v, hv⟩ := isSome_iff_exists.mp h.2
  obtain ⟨h, i, hb, j, hj, hjl, hr⟩ := small_block_lost rfl
    (stepsMeet_of_allSteps (C := fun u e => ¬ Heap.Leaks Mallopt.initial u e)
      (c := fun u e => !decide (Heap.Leaks Mallopt.initial u e)) (fun s e he => by simpa using he)
      (by decide +kernel)) hu h.1 hv
  exact ⟨v, h, i, hb, j, hj, hjl, fun h => hr (.inl h)⟩

/-- The first little block is free then; it can not be reached and comes before `unused`, and the
next `malloc` takes a new holding block. -/
theorem small_block_lost_run : ∃ u v, exec (Heap.step Mallopt.initial)
      (Heap.start ⟨false, fun _ => 0, fun _ => ⟨0, 0, 0, 0, 0⟩, fun _ => 0⟩) firstThenLast = some u ∧
    (4096, 1) ∈ u.blocks ∧ lblkAt 4096 16 0 ∉ u.live ∧
    ¬ (Reaches u 4096 (lblkAt 4096 16 0) ∨ (u.mall.hold 4096).unused ≤ lblkAt 4096 16 0) ∧
    u.step Mallopt.initial (.malloc 8 0 8192) = some v ∧ v.blocks = [(8192, 1), (4096, 1)] ∧
    lblkAt 4096 16 0 ∉ v.live := by
  have hrun : (exec (Heap.step Mallopt.initial)
      (Heap.start ⟨false, fun _ => 0, fun _ => ⟨0, 0, 0, 0, 0⟩, fun _ => 0⟩) firstThenLast).any
      (fun u => decide ((4096, 1) ∈ u.blocks ∧ lblkAt 4096 16 0 ∉ u.live ∧
        (u.mall.hold 4096).lfreeq = GROUND ∧ lblkAt 4096 16 0 < (u.mall.hold 4096).unused) &&
        (u.step Mallopt.initial (.malloc 8 0 8192)).any fun v =>
          decide (v.blocks = [(8192, 1), (4096, 1)] ∧ lblkAt 4096 16 0 ∉ v.live)) = true := by
    decide +kernel
  obtain ⟨u, hu, h⟩ := (any_eq_true _ _).mp hrun
  rw [Bool.and_eq_true, decide_eq_true_eq] at h
  obtain ⟨⟨hb, hfree, h0, hlt⟩, h⟩ := h
  obtain ⟨v, hv, h⟩ := (any_eq_true _ _).mp h
  have hv' := of_decide_eq_true h
  refine ⟨u, v, hu, hb, hfree, ?_, hv, hv'⟩
  rintro (hr | hle)
  · exact not_reaches h0 hr
  · exact absurd hlt (Nat.not_lt.mpr hle)

end Libc
