import OpusSysV.Fs.S5Bmap
import Mathlib.Tactic.Ring

/-!
# What `s5bmap` keeps: the blocks of a file are a tree

The thirteen addresses of an inode are the roots of trees of depth 0, 1, 2 and 3, and the place
of a block of the file is read off its number (`DataVol.place`).

* `Tree` — no block is at two places, the blocks in the trees are those that `s5alloc` gave,
  and no free block is one of them.
* `Grows` — the trees only get new blocks, on the way to one place.
* `block_reach`, `s5bmap_cases` — what a call of `s5bmap` finds, and that it keeps both.
* `s5bmap_map` — as a map from the 1K units of a file to buffers of the device.
-/

namespace Fs

open Lib Function List Option

/-! ## Shifts and masks -/

namespace DataVol

variable {fs : DataVol}

theorem bsize_eq (hbs : 1024 ≤ fs.bsize) : ∃ k ≤ 3, fs.bsize = 2 ^ (10 + k) := by
  have h := fs.bsize_mem
  simp only [mem_cons, not_mem_nil, or_false] at h
  rcases h with h | h | h | h | h
  · omega
  · exact ⟨0, by omega, h⟩
  · exact ⟨1, by omega, h⟩
  · exact ⟨2, by omega, h⟩
  · exact ⟨3, by omega, h⟩

theorem nbuf_eq {k : ℕ} (h : fs.bsize = 2 ^ (10 + k)) : fs.bsize / 1024 = 2 ^ k := by
  rw [h, Nat.pow_add]
  exact Nat.mul_div_cancel_left _ (by norm_num)

theorem div_bsize (hbs : 1024 ≤ fs.bsize) (o : ℕ) :
    o / fs.bsize = o / 1024 / (fs.bsize / 1024) := by
  obtain ⟨k, -, hk⟩ := bsize_eq hbs
  rw [nbuf_eq hk, hk, Nat.pow_add, Nat.div_div_eq_div_mul]

theorem nbuf_pos (hbs : 1024 ≤ fs.bsize) : 0 < fs.bsize / 1024 := Nat.div_pos hbs (by norm_num)

theorem nindir_eq_two_pow {k : ℕ} (h : fs.bsize = 2 ^ (10 + k)) : fs.FsNINDIR = 2 ^ (8 + k) := by
  rw [FsNINDIR, h, show 10 + k = 2 + (8 + k) by omega, Nat.pow_add]
  exact Nat.mul_div_cancel_left _ (by norm_num)

theorem nindir_eq (hbs : 1024 ≤ fs.bsize) : fs.FsNINDIR = 256 * (fs.bsize / 1024) := by
  obtain ⟨k, -, hk⟩ := bsize_eq hbs
  rw [nindir_eq_two_pow hk, nbuf_eq hk, Nat.pow_add]

theorem nindir_pos (hbs : 1024 ≤ fs.bsize) : 0 < fs.FsNINDIR := by
  have := nbuf_pos hbs
  rw [nindir_eq hbs]
  omega

theorem nindir_eq_shift (hbs : 1024 ≤ fs.bsize) : fs.FsNINDIR = 2 ^ fs.FsNSHIFT := by
  obtain ⟨k, -, hk⟩ := bsize_eq hbs
  have h : fs.bsize / 4 = 2 ^ (8 + k) := nindir_eq_two_pow hk
  rw [FsNSHIFT, FsNINDIR, h, Nat.log2_two_pow]

theorem and_nmask (hbs : 1024 ≤ fs.bsize) (x : ℕ) : x &&& fs.FsNMASK = x % fs.FsNINDIR := by
  have h := nindir_eq_shift hbs
  rw [h, ← Nat.and_two_pow_sub_one_eq_mod, ← h]
  rfl

theorem shiftRight_bshift (hbs : 1024 ≤ fs.bsize) (x : ℕ) : x >>> fs.FsBSHIFT = x / fs.bsize := by
  obtain ⟨k, -, hk⟩ := bsize_eq hbs
  rw [FsBSHIFT, hk, Nat.log2_two_pow, Nat.shiftRight_eq_div_pow]

theorem and_nbuf (hbs : 1024 ≤ fs.bsize) (x : ℕ) :
    x &&& (fs.bsize / 1024 - 1) = x % (fs.bsize / 1024) := by
  obtain ⟨k, -, hk⟩ := bsize_eq hbs
  rw [nbuf_eq hk, Nat.and_two_pow_sub_one_eq_mod]

theorem ptol_ltopblk (hbs : 1024 ≤ fs.bsize) (bno : ℕ) :
    fs.FsPTOL (fs.LTOPBLK (bno * (fs.bsize / 1024)) / (fs.bsize / 1024)) = bno := by
  have hpos := nbuf_pos hbs
  have hl : fs.LTOPBLK (bno * (fs.bsize / 1024)) = bno * 2 * (fs.bsize / 1024) := by
    rw [LTOPBLK, Ilist.FsBSIZE, if_neg (by omega)]
    show bno * (fs.bsize / 1024) * 2 = _
    rw [Nat.mul_right_comm]
  rw [hl, Nat.mul_div_cancel _ hpos, FsPTOL, if_pos (by simpa [Ilist.FsLRG] using hbs),
    Nat.shiftRight_eq_div_pow]
  omega

end DataVol

/-- The levels of indirect blocks under an address of the inode. -/
def depth (t : ℕ) : ℕ := t - (NADDR - 4)

/-- The address of an inode that a block of the file is under, and its place there. -/
def DataVol.place (fs : DataVol) (bn : ℕ) : Option (ℕ × List ℕ) :=
  if bn < NADDR - 3 then some (bn, [])
  else (S5File.levels fs.FsNSHIFT 3 0 1 (bn - (NADDR - 3))).map fun x =>
    (NADDR - x.1, Radix.index fs.FsNINDIR (4 - x.1) x.2.2)

namespace S5File

variable {fs : DataVol} {s s' : S5File} {b i n t : ℕ} {p q : List ℕ}

/-- The entries of an indirect block. -/
def ent (fs : DataVol) (s : S5File) (b i : ℕ) : ℕ :=
  s.buf (b * (fs.bsize / 1024) + i / 256) (i % 256)

/-- The block at a place under an address of the inode. -/
def blockAt (fs : DataVol) (s : S5File) (t : ℕ) (p : List ℕ) : ℕ :=
  Radix.node s.addr (s.ent fs) t p

/-! ## `newBlock` -/

theorem clear_eq (n c : ℕ) (s : S5File) : s.clear n c =
    { s with buf := fun b => if c ≤ b ∧ b < c + n then fun _ => 0 else s.buf b } := by
  induction n generalizing c s with
  | zero =>
    have h : ∀ b, ¬ (c ≤ b ∧ b < c + 0) := by omega
    simp only [clear, h, if_false]
  | succ n ih =>
    rw [clear, ih]
    congr 1
    funext b
    by_cases hb : b = c
    · rw [if_neg (by omega), if_pos (by omega), hb]
      exact update_self ..
    · dsimp only
      rw [update_of_ne hb]
      split
      · rw [if_pos (by omega)]
      · rw [if_neg (by omega)]

/-- An inode and its device with the block `v` taken from the free blocks. -/
def grab (fs : DataVol) (s : S5File) (v : ℕ) (rest : List ℕ) : S5File :=
  { s with
    free := rest
    buf := fun b => if b / (fs.bsize / 1024) = v then fun _ => 0 else s.buf b
    taken := (v, v * (fs.bsize / 1024)) :: s.taken }

/-- What `newBlock` does: it fails, or it takes the first free block that is not bad. -/
theorem newBlock_cases (hbs : 1024 ≤ fs.bsize) (s : S5File) :
    s.newBlock fs = none ∨ ∃ skipped v rest, s.free = skipped ++ v :: rest ∧
      fs.s5badblock v = false ∧ s.newBlock fs = some (v, s.grab fs v rest) := by
  have hpos := DataVol.nbuf_pos hbs
  cases hd : s.free.dropWhile fs.s5badblock with
  | nil => exact .inl (by rw [newBlock, s5alloc, hd])
  | cons v rest =>
    right
    refine ⟨s.free.takeWhile fs.s5badblock, v, rest, ?_, ?_, ?_⟩
    · rw [← hd, takeWhile_append_dropWhile]
    · have h := head_dropWhile_not fs.s5badblock (l := s.free) (by rw [hd]; simp)
      simpa [hd] using h
    · rw [newBlock, s5alloc, hd]
      have hnb : (if fs.bsize > 1024
            then fs.FsPTOL (fs.LTOPBLK (v * (fs.bsize / 1024)) / (fs.bsize / 1024))
            else fs.FsPTOL (fs.LTOPBLK (v * (fs.bsize / 1024)))) = v := by
        by_cases h : fs.bsize > 1024
        · rw [if_pos h, DataVol.ptol_ltopblk hbs]
        · have h1 := DataVol.ptol_ltopblk hbs v
          have heq : fs.bsize = 1024 := by omega
          rw [if_neg h]
          rw [heq] at h1 ⊢
          simpa using h1
      have hclr : v * fs.bsize / 1024 = v * (fs.bsize / 1024) := by
        obtain ⟨k, -, hk⟩ := DataVol.bsize_eq hbs
        have h10 : fs.bsize = 1024 * (fs.bsize / 1024) := by
          rw [DataVol.nbuf_eq hk, hk, Nat.pow_add]
        rw [h10, Nat.mul_left_comm, Nat.mul_div_cancel_left _ (by norm_num),
          Nat.mul_div_cancel_left _ (by norm_num)]
      dsimp only
      rw [hnb, hclr, clear_eq]
      simp only [grab]
      congr 3
      funext b
      by_cases hb : b / (fs.bsize / 1024) = v
      · rw [if_pos hb]
        have h1 := Nat.div_mul_le_self b (fs.bsize / 1024)
        have h2 := Nat.lt_div_mul_add (a := b) hpos
        rw [hb] at h1 h2
        by_cases h0 : b = v * (fs.bsize / 1024)
        · rw [if_neg (by omega), h0, update_self]
        · rw [if_pos (by omega)]
      · rw [if_neg hb, if_neg, update_of_ne]
        · rintro rfl
          exact hb (Nat.mul_div_cancel _ hpos)
        · rintro ⟨h1, h2⟩
          refine hb ((Nat.div_eq_iff hpos).mpr ⟨by omega, ?_⟩)
          omega

/-- Which buffer an entry is in. -/
theorem ent_buf (hbs : 1024 ≤ fs.bsize) (hi : i < fs.FsNINDIR) :
    (b * (fs.bsize / 1024) + i / 256) / (fs.bsize / 1024) = b := by
  have hpos := DataVol.nbuf_pos hbs
  rw [DataVol.nindir_eq hbs] at hi
  rw [Nat.mul_comm, Nat.mul_add_div hpos, Nat.div_eq_of_lt (Nat.div_lt_of_lt_mul hi), Nat.add_zero]

theorem ent_grab (hbs : 1024 ≤ fs.bsize) {v : ℕ} {rest : List ℕ} (hi : i < fs.FsNINDIR) :
    (s.grab fs v rest).ent fs b i = if b = v then 0 else s.ent fs b i := by
  unfold ent grab
  dsimp only
  rw [ent_buf hbs hi]
  split
  · rfl
  · rfl

/-- The store `bap[i] = nb`. -/
def setEnt (fs : DataVol) (s : S5File) (b i nb : ℕ) : S5File :=
  { s with
    buf := update s.buf (b * (fs.bsize / 1024) + i / 256)
      (update (s.buf (b * (fs.bsize / 1024) + i / 256)) (i % 256) nb) }

theorem ent_setEnt (hbs : 1024 ≤ fs.bsize) {b' j nb : ℕ} (hi : i < fs.FsNINDIR)
    (hj : j < fs.FsNINDIR) :
    (s.setEnt fs b i nb).ent fs b' j = if b' = b ∧ j = i then nb else s.ent fs b' j := by
  have h1 := ent_buf (b := b) hbs hi
  have h2 := ent_buf (b := b') hbs hj
  unfold ent setEnt
  dsimp only
  by_cases hbuf : b' * (fs.bsize / 1024) + j / 256 = b * (fs.bsize / 1024) + i / 256
  · -- the same buffer
    have hb : b' = b := by rw [← h1, ← h2, hbuf]
    rw [hbuf, update_self]
    rw [hb] at hbuf
    by_cases hw : j % 256 = i % 256
    · rw [hw, update_self, if_pos ⟨hb, by omega⟩]
    · rw [update_of_ne hw, if_neg]
      rintro ⟨-, rfl⟩
      exact hw rfl
  · rw [update_of_ne hbuf, if_neg]
    rintro ⟨rfl, rfl⟩
    exact hbuf rfl

/-! ## The invariant -/

/-- The blocks of the file: each is at one place, they are the ones that `s5alloc` gave, and no
free block is one of them. -/
structure Tree (fs : DataVol) (s : S5File) : Prop where
  inj : Radix.Injective depth fs.FsNINDIR s.addr (s.ent fs)
  outside : ∀ t, NADDR ≤ t → s.addr t = 0
  mem_taken : ∀ b, (∃ t p, Radix.Valid depth fs.FsNINDIR t p ∧ s.blockAt fs t p = b ∧ b ≠ 0) ↔
    b ∈ s.taken.map Prod.fst
  nodup : (s.taken.map Prod.fst ++ s.free).Nodup
  data : ∀ x ∈ s.taken, fs.s5badblock x.1 = false ∧ x.2 = x.1 * (fs.bsize / 1024)

/-- The trees only get new blocks, on the way to one place. -/
structure Grows (fs : DataVol) (s s' : S5File) (t : ℕ) (p : List ℕ) : Prop where
  keeps : ∀ t' q, Radix.Valid depth fs.FsNINDIR t' q → s.blockAt fs t' q ≠ 0 →
    s'.blockAt fs t' q = s.blockAt fs t' q
  new : ∀ t' q, Radix.Valid depth fs.FsNINDIR t' q → s'.blockAt fs t' q ≠ 0 →
    s.blockAt fs t' q = 0 → t' = t ∧ q <:+ p

/-- Two states with the same trees. -/
def Same (fs : DataVol) (s s' : S5File) : Prop :=
  ∀ t q, Radix.Valid depth fs.FsNINDIR t q → s'.blockAt fs t q = s.blockAt fs t q

theorem Same.grows (h : Same fs s s') : Grows fs s s' t p where
  keeps t' q hv _ := h t' q hv
  new t' q hv hne h0 := absurd (h t' q hv ▸ h0 : s'.blockAt fs t' q = 0) hne

theorem Grows.refl : Grows fs s s t p := Same.grows fun _ _ _ => rfl

theorem Grows.mono (h : Grows fs s s' t p) (hp : p <:+ q) : Grows fs s s' t q where
  keeps := h.keeps
  new t' r hv hne h0 := ⟨(h.new t' r hv hne h0).1, (h.new t' r hv hne h0).2.trans hp⟩

theorem Grows.zero (h : Grows fs s s' t p) {t' : ℕ} (hv : Radix.Valid depth fs.FsNINDIR t' q)
    (h0 : s'.blockAt fs t' q = 0) : s.blockAt fs t' q = 0 := by
  by_contra hne
  exact hne ((h.keeps t' q hv hne).symm.trans h0)

theorem Grows.trans {u : S5File} (h : Grows fs s s' t p) (h' : Grows fs s' u t p) :
    Grows fs s u t p where
  keeps t' q hv hne := by
    have h1 := h.keeps t' q hv hne
    rw [h'.keeps t' q hv (by rw [h1]; exact hne), h1]
  new t' q hv hne h0 := by
    by_cases h1 : s'.blockAt fs t' q = 0
    · exact h'.new t' q hv hne h1
    · exact h.new t' q hv h1 h0

theorem badblock_zero : fs.s5badblock 0 = true := by
  have := fs.sIsize_pos
  simp [DataVol.s5badblock, this]

theorem Tree.congr (h : Tree fs s) (hsame : Same fs s s') (haddr : s'.addr = s.addr)
    (htaken : s'.taken = s.taken) (hfree : s'.free = s.free) : Tree fs s' where
  inj t p t' p' hv hv' hne heq := by
    have h1 := hsame t p hv
    have h2 := hsame t' p' hv'
    unfold blockAt at h1 h2
    rw [h1] at hne heq
    rw [h2] at heq
    exact h.inj t p t' p' hv hv' hne heq
  outside t ht := by rw [haddr]; exact h.outside t ht
  mem_taken b := by
    rw [htaken, ← h.mem_taken b]
    constructor
    · rintro ⟨t, p, hv, hb, hne⟩
      exact ⟨t, p, hv, (hsame t p hv).symm.trans hb, hne⟩
    · rintro ⟨t, p, hv, hb, hne⟩
      exact ⟨t, p, hv, (hsame t p hv).trans hb, hne⟩
  nodup := by rw [htaken, hfree]; exact h.nodup
  data := by rw [htaken]; exact h.data

/-- A block that is free is at no place. -/
theorem Tree.fresh (h : Tree fs s) {v : ℕ} (hfree : v ∈ s.free)
    (hgood : fs.s5badblock v = false) (hv : Radix.Valid depth fs.FsNINDIR t p) :
    s.blockAt fs t p ≠ v := by
  intro heq
  have hne : v ≠ 0 := by
    rintro rfl
    rw [badblock_zero] at hgood
    cases hgood
  have hmem := (h.mem_taken v).mp ⟨t, p, hv, heq, hne⟩
  exact disjoint_of_nodup_append h.nodup hmem hfree

/-- A free block is put at an empty place. -/
theorem Tree.fill (h : Tree fs s) {skipped rest : List ℕ} {v : ℕ}
    (hfree : s.free = skipped ++ v :: rest) (hgood : fs.s5badblock v = false)
    (hv : Radix.Valid depth fs.FsNINDIR t p) (hempty : s.blockAt fs t p = 0)
    (hnode : ∀ t' q, Radix.Valid depth fs.FsNINDIR t' q →
      (t' = t ∧ q = p → s'.blockAt fs t' q = v) ∧
        (¬ (t' = t ∧ q = p) → s'.blockAt fs t' q = s.blockAt fs t' q))
    (houtside : ∀ t, NADDR ≤ t → s'.addr t = 0) (hrest : s'.free = rest)
    (htaken : s'.taken = (v, v * (fs.bsize / 1024)) :: s.taken) :
    Tree fs s' ∧ Grows fs s s' t p ∧ s'.blockAt fs t p = v := by
  have hmem : v ∈ s.free := by rw [hfree]; simp
  have hv0 : v ≠ 0 := by
    rintro rfl
    rw [badblock_zero] at hgood
    cases hgood
  have hnew := (hnode t p hv).1 ⟨rfl, rfl⟩
  refine ⟨⟨?_, houtside, fun b => ?_, ?_, ?_⟩, ⟨?_, ?_⟩, hnew⟩
  · exact h.inj.fill (fun t' q hq => h.fresh hmem hgood hq) hnode
  · rw [htaken, map_cons, mem_cons, ← h.mem_taken b]
    constructor
    · rintro ⟨t', q, hq, hb, hne⟩
      by_cases hplace : t' = t ∧ q = p
      · exact .inl (hb.symm.trans ((hnode t' q hq).1 hplace))
      · exact .inr ⟨t', q, hq, ((hnode t' q hq).2 hplace).symm.trans hb, hne⟩
    · rintro (rfl | ⟨t', q, hq, hb, hne⟩)
      · exact ⟨t, p, hv, hnew, hv0⟩
      · refine ⟨t', q, hq, ?_, hne⟩
        rw [(hnode t' q hq).2, hb]
        rintro ⟨rfl, rfl⟩
        exact hne (hb.symm.trans hempty)
  · have hnd := h.nodup
    rw [hfree] at hnd
    rw [htaken, hrest, map_cons, cons_append]
    have hperm : (s.taken.map Prod.fst ++ (skipped ++ v :: rest)).Perm
        (skipped ++ v :: (s.taken.map Prod.fst ++ rest)) := by
      refine perm_append_comm_assoc _ _ _ |>.trans (List.Perm.append_left _ ?_)
      exact perm_middle
    exact (nodup_append.mp (hperm.nodup_iff.mp hnd)).2.1
  · intro x hx
    rw [htaken] at hx
    rcases mem_cons.mp hx with rfl | hx
    · exact ⟨hgood, rfl⟩
    · exact h.data x hx
  · intro t' q hq hne
    refine (hnode t' q hq).2 ?_
    rintro ⟨rfl, rfl⟩
    exact hne hempty
  · intro t' q hq hne h0
    by_cases hplace : t' = t ∧ q = p
    · exact ⟨hplace.1, hplace.2 ▸ suffix_rfl⟩
    · exact absurd (((hnode t' q hq).2 hplace).trans h0) hne

section

variable (hbs : 1024 ≤ fs.bsize)

include hbs

theorem Tree.fill_root (h : Tree fs s) (ht : t < NADDR)
    (h0 : s.addr t = 0) {skipped rest : List ℕ} {v : ℕ} (hfree : s.free = skipped ++ v :: rest)
    (hgood : fs.s5badblock v = false) {u : S5File}
    (hu : u = { s.grab fs v rest with addr := update s.addr t v }) :
    Tree fs u ∧ Grows fs s u t [] ∧ u.blockAt fs t [] = v := by
  have hmem : v ∈ s.free := by rw [hfree]; simp
  have hent : ∀ b j, j < fs.FsNINDIR → u.ent fs b j = if b = v then 0 else s.ent fs b j := by
    intro b j hj
    rw [hu]
    show (s.grab fs v rest).ent fs b j = _
    exact ent_grab hbs hj
  refine h.fill hfree hgood ⟨Nat.zero_le _, by simp⟩ h0 (fun t' q hq => ?_) ?_ ?_ ?_
  · refine Radix.node_fill_root h0 (fun t' q hq => h.fresh hmem hgood hq) (fun j hj => ?_)
      (fun b hb j hj => ?_) ?_ (fun t' ht' => ?_) hq
    · rw [hent v j hj, if_pos rfl]
    · rw [hent b j hj, if_neg hb]
    · rw [hu]
      exact update_self ..
    · rw [hu]
      exact update_of_ne ht' ..
  · intro t' ht'
    rw [hu]
    show update s.addr t v t' = 0
    rw [update_of_ne (by omega)]
    exact h.outside t' ht'
  · rw [hu]
    rfl
  · rw [hu]
    rfl

theorem Tree.fill_entry (h : Tree fs s)
    (hv : Radix.Valid depth fs.FsNINDIR t (i :: p)) (hblock : s.blockAt fs t p ≠ 0)
    (h0 : s.ent fs (s.blockAt fs t p) i = 0) {skipped rest : List ℕ} {v : ℕ}
    (hfree : s.free = skipped ++ v :: rest) (hgood : fs.s5badblock v = false) {u : S5File}
    (hu : u = (s.grab fs v rest).setEnt fs (s.blockAt fs t p) i v) :
    Tree fs u ∧ Grows fs s u t (i :: p) ∧ u.blockAt fs t (i :: p) = v := by
  have hmem : v ∈ s.free := by rw [hfree]; simp
  have hne := h.fresh hmem hgood hv.tail
  have hent : ∀ b j, j < fs.FsNINDIR → u.ent fs b j =
      if b = s.blockAt fs t p ∧ j = i then v else if b = v then 0 else s.ent fs b j := by
    intro b j hj
    rw [hu, ent_setEnt hbs hv.head_lt hj, ent_grab hbs hj]
  refine h.fill hfree hgood hv ((Radix.node_cons hblock).trans h0) (fun t' q hq => ?_) ?_ ?_ ?_
  · have haddr : u.addr = s.addr := by rw [hu]; rfl
    unfold blockAt
    rw [haddr]
    refine Radix.node_fill h.inj hv hblock h0 (fun t' q hq => h.fresh hmem hgood hq)
      (fun j hj => ?_) (fun b hb j hj => ?_) hq
    · rw [hent v j hj, if_neg (fun hc => hne hc.1.symm), if_pos rfl]
    · rw [hent b j hj, if_neg hb]
      rfl
  · rw [hu]
    exact h.outside
  · rw [hu]
    rfl
  · rw [hu]
    rfl

/-! ## A call of `s5bmap` -/

/-- What comes of the way to a place. -/
structure Reach (fs : DataVol) (s : S5File) (readflg : Bool) (t : ℕ) (p : List ℕ)
    (r : Bmap × S5File) : Prop where
  tree : Tree fs r.2
  grows : Grows fs s r.2 t p
  type : r.2.type = s.type
  size : r.2.iSize = s.iSize
  read : readflg = true → r.2 = s
  found : ∀ nb, r.1 = .blk nb → nb ≠ 0 ∧ r.2.blockAt fs t p = nb
  hole : r.1 = .hole → readflg = true ∧ s.blockAt fs t p = 0
  enospc : r.1 = .enospc → readflg = false ∧ s.blockAt fs t p = 0
  efbig : r.1 ≠ .efbig

omit hbs in
/-- A block that is already there. -/
theorem Reach.here (readflg : Bool) (h : Tree fs s) (hne : s.blockAt fs t p ≠ 0) :
    Reach fs s readflg t p (.blk (s.blockAt fs t p), s) where
  tree := h
  grows := Grows.refl
  type := rfl
  size := rfl
  read _ := rfl
  found nb hnb := by cases hnb; exact ⟨hne, rfl⟩
  hole hr := by cases hr
  enospc hr := by cases hr
  efbig := by simp

omit hbs in
/-- A block that is not there, and is not allocated. -/
theorem Reach.missing (readflg : Bool) (h : Tree fs s) (h0 : s.blockAt fs t p = 0) :
    Reach fs s readflg t p (if readflg then .hole else .enospc, s) where
  tree := h
  grows := Grows.refl
  type := rfl
  size := rfl
  read _ := rfl
  found nb hnb := by cases readflg <;> cases hnb
  hole hr := by
    cases readflg
    · cases hr
    · exact ⟨rfl, h0⟩
  enospc hr := by
    cases readflg
    · exact ⟨rfl, h0⟩
    · cases hr
  efbig := by cases readflg <;> simp

omit hbs in
/-- After an allocation on the way the rest is reached from the state it led to. -/
theorem Reach.after {readflg : Bool} {u : S5File} {r : Bmap × S5File}
    (h : Reach fs u readflg t p r) (hgrows : Grows fs s u t p)
    (hv : Radix.Valid depth fs.FsNINDIR t p) (hread : readflg = true → u = s)
    (htype : u.type = s.type) (hsize : u.iSize = s.iSize) : Reach fs s readflg t p r where
  tree := h.tree
  grows := hgrows.trans h.grows
  type := h.type.trans htype
  size := h.size.trans hsize
  read hr := (h.read hr).trans (hread hr)
  found := h.found
  hole hr := ⟨(h.hole hr).1, hgrows.zero hv (h.hole hr).2⟩
  enospc hr := ⟨(h.enospc hr).1, hgrows.zero hv (h.enospc hr).2⟩
  efbig := h.efbig

omit hbs in
/-- A block below a missing one is missing. -/
theorem blockAt_append_zero (h0 : s.blockAt fs t p = 0) (q : List ℕ) :
    s.blockAt fs t (q ++ p) = 0 := by
  induction q with
  | nil => exact h0
  | cons i q ih => exact Radix.node_cons_zero ih

theorem address_reach (readflg : Bool) (h : Tree fs s) (ht : t < NADDR) :
    Reach fs s readflg t [] (s.address fs readflg t) := by
  unfold address
  by_cases h0 : s.addr t = 0
  · rw [if_pos h0]
    cases readflg with
    | true => exact Reach.missing true h h0
    | false =>
      rw [if_neg Bool.false_ne_true]
      rcases newBlock_cases hbs s with hnb | ⟨skipped, v, rest, hfree, hgood, hnb⟩
      · rw [hnb]
        exact Reach.missing false h h0
      · rw [hnb]
        dsimp only
        obtain ⟨htree, hgrows, hat⟩ := h.fill_root hbs ht h0 hfree hgood rfl
        have hne : v ≠ 0 := by
          rintro rfl
          rw [badblock_zero] at hgood
          cases hgood
        have hr := Reach.here false htree (by rw [hat]; exact hne)
        rw [hat] at hr
        exact hr.after hgrows ⟨Nat.zero_le _, by simp⟩ (by simp) rfl rfl
  · rw [if_neg h0]
    exact Reach.here readflg (p := []) h h0

/-- The way through `n` levels of indirect blocks. -/
theorem fetch_reach (readflg : Bool) (bn : ℕ) (h : Tree fs s)
    (hne : s.blockAt fs t p ≠ 0) (hp : ∀ i ∈ p, i < fs.FsNINDIR)
    (hlen : p.length + n ≤ depth t) :
    Reach fs s readflg t (Radix.index fs.FsNINDIR n bn ++ p)
      (s.fetch fs readflg bn n (fs.FsNSHIFT * n) (s.blockAt fs t p)) := by
  induction n generalizing s p with
  | zero => exact Reach.here readflg h hne
  | succ n ih =>
    have hi : bn / fs.FsNINDIR ^ n % fs.FsNINDIR < fs.FsNINDIR :=
      Nat.mod_lt _ (DataVol.nindir_pos hbs)
    have hv : Radix.Valid depth fs.FsNINDIR t (bn / fs.FsNINDIR ^ n % fs.FsNINDIR :: p) := by
      refine ⟨by rw [length_cons]; omega, fun j hj => ?_⟩
      rcases mem_cons.mp hj with rfl | hj
      · exact hi
      · exact hp j hj
    have hidx : Radix.index fs.FsNINDIR (n + 1) bn ++ p =
        Radix.index fs.FsNINDIR n bn ++ bn / fs.FsNINDIR ^ n % fs.FsNINDIR :: p := by
      rw [Radix.index_succ_eq, append_assoc]
      rfl
    have hsh : fs.FsNSHIFT * (n + 1) - fs.FsNSHIFT = fs.FsNSHIFT * n := by
      rw [Nat.mul_succ, Nat.add_sub_cancel]
    have hidigit : (bn >>> (fs.FsNSHIFT * n)) &&& fs.FsNMASK =
        bn / fs.FsNINDIR ^ n % fs.FsNINDIR := by
      rw [DataVol.and_nmask hbs, Nat.shiftRight_eq_div_pow, Nat.pow_mul,
        ← DataVol.nindir_eq_shift hbs]
    rw [hidx]
    unfold fetch
    dsimp only
    rw [hsh, hidigit]
    generalize bn / fs.FsNINDIR ^ n % fs.FsNINDIR = i at hi hv hidx ⊢
    have hvr : Radix.Valid depth fs.FsNINDIR t (Radix.index fs.FsNINDIR n bn ++ i :: p) := by
      refine ⟨by simp; omega, fun j hj => ?_⟩
      rcases mem_append.mp hj with hj | hj
      · exact Radix.index_lt (DataVol.nindir_pos hbs) j hj
      · exact hv.2 j hj
    have hread : s.buf (s.blockAt fs t p * (fs.bsize / 1024) + i >>> 8) (i &&& 255) =
        s.ent fs (s.blockAt fs t p) i := by
      rw [ent, Nat.shiftRight_eq_div_pow, show (255 : ℕ) = 2 ^ 8 - 1 by norm_num,
        Nat.and_two_pow_sub_one_eq_mod]
    have hnode : s.blockAt fs t (i :: p) = s.ent fs (s.blockAt fs t p) i := Radix.node_cons hne
    rw [hread]
    by_cases h0 : s.ent fs (s.blockAt fs t p) i = 0
    · rw [if_pos h0]
      have hmiss := blockAt_append_zero (hnode.trans h0) (Radix.index fs.FsNINDIR n bn)
      cases readflg with
      | true => exact Reach.missing true h hmiss
      | false =>
        rw [if_neg Bool.false_ne_true]
        rcases newBlock_cases hbs s with hnb | ⟨skipped, v, rest, hfree, hgood, hnb⟩
        · rw [hnb]
          exact Reach.missing false h hmiss
        · rw [hnb]
          dsimp only
          obtain ⟨htree, hgrows, hat⟩ := h.fill_entry hbs hv hne h0 hfree hgood rfl
          have hstore : { s.grab fs v rest with
              buf := update (s.grab fs v rest).buf
                (s.blockAt fs t p * (fs.bsize / 1024) + i >>> 8)
                (update ((s.grab fs v rest).buf
                  (s.blockAt fs t p * (fs.bsize / 1024) + i >>> 8)) (i &&& 255) v) } =
              (s.grab fs v rest).setEnt fs (s.blockAt fs t p) i v := by
            rw [setEnt, Nat.shiftRight_eq_div_pow, show (255 : ℕ) = 2 ^ 8 - 1 by norm_num,
              Nat.and_two_pow_sub_one_eq_mod]
          rw [hstore]
          have hv0 : v ≠ 0 := by
            rintro rfl
            rw [badblock_zero] at hgood
            cases hgood
          have hr := ih htree (by rw [hat]; exact hv0) hv.2 (by rw [length_cons]; omega)
          rw [hat] at hr
          exact hr.after (hgrows.mono (suffix_append _ _)) hvr (by simp) rfl rfl
    · rw [if_neg h0, ← hnode]
      exact ih h (by rw [hnode]; exact h0) hv.2 (by rw [length_cons]; omega)

omit hbs in
/-- The loop over the levels. -/
theorem levels_eq {nshift n : ℕ} (hn : n = 2 ^ nshift) (bn : ℕ) :
    levels nshift 3 0 1 bn =
      if bn < n then some (3, nshift * 1, bn)
      else if bn - n < n ^ 2 then some (2, nshift * 2, bn - n)
      else if bn - n - n ^ 2 < n ^ 3 then some (1, nshift * 3, bn - n - n ^ 2)
      else none := by
  have h1 : 1 <<< nshift = n := by rw [Nat.shiftLeft_eq, Nat.one_mul, hn]
  have h2 : n <<< nshift = n ^ 2 := by rw [Nat.shiftLeft_eq, ← hn, Nat.pow_two]
  have h3 : n ^ 2 <<< nshift = n ^ 3 := by rw [Nat.shiftLeft_eq, ← hn]; ring
  simp only [levels, h1, h2, h3]
  split
  · simp
  · by_cases hb2 : bn - n < n ^ 2
    · rw [if_pos hb2, if_pos hb2, show 0 + nshift + nshift = nshift * 2 by omega]
    · rw [if_neg hb2, if_neg hb2, show 0 + nshift + nshift + nshift = nshift * 3 by omega]

/-- The four cases of `place`. -/
theorem place_cases {bn : ℕ} {x : ℕ × List ℕ}
    (h : fs.place bn = some x) :
    (bn < 10 ∧ x = (bn, [])) ∨
      ∃ d base r, 1 ≤ d ∧ d ≤ 3 ∧
        base = 10 + (if 1 < d then fs.FsNINDIR else 0) + (if 2 < d then fs.FsNINDIR ^ 2 else 0) ∧
        bn = base + r ∧ r < fs.FsNINDIR ^ d ∧
        x = (9 + d, Radix.index fs.FsNINDIR d r) ∧
        levels fs.FsNSHIFT 3 0 1 (bn - 10) = some (4 - d, fs.FsNSHIFT * d, r) := by
  unfold DataVol.place at h
  split_ifs at h with hd
  · rw [Option.some.injEq] at h
    exact .inl ⟨hd, h.symm⟩
  · have hd : ¬ bn < 10 := hd
    right
    have hl := levels_eq (DataVol.nindir_eq_shift hbs) (bn - (NADDR - 3))
    rw [show bn - (NADDR - 3) = bn - 10 from rfl] at hl h
    by_cases h1 : bn - 10 < fs.FsNINDIR
    · rw [if_pos h1] at hl
      rw [hl, map_some, Option.some.injEq] at h
      exact ⟨1, 10, bn - 10, le_rfl, by omega, by simp, by omega, by simpa using h1, h.symm, hl⟩
    · rw [if_neg h1] at hl
      by_cases h2 : bn - 10 - fs.FsNINDIR < fs.FsNINDIR ^ 2
      · rw [if_pos h2] at hl
        rw [hl, map_some, Option.some.injEq] at h
        exact ⟨2, 10 + fs.FsNINDIR, bn - 10 - fs.FsNINDIR, by omega, by omega, by simp, by omega,
          h2, h.symm, hl⟩
      · rw [if_neg h2] at hl
        by_cases h3 : bn - 10 - fs.FsNINDIR - fs.FsNINDIR ^ 2 < fs.FsNINDIR ^ 3
        · rw [if_pos h3] at hl
          rw [hl, map_some, Option.some.injEq] at h
          exact ⟨3, 10 + fs.FsNINDIR + fs.FsNINDIR ^ 2, bn - 10 - fs.FsNINDIR - fs.FsNINDIR ^ 2,
            by omega, by omega, by simp, by omega, h3, h.symm, hl⟩
        · rw [if_neg h3] at hl
          rw [hl] at h
          cases h

theorem place_valid {bn : ℕ} (h : fs.place bn = some (t, p)) :
    t < NADDR ∧ p.length = depth t ∧ Radix.Valid depth fs.FsNINDIR t p := by
  rcases place_cases hbs h with ⟨hbn, heq⟩ | ⟨d, _, r, hd1, hd3, _, _, _, heq, _⟩
  · cases heq
    have hd : depth t = 0 := by simp only [depth, NADDR]; omega
    exact ⟨by simp only [NADDR]; omega, by rw [hd]; rfl, Nat.zero_le _, by simp⟩
  · cases heq
    have hd : depth (9 + d) = d := by simp [depth, NADDR]
    refine ⟨by simp only [NADDR]; omega, by rw [hd, Radix.length_index], ?_, ?_⟩
    · rw [hd, Radix.length_index]
    · exact Radix.index_lt (DataVol.nindir_pos hbs)

/-- Blocks with different numbers have different places. -/
theorem place_injective {a c : ℕ} {x : ℕ × List ℕ}
    (ha : fs.place a = some x) (hc : fs.place c = some x) : a = c := by
  rcases place_cases hbs ha with ⟨ha10, hax⟩ | ⟨d, base, r, hd1, hd3, hbase, hab, hr, hax, _⟩
  · rcases place_cases hbs hc with ⟨hc10, hcx⟩ | ⟨d', _, _, hd1', _, _, _, _, hcx, _⟩
    · rw [hax] at hcx
      exact (Prod.ext_iff.mp hcx).1
    · rw [hax] at hcx
      have := (Prod.ext_iff.mp hcx).1
      dsimp only at this
      omega
  · rcases place_cases hbs hc with ⟨hc10, hcx⟩ | ⟨d', base', r', hd1', _, hbase', hcb, hr', hcx, _⟩
    · rw [hax] at hcx
      have := (Prod.ext_iff.mp hcx).1
      dsimp only at this
      omega
    · rw [hax] at hcx
      have h1 := (Prod.ext_iff.mp hcx).1
      have h2 := (Prod.ext_iff.mp hcx).2
      dsimp only at h1 h2
      obtain rfl : d = d' := by omega
      rw [hab, hcb, hbase, hbase', Radix.index_injective hr hr' h2]

/-- Every block below offset 2^31 has a place. -/
theorem place_isSome {o : ℕ} (ho : o < 2 ^ 31) :
    (fs.place (o / fs.bsize)).isSome := by
  unfold DataVol.place
  split_ifs
  · rfl
  · rw [levels_eq (DataVol.nindir_eq_shift hbs), isSome_map]
    split
    · rfl
    · by_cases h2 : o / fs.bsize - (NADDR - 3) - fs.FsNINDIR < fs.FsNINDIR ^ 2
      · rw [if_pos h2]
        rfl
      · rw [if_neg h2, if_pos]
        · rfl
        · have h256 : 256 ≤ fs.FsNINDIR := by
            have := DataVol.nbuf_pos hbs
            rw [DataVol.nindir_eq hbs]
            omega
          have h3 : 256 ^ 3 ≤ fs.FsNINDIR ^ 3 := Nat.pow_le_pow_left h256 3
          have h4 : o / fs.bsize ≤ o / 1024 := Nat.div_le_div_left hbs (by norm_num)
          omega

/-- The way to a block of the file. -/
theorem block_reach {readflg : Bool} {bn : ℕ} (h : Tree fs s)
    (hp : fs.place bn = some (t, p)) : Reach fs s readflg t p (s.block fs readflg bn) := by
  have hval := place_valid hbs hp
  unfold block
  rcases place_cases hbs hp with ⟨hbn, heq⟩ | ⟨d, _, r, hd1, hd3, _, hr, _, heq, hl⟩
  · cases heq
    rw [if_pos (show t < NADDR - 3 from hbn)]
    exact address_reach hbs readflg h hval.1
  · cases heq
    have hd : depth (9 + d) = d := by simp [depth, NADDR]
    have h13 : NADDR - (4 - d) = 9 + d := by simp only [NADDR]; omega
    rw [if_neg (show ¬ bn < NADDR - 3 by simp only [NADDR]; omega),
      show bn - (NADDR - 3) = bn - 10 from rfl, hl]
    dsimp only
    rw [h13, show 4 - (4 - d) = d by omega]
    have hr := address_reach hbs readflg h hval.1
    have hidx := (Radix.index fs.FsNINDIR d r).append_nil
    match hra : s.address fs readflg (9 + d) with
    | (.blk nb, u) =>
      rw [hra] at hr
      obtain ⟨hnb, hat⟩ := hr.found nb rfl
      dsimp only at hat ⊢
      have hf := fetch_reach hbs readflg r hr.tree (n := d) (p := [])
        (by dsimp only; rw [hat]; exact hnb) (by simp) (by rw [hd]; simp)
      rw [hidx] at hf
      dsimp only at hf
      rw [hat] at hf
      exact hf.after (hr.grows.mono (nil_suffix)) hval.2.2 hr.read hr.type hr.size
    | (.hole, u) =>
      rw [hra] at hr
      obtain ⟨rfl, h0⟩ := hr.hole rfl
      have hu : u = s := hr.read rfl
      have hmiss := blockAt_append_zero h0 (Radix.index fs.FsNINDIR d r)
      rw [hidx] at hmiss
      rw [hu]
      exact Reach.missing true h hmiss
    | (.efbig, u) =>
      rw [hra] at hr
      exact absurd rfl hr.efbig
    | (.enospc, u) =>
      rw [hra] at hr
      obtain ⟨rfl, h0⟩ := hr.enospc rfl
      have hmiss := blockAt_append_zero h0 (Radix.index fs.FsNINDIR d r)
      rw [hidx] at hmiss
      exact ⟨hr.tree, hr.grows.mono (nil_suffix), hr.type, hr.size, by simp, by simp, by simp,
        fun _ => ⟨rfl, hmiss⟩, by simp⟩

/-! ## Runs -/

/-- A read of some bytes below the size of the file. -/
def Below (s : S5File) (uOffset uCount : ℕ) : Prop :=
  0 < uCount ∧ if s.type = .ififo then 0 < s.iSize else uOffset < s.iSize

/-- The buffer of a block that an offset is in. -/
def inBlock (fs : DataVol) (uOffset : ℕ) : Bmap → Bmap
  | .blk nb => .blk (nb * (fs.bsize / 1024) + uOffset / 1024 % (fs.bsize / 1024))
  | r => r

/-- What `s5bmap` returns: an error for the offset, nothing if the file ends there, or what is at
the place of the block. -/
theorem s5bmap_cases (readflg : Bool) (o c l : ℕ) (h : Tree fs s) :
    (s.s5bmap fs readflg o c l = (.efbig, s) ∧
      (2 ^ 31 ≤ o ∨ readflg = false ∧ s.type = .ifreg ∧ l <<< 9 % 2 ^ 32 ≤ o)) ∨
    (readflg = true ∧ ¬ s.Below o c ∧ s.s5bmap fs readflg o c l = (.hole, s)) ∨
    (o < 2 ^ 31 ∧ ∃ t p r, fs.place (o / fs.bsize) = some (t, p) ∧ Reach fs s readflg t p r ∧
      s.s5bmap fs readflg o c l = (inBlock fs o r.1, r.2)) := by
  unfold s5bmap
  dsimp only
  by_cases ho : 2 ^ 31 ≤ o
  · rw [if_pos ho]
    exact .inl ⟨rfl, .inl ho⟩
  rw [if_neg ho]
  by_cases hlim : ¬ readflg = true ∧ s.type = .ifreg ∧ o ≥ l <<< 9 % 2 ^ 32
  · rw [if_pos hlim]
    exact .inl ⟨rfl, .inr ⟨by simpa using hlim.1, hlim.2⟩⟩
  rw [if_neg hlim]
  have hmod := Nat.mod_lt o (show 1024 > 0 by norm_num)
  have hsz : fs.FsBSIZE = 1024 := if_neg (by omega)
  rw [hsz]
  by_cases hend : readflg = true ∧
      min (min c (1024 - o % 1024)) (if s.type = .ififo then s.iSize else s.iSize - o) = 0
  · rw [if_pos hend]
    refine .inr (.inl ⟨hend.1, ?_, rfl⟩)
    rintro ⟨hc, hrem⟩
    have hmin := hend.2
    split_ifs at hrem hmin
    · omega
    · omega
  rw [if_neg hend, DataVol.shiftRight_bshift hbs]
  obtain ⟨⟨t, p⟩, hp⟩ := isSome_iff_exists.mp (place_isSome hbs (Nat.lt_of_not_le ho))
  refine .inr (.inr ⟨Nat.lt_of_not_le ho, t, p, s.block fs readflg (o / fs.bsize), hp,
    block_reach hbs h hp, ?_⟩)
  match hb : s.block fs readflg (o / fs.bsize) with
  | (.blk nb, u) =>
    dsimp only [inBlock]
    split_ifs
    · rw [DataVol.and_nbuf hbs, Nat.shiftRight_eq_div_pow]
    · rw [show fs.bsize = 1024 by omega]
      norm_num
      omega
  | (.hole, u) => rfl
  | (.efbig, u) => rfl
  | (.enospc, u) => rfl

/-- A writer fills a buffer of a block of the file's data. -/
theorem same_store (h : Tree fs s) (hv : Radix.Valid depth fs.FsNINDIR t p)
    (hleaf : p.length = depth t) (hne : s.blockAt fs t p ≠ 0) {k : ℕ} (hk : k < fs.bsize / 1024)
    (words : ℕ → ℕ) {u : S5File} (hu : u = { s with
      buf := update s.buf (s.blockAt fs t p * (fs.bsize / 1024) + k) words }) :
    Same fs s u := by
  have hpos := DataVol.nbuf_pos hbs
  intro t' q hq
  have haddr : u.addr = s.addr := by rw [hu]
  unfold blockAt
  rw [haddr]
  refine Radix.node_congr (fun p' hv' hlen hne' i hi => ?_) hq
  have hother : s.blockAt fs t' p' * (fs.bsize / 1024) + i / 256 ≠
      s.blockAt fs t p * (fs.bsize / 1024) + k → u.ent fs (s.blockAt fs t' p') i =
        s.ent fs (s.blockAt fs t' p') i := by
    intro hbuf
    rw [hu]
    unfold ent
    dsimp only
    rw [update_of_ne hbuf]
  refine hother fun hbuf => ?_
  -- a block with entries is not at a leaf
  have hdiv := congrArg (· / (fs.bsize / 1024)) hbuf
  rw [ent_buf hbs hi, Nat.mul_comm (s.blockAt fs t p), Nat.mul_add_div hpos,
    Nat.div_eq_of_lt hk, Nat.add_zero] at hdiv
  obtain ⟨rfl, rfl⟩ := h.inj t' p' t p hv' hv hne' hdiv
  omega

/-- What an event does to the trees: it may put blocks on the way to the block that is written. -/
structure Stepped (fs : DataVol) (s u : S5File) (e : FileEvent) : Prop where
  tree : Tree fs u
  type : u.type = s.type
  keeps : ∀ t q, Radix.Valid depth fs.FsNINDIR t q → s.blockAt fs t q ≠ 0 →
    u.blockAt fs t q = s.blockAt fs t q
  new : ∀ t q, Radix.Valid depth fs.FsNINDIR t q → u.blockAt fs t q ≠ 0 →
    s.blockAt fs t q = 0 → ∃ o c l words p, e = .s5bmap false o c l words ∧
      fs.place (o / fs.bsize) = some (t, p) ∧ q <:+ p

omit hbs in
theorem Same.stepped {u : S5File} {e : FileEvent} (h : Same fs s u) (htree : Tree fs u)
    (htype : u.type = s.type) : Stepped fs s u e where
  tree := htree
  type := htype
  keeps t q hv _ := h t q hv
  new t q hv hne h0 := absurd ((h t q hv).trans h0) hne

theorem step_stepped {u : S5File} {e : FileEvent} (h : Tree fs s)
    (hu : s.step fs e = some u) : Stepped fs s u e := by
  cases e with
  | setSize n =>
    cases hu
    have hsame : Same fs s { s with iSize := n } := fun _ _ _ => rfl
    exact hsame.stepped (h.congr hsame rfl rfl rfl) rfl
  | s5bmap readflg o c l words =>
    unfold step at hu
    dsimp only at hu
    have hself : Stepped fs s s (.s5bmap readflg o c l words) :=
      Same.stepped (fun _ _ _ => rfl) h rfl
    rcases s5bmap_cases hbs readflg o c l h with ⟨hr, -⟩ | ⟨-, -, hr⟩ | ⟨-, t, p, r, hp, hr, heq⟩
    · rw [hr] at hu
      cases hu
      exact hself
    · rw [hr] at hu
      cases hu
      exact hself
    · rw [heq] at hu
      obtain ⟨-, hleaf, hv⟩ := place_valid hbs hp
      cases readflg with
      | true =>
        -- a reader changes nothing
        have hsu : u = s := by
          rw [hr.read rfl] at hu
          cases hb : inBlock fs o r.1 <;> rw [hb] at hu <;> cases hu <;> rfl
        rw [hsu]
        exact hself
      | false =>
        have hgrown : ∀ u, Same fs r.2 u → u.addr = r.2.addr → u.taken = r.2.taken →
            u.free = r.2.free → u.type = r.2.type →
            Stepped fs s u (.s5bmap false o c l words) := by
          intro u hsame haddr htaken hfree htype
          have hgrows := hr.grows.trans (hsame.grows (t := t) (p := p))
          refine ⟨hr.tree.congr hsame haddr htaken hfree, htype.trans hr.type, hgrows.keeps, ?_⟩
          intro t' q hq hne h0
          obtain ⟨rfl, hsuf⟩ := hgrows.new t' q hq hne h0
          exact ⟨o, c, l, words, p, rfl, hp, hsuf⟩
        match hb : r.1 with
        | .blk nb =>
          obtain ⟨hnb, hat⟩ := hr.found nb hb
          rw [hb] at hu
          cases hu
          have hk := Nat.mod_lt (o / 1024) (DataVol.nbuf_pos hbs)
          refine hgrown _ ?_ rfl rfl rfl rfl
          refine same_store hbs hr.tree hv hleaf (by rw [hat]; exact hnb) hk words ?_
          rw [hat]
          rfl
        | .hole | .efbig | .enospc =>
          rw [hb] at hu
          cases hu
          exact hgrown _ (fun _ _ _ => rfl) rfl rfl rfl rfl

omit hbs in
theorem step_total (s : S5File) (e : FileEvent) : ∃ u, s.step fs e = some u := by
  cases e with
  | setSize n => exact ⟨_, rfl⟩
  | s5bmap readflg o c l words =>
    cases hr : s.s5bmap fs readflg o c l with
    | mk r u =>
      unfold step
      dsimp only
      rw [hr]
      cases r <;> exact ⟨_, rfl⟩

omit hbs in
/-- A file without blocks. -/
theorem Fresh.tree (h : s.Fresh) : Tree fs s := by
  have hzero : ∀ t p, s.blockAt fs t p = 0 := fun t p => by
    induction p with
    | nil => exact h.addr t
    | cons i p ih => exact Radix.node_cons_zero ih
  refine ⟨fun t p t' p' _ _ hne _ => absurd (hzero t p) hne, fun t _ => h.addr t, fun b => ?_, ?_,
    fun x hx => ?_⟩
  · rw [h.taken]
    constructor
    · rintro ⟨t, p, -, hb, hne⟩
      exact absurd (hb.symm.trans (hzero t p)) hne
    · intro hb
      cases hb
  · rw [h.taken]
    exact h.nodup
  · rw [h.taken] at hx
    cases hx

/-- What a run keeps. -/
theorem exec_tree {u : S5File} {es : List FileEvent} (h : Tree fs s)
    (hu : exec (step fs) s es = some u) : Tree fs u ∧ u.type = s.type ∧
      ∀ t q, Radix.Valid depth fs.FsNINDIR t q → s.blockAt fs t q ≠ 0 →
        u.blockAt fs t q = s.blockAt fs t q := by
  refine exec_invariant' (P := fun u => Tree fs u ∧ u.type = s.type ∧
    ∀ t q, Radix.Valid depth fs.FsNINDIR t q → s.blockAt fs t q ≠ 0 →
      u.blockAt fs t q = s.blockAt fs t q) ?_ ⟨h, rfl, fun _ _ _ _ => rfl⟩ hu
  rintro s₁ e s₂ ⟨htree, htype, hkeeps⟩ he
  have hst := step_stepped hbs htree he
  refine ⟨hst.tree, hst.type.trans htype, fun t q hv hne => ?_⟩
  have h1 := hkeeps t q hv hne
  rw [hst.keeps t q hv (by rw [h1]; exact hne), h1]

/-! ## The map -/

/-- A block of addresses, with so many levels of blocks below it. -/
inductive Indirect (fs : DataVol) (s : S5File) : ℕ → ℕ → Prop
  | root (j : ℕ) (hj : 1 ≤ j ∧ j ≤ 3) (hne : s.addr (NADDR - 4 + j) ≠ 0) :
    Indirect fs s j (s.addr (NADDR - 4 + j))
  | entry (j b i : ℕ) (hb : Indirect fs s (j + 2) b) (hi : i < fs.FsNINDIR)
    (hne : s.ent fs b i ≠ 0) : Indirect fs s (j + 1) (s.ent fs b i)

omit hbs in
theorem Indirect.place {d bno : ℕ} (h : Indirect fs s d bno) :
    ∃ t p, Radix.Valid depth fs.FsNINDIR t p ∧ s.blockAt fs t p = bno ∧ bno ≠ 0 ∧
      p.length + d = depth t ∧ 1 ≤ d := by
  induction h with
  | root j hj hne =>
    refine ⟨NADDR - 4 + j, [], ⟨Nat.zero_le _, by simp⟩, rfl, hne, ?_, hj.1⟩
    simp [depth]
  | entry j b i hb hi hne ih =>
    obtain ⟨t, p, hv, hat, hb0, hlen, -⟩ := ih
    refine ⟨t, i :: p, ⟨by rw [length_cons]; omega, fun k hk => ?_⟩, ?_, hne,
      by rw [length_cons]; omega, by omega⟩
    · rcases mem_cons.mp hk with rfl | hk
      · exact hi
      · exact hv.2 k hk
    · rw [← hat]
      exact Radix.node_cons (by unfold blockAt at hat; rw [hat]; exact hb0)

/-- A place with nothing, that no event writes to, stays so. -/
theorem exec_hole {u : S5File} {es : List FileEvent} {bn : ℕ}
    (h : Tree fs s) (hp : fs.place bn = some (t, p)) (h0 : s.blockAt fs t p = 0)
    (hes : ∀ o c l words, .s5bmap false o c l words ∈ es → o / fs.bsize ≠ bn)
    (hu : exec (step fs) s es = some u) : u.blockAt fs t p = 0 := by
  obtain ⟨-, hleaf, hv⟩ := place_valid hbs hp
  have hC : StepsMeet (fun _ e => ∀ o c l words, e = .s5bmap false o c l words → o / fs.bsize ≠ bn)
      (step fs) s es := stepsMeet_of_forall fun e he _ o c l words heq => hes o c l words (heq ▸ he)
  refine (exec_invariant (P := fun u => Tree fs u ∧ u.blockAt fs t p = 0) ?_ ⟨h, h0⟩ hC hu).2
  rintro s₁ e s₂ ⟨htree, hzero⟩ he hst
  have hstep := step_stepped hbs htree hst
  refine ⟨hstep.tree, ?_⟩
  by_contra hne
  obtain ⟨o, c, l, words, p', rfl, hp', hsuf⟩ := hstep.new t p hv hne hzero
  -- the block that was written is another one
  obtain ⟨-, hleaf', -⟩ := place_valid hbs hp'
  have hpp : p = p' := hsuf.eq_of_length (hleaf.trans hleaf'.symm)
  rw [← hpp] at hp'
  exact he o c l words rfl (place_injective hbs hp' hp)

/-- A call that finds a block finds the one at the place. -/
theorem s5bmap_blk {readflg : Bool} {o c l : ℕ} (h : Tree fs s)
    (hr : (s.s5bmap fs readflg o c l).1 = .blk b) :
    Tree fs (s.s5bmap fs readflg o c l).2 ∧ ∃ t p, fs.place (o / fs.bsize) = some (t, p) ∧
      (s.s5bmap fs readflg o c l).2.blockAt fs t p = b / (fs.bsize / 1024) ∧
      b / (fs.bsize / 1024) ≠ 0 ∧ b % (fs.bsize / 1024) = o / 1024 % (fs.bsize / 1024) ∧
      o < 2 ^ 31 := by
  have hpos := DataVol.nbuf_pos hbs
  rcases s5bmap_cases hbs readflg o c l h with ⟨heq, -⟩ | ⟨-, -, heq⟩ | ⟨ho, t, p, r, hp, hreach, heq⟩
  · rw [heq] at hr
    cases hr
  · rw [heq] at hr
    cases hr
  · rw [heq] at hr ⊢
    match hb : r.1 with
    | .blk nb =>
      rw [hb] at hr
      cases hr
      obtain ⟨hnb, hat⟩ := hreach.found nb hb
      have hlt := Nat.mod_lt (o / 1024) hpos
      have hdiv : (nb * (fs.bsize / 1024) + o / 1024 % (fs.bsize / 1024)) / (fs.bsize / 1024) =
          nb := by
        rw [Nat.mul_comm, Nat.mul_add_div hpos, Nat.div_eq_of_lt hlt, Nat.add_zero]
      refine ⟨hreach.tree, t, p, hp, hat.trans hdiv.symm, by rw [hdiv]; exact hnb, ?_, ho⟩
      rw [Nat.mul_comm, Nat.mul_add_mod, Nat.mod_mod]
    | .hole | .efbig | .enospc =>
      rw [hb] at hr
      cases hr

/-- What a call of `s5bmap` found is at its place from then on. -/
theorem exec_call {u : S5File} {readflg : Bool} {o c l : ℕ}
    {words : ℕ → ℕ} {es : List FileEvent} (h : Tree fs s)
    (hu : exec (step fs) s (.s5bmap readflg o c l words :: es) = some u)
    (hr : (s.s5bmap fs readflg o c l).1 = .blk b) :
    Tree fs u ∧ u.type = s.type ∧ ∃ t p, fs.place (o / fs.bsize) = some (t, p) ∧
      u.blockAt fs t p = b / (fs.bsize / 1024) ∧ b / (fs.bsize / 1024) ≠ 0 ∧
      b % (fs.bsize / 1024) = o / 1024 % (fs.bsize / 1024) ∧ o < 2 ^ 31 := by
  obtain ⟨htree', t, p, hp, hat, hne, hmod, ho⟩ := s5bmap_blk hbs h hr
  obtain ⟨-, hleaf, hval⟩ := place_valid hbs hp
  obtain ⟨htree, htype, -⟩ := exec_tree hbs h hu
  refine ⟨htree, htype, t, p, hp, ?_, hne, hmod, ho⟩
  obtain ⟨v, hv, hu⟩ := exec_cons.mp hu
  have hvat : v.blockAt fs t p = b / (fs.bsize / 1024) := by
    unfold step at hv
    dsimp only at hv
    generalize s.s5bmap fs readflg o c l = r at hr htree' hat hv
    obtain ⟨r, s'⟩ := r
    dsimp only at hr hat htree'
    rw [hr] at hv
    cases readflg with
    | true =>
      cases hv
      exact hat
    | false =>
      cases hv
      have hk : b % (fs.bsize / 1024) < fs.bsize / 1024 := Nat.mod_lt _ (DataVol.nbuf_pos hbs)
      refine (same_store hbs htree' hval hleaf (by rw [hat]; exact hne) hk words ?_ t p hval).trans
        hat
      rw [hat, Nat.div_add_mod']
      rfl
  rw [(exec_tree hbs (step_stepped hbs h hv).tree hu).2.2 t p hval (by rw [hvat]; exact hne), hvat]

/-- A call in the same unit as a block that was found. -/
theorem s5bmap_again {o o' : ℕ} (h : Tree fs s)
    (hp : fs.place (o / fs.bsize) = some (t, p)) (hat : s.blockAt fs t p = b / (fs.bsize / 1024))
    (hne : b / (fs.bsize / 1024) ≠ 0) (hmod : b % (fs.bsize / 1024) = o / 1024 % (fs.bsize / 1024))
    (ho : o < 2 ^ 31) (hunit : o' / 1024 = o / 1024) (readflg : Bool) (c l : ℕ) :
    (s.s5bmap fs readflg o' c l).1 = .blk b ∨
      (readflg = false ∧ s.type = .ifreg ∧ l <<< 9 % 2 ^ 32 ≤ o' ∧
        (s.s5bmap fs readflg o' c l).1 = .efbig) ∨
      (readflg = true ∧ ¬ s.Below o' c ∧ (s.s5bmap fs readflg o' c l).1 = .hole) := by
  have hblock : o' / fs.bsize = o / fs.bsize := by
    rw [DataVol.div_bsize hbs, DataVol.div_bsize hbs, hunit]
  have hval := (place_valid hbs hp).2.2
  have hsome : s.blockAt fs t p ≠ 0 := by rw [hat]; exact hne
  rcases s5bmap_cases hbs readflg o' c l h with ⟨heq, hbig⟩ | ⟨hread, hnot, heq⟩ |
    ⟨-, t', p', r, hp', hr, heq⟩
  · rcases hbig with hbig | ⟨hw, htype, hlim⟩
    · omega
    · exact .inr (.inl ⟨hw, htype, hlim, by rw [heq]⟩)
  · exact .inr (.inr ⟨hread, hnot, by rw [heq]⟩)
  · rw [hblock, hp, Option.some.injEq, Prod.mk.injEq] at hp'
    obtain ⟨rfl, rfl⟩ := hp'
    left
    rw [heq]
    match hb : r.1 with
    | .blk nb =>
      obtain ⟨-, hnb⟩ := hr.found nb hb
      rw [hr.grows.keeps t p hval hsome, hat] at hnb
      show Bmap.blk (nb * (fs.bsize / 1024) + o' / 1024 % (fs.bsize / 1024)) = .blk b
      rw [← hnb, hunit, ← hmod, Nat.div_add_mod']
    | .hole => exact absurd (hr.hole hb).2 hsome
    | .enospc => exact absurd (hr.enospc hb).2 hsome
    | .efbig => exact absurd hb hr.efbig

end

/-- **`s5bmap` maps the 1K units of a file to buffers of the device.**  On blocks of 1024 bytes
and more, in every history of a file: the buffer a call returned is what every later call for a
unit of the file at the same 1024 bytes returns, but for a write at or above `u_limit` and a read
that has nothing to read below the size; a call in another unit never returns it, and it is
not in a block of addresses.  A read in a block of the file that no call wrote to
returns -1. -/
theorem s5bmap_map (fs : DataVol) (hbs : 1024 ≤ fs.bsize) {s u : S5File} {es : List FileEvent}
    (hs : s.Fresh) (hu : exec (step fs) s es = some u) :
    (∀ es₁ readflg o c l words es₂ t b, es = es₁ ++ .s5bmap readflg o c l words :: es₂ →
      exec (step fs) s es₁ = some t → (t.s5bmap fs readflg o c l).1 = .blk b →
        (∀ readflg o' c l, o' / 1024 = o / 1024 →
          (u.s5bmap fs readflg o' c l).1 = .blk b ∨
            (readflg = false ∧ u.type = .ifreg ∧ l <<< 9 % 2 ^ 32 ≤ o' ∧
              (u.s5bmap fs readflg o' c l).1 = .efbig) ∨
            (readflg = true ∧ ¬ u.Below o' c ∧ (u.s5bmap fs readflg o' c l).1 = .hole)) ∧
        (∀ readflg o' c l, o' / 1024 ≠ o / 1024 → (u.s5bmap fs readflg o' c l).1 ≠ .blk b) ∧
        (∀ d bno, Indirect fs u d bno → b / (fs.bsize / 1024) ≠ bno)) ∧
    (∀ o' c' l', o' < 2 ^ 31 →
      (∀ o c l words, .s5bmap false o c l words ∈ es → o / fs.bsize ≠ o' / fs.bsize) →
        (u.s5bmap fs true o' c' l').1 = .hole) := by
  constructor
  · intro es₁ readflg o c l words es₂ t b hes ht hr
    rw [hes, exec_append] at hu
    obtain ⟨t', ht', hu⟩ := hu
    rw [ht] at ht'
    cases ht'
    have htree := (exec_tree hbs hs.tree ht).1
    obtain ⟨hutree, -, T, P, hp, hat, hne, hmod, ho⟩ := exec_call hbs htree hu hr
    obtain ⟨-, hleaf, hval⟩ := place_valid hbs hp
    have hsome : u.blockAt fs T P ≠ 0 := by rw [hat]; exact hne
    refine ⟨fun rf o' c l hunit => s5bmap_again hbs hutree hp hat hne hmod ho hunit rf c l, ?_, ?_⟩
    · intro rf o' c l hunit hr'
      obtain ⟨v, hv⟩ := step_total u (.s5bmap rf o' c l fun _ => 0)
      have hexec := exec_cons.mpr ⟨v, hv, exec_nil⟩
      obtain ⟨hvtree, -, T', P', hp', hat', -, hmod', -⟩ := exec_call hbs hutree hexec hr'
      have hval' := (place_valid hbs hp').2.2
      -- the same block is at both places after the call
      have hat2 := (step_stepped hbs hutree hv).keeps T P hval hsome
      rw [hat] at hat2
      have hsome2 : v.blockAt fs T P ≠ 0 := by rw [hat2]; exact hne
      obtain ⟨rfl, rfl⟩ := hvtree.inj T P T' P' hval hval' hsome2 (hat2.trans hat'.symm)
      have hblock := place_injective hbs hp hp'
      rw [DataVol.div_bsize hbs, DataVol.div_bsize hbs] at hblock
      refine hunit ?_
      rw [← Nat.div_add_mod (o / 1024) (fs.bsize / 1024),
        ← Nat.div_add_mod (o' / 1024) (fs.bsize / 1024), hblock, ← hmod, hmod']
    · intro d bno hind hb
      obtain ⟨T', P', hv', hat', -, hlen, hd⟩ := hind.place
      have heq := hutree.inj T P T' P' hval hv' hsome (hat.trans (hb.trans hat'.symm))
      rw [← heq.1, ← heq.2] at hlen
      omega
  · intro o' c' l' ho' hes
    obtain ⟨⟨T, P⟩, hp⟩ := isSome_iff_exists.mp (place_isSome hbs ho')
    have hutree := (exec_tree hbs hs.tree hu).1
    have hzero : s.blockAt fs T P = 0 := by
      by_contra hne
      have := (hs.tree.mem_taken _).mp ⟨T, P, (place_valid hbs hp).2.2, rfl, hne⟩
      rw [hs.taken] at this
      cases this
    have hu0 := exec_hole hbs hs.tree hp hzero hes hu
    rcases s5bmap_cases hbs true o' c' l' hutree with ⟨-, hbig | ⟨hw, -⟩⟩ | ⟨-, -, heq⟩ |
      ⟨-, T', P', r, hp', hr, heq⟩
    · omega
    · cases hw
    · rw [heq]
    · rw [hp, Option.some.injEq, Prod.mk.injEq] at hp'
      obtain ⟨rfl, rfl⟩ := hp'
      rw [heq]
      match hb : r.1 with
      | .blk nb =>
        obtain ⟨hnb, hat⟩ := hr.found nb hb
        rw [hr.read rfl, hu0] at hat
        exact absurd hat.symm hnb
      | .hole => rfl
      | .enospc => exact absurd (hr.enospc hb).1 (by simp)
      | .efbig => exact absurd hb hr.efbig

/-- A hundred blocks of 2048 bytes. -/
def vol2048 : DataVol := ⟨⟨2048, 4, by decide⟩, 100, by decide, by decide⟩

/-- An empty file of a size. -/
def emptyFile (size : ℕ) (free : List ℕ) : S5File where
  type := .ifreg
  addr := fun _ => 0
  iSize := size
  buf := fun _ _ => 0
  free := free
  taken := []

theorem fresh_emptyFile {size : ℕ} {free : List ℕ} (h : free.Nodup) : (emptyFile size free).Fresh :=
  ⟨fun _ => rfl, rfl, h⟩

/-- A write to the first unit, and one to the third, which is behind the size. -/
def twoWrites : List FileEvent :=
  [.s5bmap false 0 1024 8 fun _ => 1, .s5bmap false 2048 1024 8 fun _ => 2]

/-- The second unit was not written and is no hole, and the third was written and is not found by
a read. -/
theorem s5bmap_by_block : ∃ s u, s.Fresh ∧ exec (step vol2048) s twoWrites = some u ∧
    1024 < u.iSize ∧ (u.s5bmap vol2048 true 1024 1024 0).1 = .blk 21 ∧
    (u.s5bmap vol2048 false 2048 1024 8).1 = .blk 22 ∧
    (u.s5bmap vol2048 true 2048 1024 0).1 = .hole := by
  refine ⟨emptyFile 2048 [10, 11], _, fresh_emptyFile ?_, rfl, ?_, ?_, ?_, ?_⟩
  all_goals decide

theorem s5bmap_map_twoWrites : ∃ u, exec (step vol2048) (emptyFile 2048 [10, 11]) twoWrites =
    some u ∧ (u.s5bmap vol2048 true 4096 1024 0).1 = .hole := by
  have hfresh : (emptyFile 2048 [10, 11]).Fresh := fresh_emptyFile (by decide)
  have hrun : exec (step vol2048) (emptyFile 2048 [10, 11]) twoWrites = some _ := rfl
  refine ⟨_, hrun, (s5bmap_map vol2048 (by decide) hfresh hrun).2 4096 1024 0 (by decide) ?_⟩
  intro o c l words hmem
  simp only [twoWrites, mem_cons, FileEvent.s5bmap.injEq, not_mem_nil, or_false] at hmem
  rcases hmem with ⟨-, rfl, -⟩ | ⟨-, rfl, -⟩ <;> decide

end S5File

end Fs
