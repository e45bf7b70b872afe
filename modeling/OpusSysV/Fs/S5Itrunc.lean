import OpusSysV.Fs.S5BmapTree

/-!
# What truncation gives back: `s5itrunc` of `fs/s5/s5iget.c`

`s5tloop` walks a block of addresses from the last entry on and frees the block after what it
names, once for each level; `s5itrunc` does so for the thirteen addresses of the inode.  It
finds the buffers of a block by arithmetic of its own.

* `Frees` — a routine frees the blocks below a block and writes into no other block.
* `s5free_frees`, `loop_frees` — the routines for each level.
* `s5itrunc_exact` — `s5itrunc` frees what `s5alloc` gave, each block once, and `s5alloc`
  cleared the buffer of the block, exactly unless the blocks have 512 bytes and there are any;
  `nothing_freed` is a file on such a device.
-/

namespace Fs

open Lib Function List

namespace S5File

variable {fs : DataVol} {spill : ℕ → Option (ℕ → ℕ)} {s t : S5File} {x : Freeing} {k n b bn : ℕ}

/-- The entries of a block while blocks are freed. -/
def Freeing.ent (fs : DataVol) (x : Freeing) (b i : ℕ) : ℕ :=
  x.buf (b * (fs.bsize / 1024) + i / 256) (i % 256)

/-- What freed the blocks `l` and wrote into no other block. -/
structure Freed (fs : DataVol) (x y : Freeing) (l : List ℕ) : Prop where
  freed : y.freed = x.freed ++ l
  kept : ∀ c, c ∉ l → ∀ i < fs.FsNINDIR, y.ent fs c i = x.ent fs c i

/-- The routine frees the blocks below a block, with `k` levels of blocks below it. -/
def Frees (fs : DataVol) (k : ℕ) (free : ℕ → Freeing → Freeing) : Prop :=
  ∀ b x, (Radix.blocks fs.FsNINDIR (x.ent fs) k b).Nodup →
    (∀ c ∈ Radix.blocks fs.FsNINDIR (x.ent fs) k b, fs.s5badblock c = false) →
    Freed fs x (free b x) (Radix.blocks fs.FsNINDIR (x.ent fs) k b)

theorem Freed.refl : Freed fs x x [] := ⟨(append_nil _).symm, fun _ _ _ _ => rfl⟩

theorem Freed.trans {y z : Freeing} {l l' : List ℕ} (h : Freed fs x y l) (h' : Freed fs y z l') :
    Freed fs x z (l ++ l') where
  freed := by rw [h'.freed, h.freed, append_assoc]
  kept c hc i hi := by
    rw [mem_append, not_or] at hc
    rw [h'.kept c hc.2 i hi, h.kept c hc.1 i hi]

/-- Blocks that are not freed have the same blocks below them. -/
theorem Freed.blocks {y : Freeing} {l : List ℕ} (h : Freed fs x y l)
    (hdis : ∀ c ∈ Radix.blocks fs.FsNINDIR (x.ent fs) k b, c ∉ l) :
    Radix.blocks fs.FsNINDIR (y.ent fs) k b = Radix.blocks fs.FsNINDIR (x.ent fs) k b :=
  Radix.blocks_congr fun c hc i hi => h.kept c (hdis c hc) i hi

/-! ## The routines -/

section

variable (hbs : 1024 ≤ fs.bsize)

include hbs

theorem s5free_freed (hb : fs.s5badblock b = false) :
    Freed fs x (Freeing.s5free fs spill x b) [b] := by
  have hpos := DataVol.nbuf_pos hbs
  have hblk : (if fs.bsize > 1024 then b * (fs.bsize / 1024) else b) = b * (fs.bsize / 1024) := by
    split_ifs
    · rfl
    · rw [show fs.bsize = 1024 by omega]
      simp
  unfold Freeing.s5free
  rw [hb, if_neg Bool.false_ne_true, hblk]
  refine ⟨rfl, fun c hc i hi => ?_⟩
  rw [mem_singleton] at hc
  unfold Freeing.ent
  dsimp only
  cases spill b with
  | none => rfl
  | some words =>
    dsimp only
    rw [update_of_ne]
    intro hbuf
    refine hc ?_
    rw [← ent_buf (b := c) hbs hi, hbuf, Nat.mul_div_cancel _ hpos]

theorem s5free_frees (spill : ℕ → Option (ℕ → ℕ)) :
    Frees fs 0 fun nb x => Freeing.s5free fs spill x nb :=
  fun b _ _ hgood => s5free_freed hbs (hgood b (mem_singleton_self b))

/-- The blocks named by the first `n` entries of a block and below, from the last on. -/
def entryBlocks (fs : DataVol) (x : Freeing) (k bn n : ℕ) : List ℕ :=
  (List.range n).reverse.flatMap fun i =>
    if x.ent fs bn i = 0 then [] else Radix.blocks fs.FsNINDIR (x.ent fs) k (x.ent fs bn i)

omit hbs in
theorem entryBlocks_succ : entryBlocks fs x k bn (n + 1) =
    (if x.ent fs bn n = 0 then [] else Radix.blocks fs.FsNINDIR (x.ent fs) k (x.ent fs bn n)) ++
      entryBlocks fs x k bn n := by
  rw [entryBlocks, range_succ, reverse_append, flatMap_append]
  simp [entryBlocks]

omit hbs in
theorem Freed.entryBlocks {y : Freeing} {l : List ℕ} (h : Freed fs x y l) (hbn : bn ∉ l)
    (hn : n ≤ fs.FsNINDIR) (hdis : ∀ c ∈ entryBlocks fs x k bn n, c ∉ l) :
    entryBlocks fs y k bn n = entryBlocks fs x k bn n := by
  refine flatMap_congr fun i hi => ?_
  have hin : i < n := mem_range.mp (mem_reverse.mp hi)
  rw [h.kept bn hbn i (by omega)]
  split_ifs with h0
  · rfl
  · refine h.blocks fun c hc => hdis c (mem_flatMap.mpr ⟨i, hi, ?_⟩)
    rw [if_neg h0]
    exact hc

omit hbs in
/-- The loop over the entries of a block. -/
theorem tloop_freed {free : ℕ → Freeing → Freeing} (hfree : Frees fs k free)
    (hn : n ≤ fs.FsNINDIR) (hnodup : (entryBlocks fs x k bn n).Nodup)
    (hbn : bn ∉ entryBlocks fs x k bn n)
    (hgood : ∀ c ∈ entryBlocks fs x k bn n, fs.s5badblock c = false) :
    Freed fs x (tloop fs free bn n x) (entryBlocks fs x k bn n) := by
  induction n generalizing x with
  | zero => exact Freed.refl
  | succ n ih =>
    have hread : x.buf (bn * (fs.bsize / 1024) + n >>> 8) (n &&& 255) = x.ent fs bn n := by
      rw [Freeing.ent, Nat.shiftRight_eq_div_pow, show (255 : ℕ) = 2 ^ 8 - 1 by norm_num,
        Nat.and_two_pow_sub_one_eq_mod]
    rw [entryBlocks_succ] at hnodup hbn hgood ⊢
    unfold tloop
    dsimp only
    rw [hread]
    by_cases h0 : x.ent fs bn n = 0
    · rw [if_pos h0] at hnodup hbn hgood ⊢
      rw [if_pos h0]
      exact ih (by omega) hnodup hbn hgood
    · rw [if_neg h0] at hnodup hbn hgood ⊢
      rw [if_neg h0]
      obtain ⟨hnd1, hnd2, hdis⟩ := nodup_append.mp hnodup
      rw [mem_append, not_or] at hbn
      have hone := hfree (x.ent fs bn n) x hnd1 fun c hc => hgood c (mem_append_left _ hc)
      -- the entries still to come are what they were
      have hrest := hone.entryBlocks (k := k) (n := n) hbn.1 (by omega)
        fun c hc hc' => hdis c hc' c hc rfl
      have hloop := ih (x := free (x.ent fs bn n) x) (by omega) (by rw [hrest]; exact hnd2)
        (by rw [hrest]; exact hbn.2)
        (by rw [hrest]; exact fun c hc => hgood c (mem_append_right _ hc))
      rw [hrest] at hloop
      exact hone.trans hloop

/-- One more level: the loop, and then the block itself. -/
theorem loop_frees (spill : ℕ → Option (ℕ → ℕ)) {free : ℕ → Freeing → Freeing}
    (hfree : Frees fs k free) : Frees fs (k + 1) fun bn x =>
      Freeing.s5free fs spill (tloop fs free bn fs.FsNINDIR x) bn := by
  intro b x hnodup hgood
  have hblocks : Radix.blocks fs.FsNINDIR (x.ent fs) (k + 1) b =
      entryBlocks fs x k b fs.FsNINDIR ++ [b] := rfl
  rw [hblocks] at hnodup hgood ⊢
  obtain ⟨hnd, -, hdis⟩ := nodup_append.mp hnodup
  have hb : b ∉ entryBlocks fs x k b fs.FsNINDIR :=
    fun hmem => hdis b hmem b (mem_singleton_self b) rfl
  exact (tloop_freed hfree le_rfl hnd hb fun c hc => hgood c (mem_append_left _ hc)).trans
    (s5free_freed hbs (hgood b (mem_append_right _ (mem_singleton_self b))))

theorem s5tloop_frees (spill : ℕ → Option (ℕ → ℕ)) :
    Frees fs 1 (s5tloop fs spill false false) ∧ Frees fs 2 (s5tloop fs spill true false) ∧
      Frees fs 3 (s5tloop fs spill true true) := by
  have h1 := loop_frees hbs spill (s5free_frees hbs spill)
  have h2 := loop_frees hbs spill h1
  exact ⟨h1, h2, loop_frees hbs spill h2⟩

/-! ## The addresses of the inode -/

theorem truncLoop_freed {save : ℕ → ℕ} (x : Freeing) (hn : n ≤ NADDR)
    (hnodup : (Radix.allBlocks fs.FsNINDIR depth save (x.ent fs) (List.range n).reverse).Nodup)
    (hgood : ∀ c ∈ Radix.allBlocks fs.FsNINDIR depth save (x.ent fs) (List.range n).reverse,
      fs.s5badblock c = false) :
    Freed fs x (truncLoop fs spill save n x)
      (Radix.allBlocks fs.FsNINDIR depth save (x.ent fs) (List.range n).reverse) := by
  induction n generalizing x with
  | zero => exact Freed.refl
  | succ n ih =>
    have hsplit : ∀ x : Freeing, Radix.allBlocks fs.FsNINDIR depth save (x.ent fs)
        (List.range (n + 1)).reverse =
        (if save n = 0 then [] else Radix.blocks fs.FsNINDIR (x.ent fs) (depth n) (save n)) ++
          Radix.allBlocks fs.FsNINDIR depth save (x.ent fs) (List.range n).reverse := by
      intro x
      rw [Radix.allBlocks, range_succ, reverse_append, flatMap_append]
      simp [Radix.allBlocks]
    rw [hsplit] at hnodup hgood ⊢
    unfold truncLoop
    dsimp only
    by_cases h0 : save n = 0
    · rw [if_pos h0] at hnodup hgood ⊢
      rw [if_pos h0]
      exact ih x (by omega) hnodup hgood
    · rw [if_neg h0] at hnodup hgood ⊢
      rw [if_neg h0]
      obtain ⟨hnd1, hnd2, hdis⟩ := nodup_append.mp hnodup
      have hgood1 := fun c hc => hgood c (mem_append_left _ hc)
      obtain ⟨h1, h2, h3⟩ := s5tloop_frees hbs spill
      -- the routine for each address frees what its depth says
      have hone : Freed fs x
          (if n = NADDR - 3 then s5tloop fs spill false false (save n) x
          else if n = NADDR - 2 then s5tloop fs spill true false (save n) x
          else if n = NADDR - 1 then s5tloop fs spill true true (save n) x
          else x.s5free fs spill (save n))
          (Radix.blocks fs.FsNINDIR (x.ent fs) (depth n) (save n)) := by
        by_cases hn1 : n = NADDR - 3
        · rw [if_pos hn1]
          rw [show depth n = 1 by rw [hn1]; rfl] at hnd1 hgood1 ⊢
          exact h1 _ _ hnd1 hgood1
        · rw [if_neg hn1]
          by_cases hn2 : n = NADDR - 2
          · rw [if_pos hn2]
            rw [show depth n = 2 by rw [hn2]; rfl] at hnd1 hgood1 ⊢
            exact h2 _ _ hnd1 hgood1
          · rw [if_neg hn2]
            by_cases hn3 : n = NADDR - 1
            · rw [if_pos hn3]
              rw [show depth n = 3 by rw [hn3]; rfl] at hnd1 hgood1 ⊢
              exact h3 _ _ hnd1 hgood1
            · rw [if_neg hn3]
              have hd : depth n = 0 := by
                simp only [NADDR] at hn hn1 hn2 hn3
                simp only [depth, NADDR]
                omega
              rw [hd] at hnd1 hgood1 ⊢
              exact s5free_frees hbs spill _ _ hnd1 hgood1
      generalize (if n = NADDR - 3 then _ else _ : Freeing) = y at hone ⊢
      have hrest : Radix.allBlocks fs.FsNINDIR depth save (y.ent fs) (List.range n).reverse =
          Radix.allBlocks fs.FsNINDIR depth save (x.ent fs) (List.range n).reverse := by
        refine flatMap_congr fun i hi => ?_
        by_cases hi0 : save i = 0
        · rw [if_pos hi0, if_pos hi0]
        · rw [if_neg hi0, if_neg hi0]
          refine hone.blocks fun c hc hc' => hdis c hc' c (mem_flatMap.mpr ⟨i, hi, ?_⟩) rfl
          rw [if_neg hi0]
          exact hc
      have hloop := ih y (by omega) (by rw [hrest]; exact hnd2)
        (by rw [hrest]; exact fun c hc => hgood c (mem_append_right _ hc))
      rw [hrest] at hloop
      exact hone.trans hloop

/-- What truncation owes to `s5alloc`: it frees the blocks that were taken, each once, and nothing
else, and what was cleared for a block is its own first buffer. -/
structure GivesBack (fs : DataVol) (spill : ℕ → Option (ℕ → ℕ)) (t : S5File) : Prop where
  perm : (t.s5itrunc fs spill).1.Perm (t.taken.map Prod.fst)
  nodup : (t.s5itrunc fs spill).1.Nodup
  cleared : ∀ x ∈ t.taken, x.2 = x.1 * (fs.bsize / fs.FsBSIZE)

theorem Tree.givesBack (h : Tree fs t) (htype : t.type ≠ .ififo) :
    GivesBack fs spill t := by
  have hslots : (List.range NADDR).reverse.Nodup := nodup_reverse.mpr nodup_range
  have hnodup := Radix.nodup_allBlocks h.inj hslots
  -- the blocks at the thirteen addresses are the ones that were taken
  have hmem : ∀ b, b ∈ Radix.allBlocks fs.FsNINDIR depth t.addr (t.ent fs)
      (List.range NADDR).reverse ↔ b ∈ t.taken.map Prod.fst := by
    intro b
    rw [Radix.mem_allBlocks, ← h.mem_taken b]
    constructor
    · rintro ⟨T, -, p, hv, hat, hne⟩
      exact ⟨T, p, hv, hat, hne⟩
    · rintro ⟨T, p, hv, hat, hne⟩
      refine ⟨T, ?_, p, hv, hat, hne⟩
      rw [mem_reverse, mem_range]
      by_contra hT
      have hz : t.blockAt fs T ([] : List ℕ) = 0 := h.outside T (by omega)
      have := blockAt_append_zero hz p
      rw [append_nil, hat] at this
      exact hne this
  have hgood : ∀ c ∈ Radix.allBlocks fs.FsNINDIR depth t.addr (t.ent fs)
      (List.range NADDR).reverse, fs.s5badblock c = false := by
    intro c hc
    obtain ⟨x, hx, rfl⟩ := mem_map.mp ((hmem c).mp hc)
    exact (h.data x hx).1
  have hfreed : (truncLoop fs spill t.addr NADDR ⟨t.buf, []⟩).freed = [] ++ _ :=
    (truncLoop_freed hbs ⟨t.buf, []⟩ le_rfl hnodup hgood).freed
  rw [nil_append] at hfreed
  have htrunc : (t.s5itrunc fs spill).1 = Radix.allBlocks fs.FsNINDIR depth t.addr (t.ent fs)
      (List.range NADDR).reverse := by
    unfold s5itrunc
    rw [if_neg htype]
    exact hfreed
  refine ⟨?_, by rw [htrunc]; exact hnodup, fun x hx => ?_⟩
  · rw [htrunc]
    exact (perm_ext_iff_of_nodup hnodup (nodup_append.mp h.nodup).1).mpr hmem
  · rw [(h.data x hx).2, show fs.FsBSIZE = 1024 from if_neg (by omega)]

end

/-! ## Blocks of 512 bytes -/

theorem clear_addr (n c : ℕ) (s : S5File) : (s.clear n c).addr = s.addr := by
  rw [clear_eq]

/-- A block of 512 bytes gets the address 0. -/
theorem newBlock_small (hbs : fs.bsize < 1024) {s u : S5File} {nb : ℕ}
    (h : s.newBlock fs = some (nb, u)) : nb = 0 ∧ u.addr = s.addr := by
  unfold newBlock s5alloc at h
  cases hd : s.free.dropWhile fs.s5badblock with
  | nil =>
    rw [hd] at h
    cases h
  | cons v rest =>
    rw [hd] at h
    simp only [Option.some.injEq, Prod.mk.injEq] at h
    obtain ⟨rfl, rfl⟩ := h
    refine ⟨?_, clear_addr ..⟩
    rw [if_neg (by omega), Nat.div_eq_of_lt hbs]
    simp [DataVol.LTOPBLK, DataVol.FsPTOL]

theorem fetch_addr (hbs : fs.bsize < 1024) (readflg : Bool) (bn n sh nb : ℕ) (s : S5File) :
    (s.fetch fs readflg bn n sh nb).2.addr = s.addr := by
  induction n generalizing sh nb s with
  | zero => rfl
  | succ n ih =>
    unfold fetch
    dsimp only
    split
    · split
      · rfl
      · split
        · rfl
        · rename_i hnb
          rw [ih]
          exact (newBlock_small hbs hnb).2
    · rw [ih]

theorem address_small (hbs : fs.bsize < 1024) (readflg : Bool) (i : ℕ) {s : S5File}
    (h : ∀ t, s.addr t = 0) (t : ℕ) : (s.address fs readflg i).2.addr t = 0 := by
  unfold address
  rw [if_pos (h i)]
  split
  · exact h t
  · split
    · exact h t
    · rename_i hnb
      obtain ⟨rfl, haddr⟩ := newBlock_small hbs hnb
      dsimp only
      rw [haddr]
      rw [update_apply]
      split_ifs with ht
      · rfl
      · rw [h t]

theorem step_small (hbs : fs.bsize < 1024) {s u : S5File} {e : FileEvent}
    (h : ∀ t, s.addr t = 0) (hu : s.step fs e = some u) (t : ℕ) : u.addr t = 0 := by
  have hblock : ∀ readflg bn, (s.block fs readflg bn).2.addr t = 0 := by
    intro readflg bn
    unfold block
    split
    · exact address_small hbs readflg bn h t
    · split
      · exact h t
      · rename_i j sh bn' _
        have ha := address_small hbs readflg (NADDR - j) h t
        split
        · rename_i nb v hv
          rw [fetch_addr hbs]
          rwa [hv] at ha
        · exact ha
  have hbmap : ∀ readflg o c l, (s.s5bmap fs readflg o c l).2.addr t = 0 := by
    intro readflg o c l
    unfold s5bmap
    dsimp only
    generalize (if s.type = .ififo then s.iSize else s.iSize - o) = rem
    split
    · exact h t
    · split
      · exact h t
      · split
        · exact h t
        · have hb := hblock readflg (o >>> fs.FsBSHIFT)
          split
          · rename_i nb v hv
            rw [hv] at hb
            split <;> exact hb
          · exact hb
  cases e with
  | setSize n =>
    cases hu
    exact h t
  | s5bmap readflg o c l words =>
    have hb := hbmap readflg o c l
    unfold step at hu
    dsimp only at hu
    cases hr : s.s5bmap fs readflg o c l with
    | mk r v =>
      rw [hr] at hu hb
      cases r with
      | blk nb =>
        cases hu
        cases readflg <;> exact hb
      | hole | efbig | enospc =>
        cases hu
        exact hb

theorem truncLoop_zero (save : ℕ → ℕ) (hsave : ∀ t, save t = 0) (n : ℕ) (x : Freeing) :
    truncLoop fs spill save n x = x := by
  induction n with
  | zero => rfl
  | succ n ih =>
    unfold truncLoop
    dsimp only
    rw [if_pos (hsave n), ih]

/-- **Truncation gives back what mapping took.**  In every history of a file that was empty on a
device where no block is free twice, whatever a full array of free blocks spills: `s5itrunc` then
frees the blocks that `s5alloc` gave to the file, each once, and no others, and
`s5alloc` cleared their own buffers, if and only if the blocks have at least 1024 bytes or
there are none. -/
theorem s5itrunc_exact (fs : DataVol) (spill : ℕ → Option (ℕ → ℕ)) {s t : S5File}
    {es : List FileEvent} (hs : s.Fresh) (htype : s.type ≠ .ififo)
    (ht : exec (step fs) s es = some t) :
    GivesBack fs spill t ↔ 1024 ≤ fs.bsize ∨ t.taken = [] := by
  by_cases hbs : 1024 ≤ fs.bsize
  · obtain ⟨htree, htype', -⟩ := exec_tree hbs hs.tree ht
    exact ⟨fun _ => .inl hbs, fun _ => htree.givesBack hbs (by rw [htype']; exact htype)⟩
  · have hsmall := Nat.lt_of_not_le hbs
    have haddr : ∀ i, t.addr i = 0 :=
      exec_invariant' (P := fun t => ∀ i, t.addr i = 0)
        (fun _ _ _ h he => step_small hsmall h he) hs.addr ht
    have hfreed : (t.s5itrunc fs spill).1 = [] := by
      unfold s5itrunc
      split
      · rfl
      · rw [truncLoop_zero _ haddr]
    constructor
    · intro h
      have hperm := h.perm
      rw [hfreed] at hperm
      exact .inr (map_eq_nil_iff.mp hperm.nil_eq.symm)
    · rintro (h | h)
      · exact absurd h hbs
      · refine ⟨by rw [hfreed, h]; rfl, by rw [hfreed]; exact nodup_nil, fun x hx => ?_⟩
        rw [h] at hx
        cases hx

/-- A hundred blocks of 512 bytes. -/
def vol512 : DataVol := ⟨⟨512, 4, blank512.bsize_mem⟩, 100, by decide, by decide⟩

/-- A write to the first unit of a file. -/
def oneWrite : List FileEvent := [.s5bmap false 0 512 8 fun _ => 1]

/-- Block 10 was taken for the file, buffer 0 was cleared for it, and nothing is freed. -/
theorem nothing_freed : ∃ s t, s.Fresh ∧ s.type = .ifreg ∧ exec (step vol512) s oneWrite = some t ∧
    t.taken = [(10, 0)] ∧ (t.s5itrunc vol512 fun _ => none).1 = [] ∧
    ¬ GivesBack vol512 (fun _ => none) t := by
  refine ⟨emptyFile 512 [10], _, fresh_emptyFile (by decide), rfl, rfl, rfl, rfl, fun h => ?_⟩
  exact absurd h.perm.length_eq (by decide)

theorem s5itrunc_exact_twoWrites : ∃ t, exec (step vol2048) (emptyFile 2048 [10, 11]) twoWrites =
    some t ∧ GivesBack vol2048 (fun _ => none) t := by
  have hfresh : (emptyFile 2048 [10, 11]).Fresh := fresh_emptyFile (by decide)
  have hrun : exec (step vol2048) (emptyFile 2048 [10, 11]) twoWrites = some _ := rfl
  exact ⟨_, hrun, (s5itrunc_exact vol2048 _ hfresh (by decide) hrun).mpr (.inl (by decide))⟩

end S5File

end Fs
