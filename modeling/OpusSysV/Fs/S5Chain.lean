import OpusSysV.Fs.S5Alloc

/-!
# Every data block is in one place

* `Linked` — the blocks an array of addresses leads to, through the link blocks on the
  disk; `Linked.pop` and `Linked.push` take an address from its end and put one there.
* `Listed` — the free list of a file system, also while `s_flock` is held and the array
  is on its way to or from the disk.
* `Good` — every data block is on the free list, in the hands of a call in progress or
  allocated, in exactly one of these.
* `s5alloc_conserves` — what `s5alloc` and `s5free` do to the free list, in any order of
  calls, and when `s_tfree` counts it.
-/

namespace Fs

open Lib Function List

variable {vol : Volume} {blk blk' : ℤ → Fblk} {d : Disk} {a b bno : ℤ}
  {rest blocks blocks' : List ℤ}

/-! ## The chain -/

/-- The first `n` addresses of an array. -/
def entries (n : ℕ) (arr : ℕ → ℤ) : List ℤ := (List.range n).map arr

theorem entries_succ (n : ℕ) (arr : ℕ → ℤ) : entries (n + 1) arr = entries n arr ++ [arr n] := by
  unfold entries
  rw [range_succ, map_append, map_singleton]

theorem entries_cons (n : ℕ) (arr : ℕ → ℤ) :
    entries (n + 1) arr = arr 0 :: entries n fun i => arr (i + 1) := by
  unfold entries
  rw [range_succ_eq_map, map_cons, map_map]
  rfl

theorem entries_update (n : ℕ) (arr : ℕ → ℤ) (b : ℤ) :
    entries n (update arr n b) = entries n arr := by
  unfold entries
  refine map_congr_left fun i hi => ?_
  rw [update_of_ne (mem_range.mp hi).ne]

/-- The blocks that an array of addresses leads to: those after slot 0, and, unless that
holds 0, the block there and what its own array leads to. -/
inductive Linked (blk : ℤ → Fblk) : List ℤ → List ℤ → Prop
  | last (rest : List ℤ) : Linked blk (0 :: rest) rest
  | link {b : ℤ} {rest more : List ℤ} {n : ℕ} (hb : b ≠ 0) (hn : (blk b).dfNfree = n)
      (hpos : 0 < n) (hle : n ≤ NICFREE) (h : Linked blk (entries n (blk b).dfFree) more) :
      Linked blk (b :: rest) (b :: rest ++ more)

/-- A block that holds an array of addresses, and the blocks that leads to. -/
def LinkBlock (blk : ℤ → Fblk) (b : ℤ) (blocks : List ℤ) : Prop :=
  ∃ n : ℕ, (blk b).dfNfree = n ∧ 0 < n ∧ n ≤ NICFREE ∧ Linked blk (entries n (blk b).dfFree) blocks

/-- Only the blocks of the chain matter. -/
theorem Linked.congr (h : Linked blk rest blocks) (heq : ∀ b ∈ blocks, blk' b = blk b) :
    Linked blk' rest blocks := by
  induction h with
  | last rest => exact .last rest
  | link hb hn hpos hle h ih =>
    have hb' := heq _ (mem_append_left _ mem_cons_self)
    refine .link hb (by rw [hb']; exact hn) hpos hle ?_
    rw [hb']
    exact ih fun c hc => heq c (mem_append_right _ hc)

theorem LinkBlock.congr (h : LinkBlock blk b blocks) (hb : blk' b = blk b)
    (heq : ∀ c ∈ blocks, blk' c = blk c) : LinkBlock blk' b blocks := by
  obtain ⟨n, h1, h2, h3, h4⟩ := h
  exact ⟨n, by rw [hb]; exact h1, h2, h3, by rw [hb]; exact h4.congr heq⟩

/-- An address is taken from the end of the array. -/
theorem Linked.pop (h : Linked blk (a :: rest ++ [b]) blocks) :
    ∃ blocks', Linked blk (a :: rest) blocks' ∧ blocks.Perm (b :: blocks') := by
  rw [cons_append] at h
  cases h with
  | last => exact ⟨rest, .last rest, perm_append_singleton b rest⟩
  | @link _ _ more n hb hn hpos hle h =>
    refine ⟨a :: rest ++ more, .link hb hn hpos hle h, ?_⟩
    rw [cons_append, append_assoc, singleton_append]
    exact @perm_middle _ b (a :: rest) more

/-- An address is put at the end of the array. -/
theorem Linked.push (b : ℤ) (h : Linked blk (a :: rest) blocks) :
    ∃ blocks', Linked blk (a :: rest ++ [b]) blocks' ∧ blocks'.Perm (b :: blocks) := by
  cases h with
  | last => exact ⟨rest ++ [b], .last _, perm_append_singleton b rest⟩
  | @link _ _ more n hb hn hpos hle h =>
    refine ⟨a :: (rest ++ [b]) ++ more, .link hb hn hpos hle h, ?_⟩
    rw [cons_append, append_assoc, singleton_append]
    exact @perm_middle _ b (a :: rest) more

/-- The addresses after slot 0 are those of free blocks. -/
theorem Linked.mem_of_mem_rest (h : Linked blk (a :: rest) blocks) (hb : b ∈ rest) :
    b ∈ blocks := by
  cases h with
  | last => exact hb
  | link => exact mem_append_left _ (mem_cons_of_mem _ hb)

/-- The last address of an array of one or of several. -/
theorem Linked.cases_last {n : ℕ} {arr : ℕ → ℤ} (h : Linked blk (entries (n + 1) arr) blocks) :
    (n = 0 ∧ arr 0 = 0 ∧ blocks = []) ∨
    (n = 0 ∧ arr 0 ∈ blocks ∧ ∃ more, blocks = arr 0 :: more ∧ LinkBlock blk (arr 0) more) ∨
    (0 < n ∧ arr n ∈ blocks ∧ ∃ blocks', Linked blk (entries n arr) blocks' ∧
      blocks.Perm (arr n :: blocks')) := by
  cases n with
  | zero =>
    rw [entries_cons] at h
    generalize hr : entries 0 (fun i => arr (i + 1)) = r at h
    generalize hx : arr 0 = x at h
    obtain rfl : r = [] := hr.symm
    cases h with
    | last => exact Or.inl ⟨rfl, rfl, rfl⟩
    | @link _ _ more n hb hn hpos hle h =>
      exact Or.inr (Or.inl ⟨rfl, by simp, more, rfl, n, hn, hpos, hle, h⟩)
  | succ n =>
    have hmem : arr (n + 1) ∈ blocks := by
      rw [entries_cons, entries_succ] at h
      exact h.mem_of_mem_rest (by simp)
    rw [entries_succ, entries_cons] at h
    obtain ⟨blocks', h1, h2⟩ := h.pop
    exact Or.inr (Or.inr ⟨by omega, hmem, blocks', by rwa [entries_cons], h2⟩)

/-! ## The free list -/

/-- The free list when `s_flock` is not held. -/
def InArray (d : Disk) (blocks : List ℤ) : Prop :=
  (d.fp.sNfree = 0 ∧ blocks = []) ∨
    ∃ n : ℕ, d.fp.sNfree = n ∧ 0 < n ∧ n ≤ NICFREE ∧ Linked d.blk (entries n d.fp.sFree) blocks

/-- Whether a call in progress holds `s_flock`. -/
def Pc.holds : Pc → Bool
  | .allocRead _ | .freeBuf _ | .freeWrite _ => true
  | _ => false

/-- The block a call in progress is about. -/
def Pc.block : Pc → List ℤ
  | .allocWait => []
  | .allocRead bno | .allocBuf bno | .freeWait bno | .freeBuf bno | .freeWrite bno => [bno]

/-- Whether a call of `s5alloc` has taken its block but not counted it yet. -/
def Pc.taken : Pc → Bool
  | .allocRead _ | .allocBuf _ => true
  | _ => false

/-- The free list, given the calls that hold `s_flock`. -/
inductive Listed (d : Disk) : List Pc → List ℤ → Prop
  | idle {blocks : List ℤ} (h0 : d.fp.sFlock = 0) (h : InArray d blocks) : Listed d [] blocks
  /-- The array is being read from the block that `s5alloc` took. -/
  | read {blocks : List ℤ} {bno : ℤ} (h1 : d.fp.sFlock ≠ 0) (h0 : d.fp.sNfree = 0)
      (h : LinkBlock d.blk bno blocks) : Listed d [.allocRead bno] blocks
  /-- The full array is about to be written. -/
  | spill {blocks : List ℤ} {bno : ℤ} (h1 : d.fp.sFlock ≠ 0) (h50 : d.fp.sNfree = NICFREE)
      (h : Linked d.blk (entries NICFREE d.fp.sFree) blocks) : Listed d [.freeBuf bno] blocks
  /-- The array has been written into the block that `s5free` frees. -/
  | spilled {blocks : List ℤ} {bno : ℤ} (h1 : d.fp.sFlock ≠ 0) (h0 : d.fp.sNfree = 0)
      (h : LinkBlock d.blk bno blocks) : Listed d [.freeWrite bno] blocks

/-- Nothing but the blocks of the chain, and the link block a holder of `s_flock` has,
matters for the free list. -/
theorem Listed.congr {d' : Disk} {hs : List Pc} (h : Listed d hs blocks)
    (hnfree : d'.fp.sNfree = d.fp.sNfree) (hfree : d'.fp.sFree = d.fp.sFree)
    (hflock : d'.fp.sFlock = d.fp.sFlock) (hblk : ∀ b ∈ blocks, d'.blk b = d.blk b)
    (hheld : ∀ b ∈ hs.flatMap Pc.block, d'.blk b = d.blk b) : Listed d' hs blocks := by
  cases h with
  | idle h0 h =>
    refine .idle (hflock.trans h0) ?_
    rcases h with ⟨h1, h2⟩ | ⟨n, h1, h2, h3, h4⟩
    · exact Or.inl ⟨hnfree.trans h1, h2⟩
    · exact Or.inr ⟨n, hnfree.trans h1, h2, h3, by rw [hfree]; exact h4.congr hblk⟩
  | read h1 h0 h =>
    exact .read (by rwa [hflock]) (hnfree.trans h0) (h.congr (hheld _ (by simp [Pc.block])) hblk)
  | spill h1 h50 h =>
    exact .spill (by rwa [hflock]) (hnfree.trans h50) (by rw [hfree]; exact h.congr hblk)
  | spilled h1 h0 h =>
    exact .spilled (by rwa [hflock]) (hnfree.trans h0) (h.congr (hheld _ (by simp [Pc.block])) hblk)

theorem Listed.nil_of_flock {hs : List Pc} (h : Listed d hs blocks) (h0 : d.fp.sFlock = 0) :
    hs = [] := by
  cases h with
  | idle => rfl
  | read h1 | spill h1 | spilled h1 => exact absurd h0 h1

/-! ## One call, from one sleep to the next -/

/-- Between the free list before and the one after, what an outcome tells. -/
def Outcome.Ok (blocks blocks' : List ℤ) : Outcome → Prop
  | .sleeps _ => ∀ b ∈ blocks', b ∈ blocks
  | .gives _ => blocks' = blocks
  | .enospc => blocks = []
  | .freed bno => blocks'.Perm (bno :: blocks)
  | .badFree _ => False
  | .wrote => blocks' = blocks

/-- A piece of a call that no holder of `s_flock` disturbs: it leaves a free list, the
blocks it has in hand and those of the list stay in one place each, and it keeps the count
of free blocks, unless it finds none while others have blocks they have not counted. -/
structure Ran (d : Disk) (hand : List ℤ) (taken : ℕ) (blocks : List ℤ) (r : Outcome × Disk)
    (blocks' : List ℤ) : Prop where
  listed : Listed r.2 (r.1.calls.filter Pc.holds) blocks'
  place : ∀ b, blocks'.count b + (r.1.calls.flatMap Pc.block).count b + r.1.given.count b =
    blocks.count b + hand.count b
  ok : r.1.Ok blocks blocks'
  tfree : ∀ k : ℕ, (r.1 = .enospc → k = 0) → d.fp.sTfree = blocks.length + k + taken →
    r.2.fp.sTfree = blocks'.length + k + (r.1.calls.countP Pc.taken : ℕ)

/-- The blocks between the i-list and the end of the volume. -/
def Volume.Data (vol : Volume) (b : ℤ) : Prop := vol.sIsize ≤ b ∧ b < vol.sFsize

theorem s5badblock_eq_false (h : vol.Data b) : s5badblock vol b = false := by
  unfold s5badblock
  obtain ⟨h1, h2⟩ := h
  simp only [decide_eq_false_iff_not]
  omega

theorem Volume.Data.ne_zero (h : vol.Data b) : b ≠ 0 := by
  have h1 := h.1
  have h2 := vol.isize_pos
  omega

/-- The loop of `s5alloc` takes the last address, which is never a bad one. -/
theorem takeFree_succ {arr : ℕ → ℤ} {n : ℕ} (h : vol.Data (arr n)) :
    takeFree vol arr (n + 1) = some (arr n, n) := by
  rw [takeFree, if_neg h.ne_zero, s5badblock_eq_false h]
  rfl

theorem nospace_ran (h0 : d.fp.sFlock = 0) : Ran d [] 0 [] d.nospace [] := by
  refine ⟨.idle h0 (Or.inl ⟨rfl, rfl⟩), by simp [Disk.nospace, Outcome.calls, Outcome.given], rfl,
    fun k hk _ => ?_⟩
  rw [hk rfl]
  rfl

theorem allocCheck_eq (h0 : 0 < d.fp.sNfree) (h1 : d.fp.sNfree ≤ (NICFREE : ℤ)) :
    d.allocCheck bno = (.sleeps (.allocBuf bno), d) := by
  unfold Disk.allocCheck
  rw [if_neg (by omega)]

theorem s5alloc_ran (h : Listed d [] blocks) (hdata : ∀ b ∈ blocks, vol.Data b) :
    ∃ blocks', Ran d [] 0 blocks (d.s5alloc vol) blocks' := by
  cases h with
  | idle h0 h =>
    unfold Disk.s5alloc
    rw [if_neg (by omega)]
    rcases h with ⟨hn, rfl⟩ | ⟨n, hn, hpos, hle, h⟩
    · rw [hn]
      exact ⟨[], nospace_ran h0⟩
    obtain ⟨m, rfl⟩ : ∃ m, n = m + 1 := ⟨n - 1, by omega⟩
    rw [hn, Int.toNat_natCast]
    rcases h.cases_last with ⟨rfl, hz, rfl⟩ | ⟨rfl, hmem, more, rfl, hlink⟩ | ⟨hm, hmem, more, hl, hp⟩
    · -- the end of the chain
      rw [takeFree, if_pos hz]
      exact ⟨[], nospace_ran h0⟩
    · -- the last address of the array: it is to be read from the block
      rw [takeFree_succ (hdata _ hmem)]
      refine ⟨more, .read (by simp) rfl hlink, fun b => ?_, fun b hb => mem_cons_of_mem _ hb,
        fun k _ hk => ?_⟩
      · simp [Outcome.calls, Outcome.given, Pc.block, count_cons]
      · simp only [length_cons] at hk
        simp [Outcome.calls, Pc.taken, hk]
        omega
    · -- one of several
      rw [takeFree_succ (hdata _ hmem)]
      have hpos' : ¬ ((m : ℤ) ≤ 0) := by omega
      simp only [if_neg hpos']
      rw [allocCheck_eq (by simp only; omega) (by simp only; omega)]
      refine ⟨more, .idle h0 (Or.inr ⟨m, rfl, hm, by omega, hl⟩), fun b => ?_, fun b hb => ?_,
        fun k _ hk => ?_⟩
      · rw [hp.count_eq]
        simp [Outcome.calls, Outcome.given, Pc.block, count_cons]
      · exact hp.mem_iff.mpr (mem_cons_of_mem _ hb)
      · rw [hp.length_eq] at hk
        simp only [length_cons] at hk
        simp [Outcome.calls, Pc.taken, hk]
        omega

theorem allocRead_ran (h : Listed d [.allocRead bno] blocks) :
    Ran d [bno] 1 blocks (d.allocRead bno) blocks ∧ (d.allocRead bno).1 ≠ .enospc := by
  cases h with
  | read h1 h0 h =>
    obtain ⟨n, hn, hpos, hle, hl⟩ := h
    have hn50 : n ≤ 50 := hle
    have hshort : short (d.blk bno).dfNfree = n := by rw [hn]; exact short_eq (by omega)
    unfold Disk.allocRead
    rw [allocCheck_eq (by simp only [hshort]; omega) (by simp only [hshort]; omega)]
    refine ⟨⟨.idle rfl (Or.inr ⟨n, hshort, hpos, hle, hl⟩), fun b => ?_, fun b hb => hb,
      fun k _ hk => ?_⟩, by simp⟩
    · simp [Outcome.calls, Outcome.given, Pc.block]
    · simpa [Outcome.calls, Pc.taken] using hk

theorem s5free_ran (h : Listed d [] blocks) (hdata : vol.Data bno) :
    (∃ blocks', Ran d [bno] 0 blocks (d.s5free vol bno) blocks') ∧
      (d.s5free vol bno).1 ≠ .enospc := by
  cases h with
  | idle h0 h =>
    unfold Disk.s5free
    rw [if_neg (by omega), s5badblock_eq_false hdata]
    simp only [Bool.false_eq_true, if_false]
    rcases h with ⟨hn, rfl⟩ | ⟨n, hn, hpos, hle, h⟩
    · -- an empty list: the end of the chain goes in first
      rw [if_pos hn.le, if_neg (by simp [NICFREE])]
      refine ⟨⟨[bno], .idle h0 (Or.inr ⟨2, rfl, by omega, by simp [NICFREE], ?_⟩), fun b => ?_,
        List.Perm.refl _, fun k _ hk => ?_⟩, by simp [Disk.freePush]⟩
      · exact .last [bno]
      · simp [Disk.freePush, Outcome.calls, Outcome.given]
      · simp only [Disk.freePush, hk, Outcome.calls]
        simp
        omega
    have hsome : ¬ d.fp.sNfree ≤ 0 := by omega
    rw [if_neg hsome]
    split_ifs
    · have hn50 : n = NICFREE := by omega
      refine ⟨⟨blocks, .spill (by simp) (by rw [hn, hn50]) (by rwa [hn50] at h), fun b => ?_,
        fun b hb => hb, fun k _ hk => ?_⟩, by simp⟩
      · simp [Outcome.calls, Outcome.given, Pc.block]
      · simpa [Outcome.calls, Pc.taken] using hk
    · obtain ⟨m, rfl⟩ : ∃ m, n = m + 1 := ⟨n - 1, by omega⟩
      rw [entries_cons] at h
      obtain ⟨blocks', h1, h2⟩ := h.push bno
      refine ⟨⟨blocks', .idle h0 (Or.inr ⟨m + 2, ?_, by omega, by omega, ?_⟩), fun b => ?_, h2,
        fun k _ hk => ?_⟩, by simp [Disk.freePush]⟩
      · simp only [Disk.freePush, hn]
        push_cast
        ring
      · simp only [Disk.freePush, hn, Int.toNat_natCast]
        rw [entries_succ, entries_update, update_self, entries_cons]
        exact h1
      · rw [h2.count_eq]
        simp [Disk.freePush, Outcome.calls, Outcome.given, count_cons]
      · rw [h2.length_eq]
        simp only [Disk.freePush, hk, Outcome.calls, length_cons]
        simp
        omega

theorem freeBuf_ran (h : Listed d [.freeBuf bno] blocks) (hbno : bno ∉ blocks) :
    Ran d [bno] 0 blocks (d.freeBuf bno) blocks := by
  cases h with
  | spill h1 h50 h =>
    refine ⟨.spilled h1 rfl ⟨NICFREE, ?_, by simp [NICFREE], le_rfl, ?_⟩, fun b => ?_,
      fun b hb => hb, fun k _ hk => ?_⟩
    · simp only [Disk.freeBuf, update_self, h50]
    · simp only [Disk.freeBuf, update_self]
      refine h.congr fun b hb => update_of_ne ?_ _ _
      rintro rfl
      exact hbno hb
    · simp [Disk.freeBuf, Outcome.calls, Outcome.given, Pc.block]
    · simpa [Disk.freeBuf, Outcome.calls, Pc.taken] using hk

theorem freeWrite_ran (h : Listed d [.freeWrite bno] blocks) (hdata : vol.Data bno) :
    Ran d [bno] 0 blocks (d.freeWrite bno) (bno :: blocks) := by
  cases h with
  | spilled h1 h0 h =>
    obtain ⟨n, hn, hpos, hle, hl⟩ := h
    refine ⟨.idle rfl (Or.inr ⟨1, ?_, by omega, by simp [NICFREE], ?_⟩), fun b => ?_,
      List.Perm.refl _, fun k _ hk => ?_⟩
    · simp only [Disk.freeWrite, Disk.freePush, h0]
      rfl
    · simp only [Disk.freeWrite, Disk.freePush, h0, Int.toNat_zero]
      rw [entries_cons, update_self]
      exact .link hdata.ne_zero hn hpos hle hl
    · simp [Disk.freeWrite, Disk.freePush, Outcome.calls, Outcome.given, count_cons]
    · simp only [Disk.freeWrite, Disk.freePush, hk, Outcome.calls, length_cons]
      simp
      omega

/-- With an empty free list the loop of `s5alloc` finds nothing. -/
theorem takeFree_of_empty (h : Listed d [] []) :
    takeFree vol d.fp.sFree d.fp.sNfree.toNat = none := by
  cases h with
  | idle h0 h =>
    rcases h with ⟨hn, -⟩ | ⟨n, hn, hpos, -, h⟩
    · rw [hn]
      rfl
    obtain ⟨m, rfl⟩ : ∃ m, n = m + 1 := ⟨n - 1, by omega⟩
    rcases h.cases_last with ⟨rfl, hz, -⟩ | ⟨-, hmem, -⟩ | ⟨-, hmem, -⟩
    · rw [hn]
      exact if_pos hz
    · exact absurd hmem (by simp)
    · exact absurd hmem (by simp)

/-! ## All the calls -/

/-- The blocks in the hands of calls in progress. -/
def S5State.inHand (s : S5State) : List ℤ := s.calls.flatMap Pc.block

/-- The calls of `s5alloc` that have taken a block but not counted it. -/
def S5State.pending (s : S5State) : ℕ := s.calls.countP Pc.taken

instance : DecidablePred vol.Data := fun _ => inferInstanceAs (Decidable (_ ∧ _))

/-- Every data block is free, in hand or allocated, and in one of these places only. -/
structure Good (vol : Volume) (s : S5State) (free : List ℤ) : Prop where
  listed : Listed s.disk (s.calls.filter Pc.holds) free
  place : ∀ b, free.count b + s.inHand.count b + s.alloc.count b = if vol.Data b then 1 else 0

/-- `s_tfree` counts the free blocks, and those that `s5alloc` is still to count. -/
def Counted (s : S5State) (free : List ℤ) : Prop :=
  s.disk.fp.sTfree = free.length + s.pending

section Places

variable {s : S5State} {free : List ℤ}

theorem Good.data (h : Good vol s free) (hb : b ∈ free ∨ b ∈ s.inHand ∨ b ∈ s.alloc) :
    vol.Data b := by
  have hplace := h.place b
  have hpos : 0 < free.count b + s.inHand.count b + s.alloc.count b := by
    rcases hb with hb | hb | hb <;> have := count_pos_iff.mpr hb <;> omega
  by_contra hnd
  rw [if_neg hnd] at hplace
  omega

theorem Good.hand_not_elsewhere (h : Good vol s free) (hb : b ∈ s.inHand) :
    b ∉ free ∧ b ∉ s.alloc := by
  have hplace := h.place b
  rw [if_pos (h.data (Or.inr (Or.inl hb)))] at hplace
  have := count_pos_iff.mpr hb
  exact ⟨count_eq_zero.mp (by omega), count_eq_zero.mp (by omega)⟩

theorem Good.alloc_not_elsewhere (h : Good vol s free) (hb : b ∈ s.alloc) :
    b ∉ free ∧ b ∉ s.inHand := by
  have hplace := h.place b
  rw [if_pos (h.data (Or.inr (Or.inr hb)))] at hplace
  have := count_pos_iff.mpr hb
  exact ⟨count_eq_zero.mp (by omega), count_eq_zero.mp (by omega)⟩

theorem Good.nodup (h : Good vol s free) : free.Nodup := by
  refine nodup_iff_count_le_one.mpr fun b => ?_
  have hplace := h.place b
  split_ifs at hplace <;> omega

end Places

/-- A piece of a call that runs while nobody else holds `s_flock`, among the other calls in
progress. -/
theorem Ran.good {A B : List Pc} {hand alloc free free' : List ℤ} {taken : ℕ} {r : Outcome × Disk}
    (hr : Ran d hand taken free r free') (hothers : (A ++ B).filter Pc.holds = [])
    (hplace : ∀ b, free.count b + (((A ++ B).flatMap Pc.block).count b + hand.count b) +
      alloc.count b = if vol.Data b then 1 else 0) :
    Good vol ⟨r.2, A ++ r.1.calls ++ B, r.1.given ++ alloc⟩ free' ∧
      ((r.1 = .enospc → (A ++ B).countP Pc.taken = 0) →
        d.fp.sTfree = free.length + (A ++ B).countP Pc.taken + taken →
        Counted ⟨r.2, A ++ r.1.calls ++ B, r.1.given ++ alloc⟩ free') := by
  obtain ⟨hA, hB⟩ := append_eq_nil_iff.mp (filter_append A B ▸ hothers)
  refine ⟨⟨?_, fun b => ?_⟩, fun hlate hcount => ?_⟩
  · simp only [filter_append, hA, hB, nil_append, append_nil]
    exact hr.listed
  · have h1 := hplace b
    have h2 := hr.place b
    simp only [S5State.inHand, flatMap_append, count_append] at h1 h2 ⊢
    omega
  · have := hr.tfree _ hlate hcount
    simp only [Counted, S5State.pending, countP_append] at this ⊢
    rw [this]
    push_cast
    ring

theorem Listed.length_le {hs : List Pc} (h : Listed d hs blocks) : hs.length ≤ 1 := by
  cases h <;> simp

/-- A call about to run, which neither holds `s_flock` nor has taken a block, and the calls
around it: `hand` is what it has in hand, and `alloc` the blocks allocated then. -/
structure Others (s : S5State) (A B : List Pc) (hand alloc : List ℤ) : Prop where
  holds : (A ++ B).filter Pc.holds = s.calls.filter Pc.holds
  taken : (A ++ B).countP Pc.taken = s.pending
  place : ∀ b, ((A ++ B).flatMap Pc.block).count b + hand.count b + alloc.count b =
    s.inHand.count b + s.alloc.count b

/-- The loop of an `s5alloc` that runs now finds no address. -/
def FindsNone (vol : Volume) (s : S5State) (e : S5Event) : Prop :=
  (e = .s5alloc ∨ ∃ i, e = .wake i ∧ s.calls[i]? = some .allocWait) ∧ s.disk.fp.sFlock = 0 ∧
    takeFree vol s.disk.fp.sFree s.disk.fp.sNfree.toNat = none

/-- An `s5alloc` that finds no address finds no other that has taken a block and not counted
it yet. -/
def NoneTaken (vol : Volume) (s : S5State) (e : S5Event) : Prop :=
  FindsNone vol s e → s.pending = 0

section Step

variable {s t : S5State} {A B : List Pc} {hand alloc free : List ℤ} {e : S5Event} {o : Outcome}

section

variable (h : Good vol s free)

include h

theorem Good.balance (ho : Others s A B hand alloc) (b : ℤ) :
    free.count b + (((A ++ B).flatMap Pc.block).count b + hand.count b) + alloc.count b =
      if vol.Data b then 1 else 0 := by
  have h1 := ho.place b
  have h2 := h.place b
  omega

/-- A call goes to sleep, or stays asleep, on `s_flock`. -/
theorem Good.wait (ho : Others s A B hand alloc) {pc : Pc}
    (hpc : pc.holds = false ∧ pc.taken = false ∧ pc.block = hand) :
    Good vol ⟨s.disk, A ++ [pc] ++ B, alloc⟩ free ∧
      (Counted s free → Counted ⟨s.disk, A ++ [pc] ++ B, alloc⟩ free) := by
  obtain ⟨h1, h2, h3⟩ := hpc
  refine ⟨⟨?_, fun b => ?_⟩, fun hc => ?_⟩
  · have := h.listed
    rw [← ho.holds] at this
    simpa [filter_append, filter_cons, h1] using this
  · have hplace := h.place b
    have hb := ho.place b
    simp only [S5State.inHand, flatMap_append, count_append, flatMap_singleton,
      h3] at hplace hb ⊢
    omega
  · have htaken := ho.taken
    simp only [Counted, S5State.pending, countP_append, countP_singleton, h2] at hc htaken ⊢
    rw [hc]
    simp
    omega

/-- A call of `s5alloc` runs from the test of `s_flock` on. -/
theorem Good.runAlloc (ho : Others s A B [] alloc) :
    ∃ free', Good vol ⟨(s.disk.s5alloc vol).2, A ++ (s.disk.s5alloc vol).1.calls ++ B,
        (s.disk.s5alloc vol).1.given ++ alloc⟩ free' ∧
      (s.disk.s5alloc vol).1.Ok free free' ∧
      ((s.disk.fp.sFlock = 0 → takeFree vol s.disk.fp.sFree s.disk.fp.sNfree.toNat = none →
          s.pending = 0) → Counted s free →
        Counted ⟨(s.disk.s5alloc vol).2, A ++ (s.disk.s5alloc vol).1.calls ++ B,
          (s.disk.s5alloc vol).1.given ++ alloc⟩ free') := by
  by_cases hflock : s.disk.fp.sFlock = 0
  · have hnil := h.listed.nil_of_flock hflock
    have hlisted := h.listed
    rw [hnil] at hlisted
    obtain ⟨free', hr⟩ := s5alloc_ran hlisted fun b hb => h.data (Or.inl hb)
    obtain ⟨hgood, hcount⟩ := hr.good (ho.holds.trans hnil) (h.balance ho)
    refine ⟨free', hgood, hr.ok, fun hlate hc => hcount (fun hos => ?_) ?_⟩
    · -- nothing was found, so the list was empty
      have hempty := hr.ok
      rw [hos] at hempty
      rw [ho.taken]
      have hempty' : free = [] := hempty
      rw [hempty'] at hlisted
      exact hlate hflock (takeFree_of_empty hlisted)
    · rw [ho.taken]
      simpa [Counted] using hc
  · have hw : s.disk.s5alloc vol = (.sleeps .allocWait, s.disk) := if_pos hflock
    rw [hw]
    obtain ⟨hgood, hcount⟩ := h.wait ho (show Pc.allocWait.holds = false ∧ _ from ⟨rfl, rfl, rfl⟩)
    exact ⟨free, hgood, fun b hb => hb, fun _ => hcount⟩

/-- A call of `s5free` runs from the test of `s_flock` on. -/
theorem Good.runFree (ho : Others s A B [bno] alloc)
    (hdata : vol.Data bno) :
    ∃ free', Good vol ⟨(s.disk.s5free vol bno).2, A ++ (s.disk.s5free vol bno).1.calls ++ B,
        (s.disk.s5free vol bno).1.given ++ alloc⟩ free' ∧
      (s.disk.s5free vol bno).1.Ok free free' ∧
      (Counted s free → Counted ⟨(s.disk.s5free vol bno).2,
        A ++ (s.disk.s5free vol bno).1.calls ++ B, (s.disk.s5free vol bno).1.given ++ alloc⟩
        free') := by
  by_cases hflock : s.disk.fp.sFlock = 0
  · have hnil := h.listed.nil_of_flock hflock
    have hlisted := h.listed
    rw [hnil] at hlisted
    obtain ⟨⟨free', hr⟩, hne⟩ := s5free_ran hlisted hdata
    obtain ⟨hgood, hcount⟩ := hr.good (ho.holds.trans hnil) (h.balance ho)
    refine ⟨free', hgood, hr.ok, fun hc => hcount (fun hos => absurd hos hne) ?_⟩
    rw [ho.taken]
    simpa [Counted] using hc
  · have hw : s.disk.s5free vol bno = (.sleeps (.freeWait bno), s.disk) := if_pos hflock
    rw [hw]
    obtain ⟨hgood, hcount⟩ := h.wait ho (show (Pc.freeWait bno).holds = false ∧ _ from ⟨rfl, rfl, rfl⟩)
    exact ⟨free, hgood, fun b hb => hb, hcount⟩

/-- The holder of `s_flock` goes on. -/
theorem Good.runHolder {pc : Pc} (hcalls : s.calls = A ++ pc :: B)
    (hholds : pc.holds = true) :
    Listed s.disk [pc] free ∧ (A ++ B).filter Pc.holds = [] ∧
      ∀ b, free.count b + (((A ++ B).flatMap Pc.block).count b + pc.block.count b) +
        s.alloc.count b = if vol.Data b then 1 else 0 := by
  have hlisted := h.listed
  rw [hcalls, filter_append, filter_cons_of_pos hholds] at hlisted
  have hlen := hlisted.length_le
  rw [length_append, length_cons] at hlen
  have hA : A.filter Pc.holds = [] := length_eq_zero_iff.mp (by omega)
  have hB : B.filter Pc.holds = [] := length_eq_zero_iff.mp (by omega)
  refine ⟨by simpa [hA, hB] using hlisted, by rw [filter_append, hA, hB]; rfl, fun b => ?_⟩
  have hplace := h.place b
  simp only [S5State.inHand, hcalls, flatMap_append, flatMap_cons,
    count_append] at hplace ⊢
  omega

omit h in
/-- The count of free blocks before the holder of `s_flock` goes on. -/
theorem Counted.holder (hc : Counted s free) {pc : Pc} (hcalls : s.calls = A ++ pc :: B) :
    s.disk.fp.sTfree = free.length + (A ++ B).countP Pc.taken + (if pc.taken then 1 else 0 : ℕ) := by
  unfold Counted S5State.pending at hc
  rw [hc, hcalls]
  simp only [countP_append, countP_cons]
  push_cast
  ring

omit h in
theorem Good.fresh {l : List ℤ} (h : Good vol t free) (ht : t.alloc = bno :: l) :
    bno ∉ l ∧ vol.Data bno := by
  have hmem : bno ∈ t.alloc := by rw [ht]; exact mem_cons_self
  have hdata := h.data (Or.inr (Or.inr hmem))
  have hplace := h.place bno
  rw [if_pos hdata, ht, count_cons_self] at hplace
  exact ⟨count_eq_zero.mp (by omega), hdata⟩

/-- The owner of an allocated block writes it. -/
theorem Good.write (hb : bno ∈ s.alloc) (c : Fblk) :
    Good vol { s with disk := { s.disk with blk := update s.disk.blk bno c } } free := by
  obtain ⟨h1, h2⟩ := h.alloc_not_elsewhere hb
  refine ⟨h.listed.congr rfl rfl rfl (fun b hbf => ?_) fun b hbh => ?_, h.place⟩
  · refine update_of_ne ?_ _ _
    rintro rfl
    exact h1 hbf
  · refine update_of_ne ?_ _ _
    rintro rfl
    obtain ⟨pc, hpc, hmem⟩ := mem_flatMap.mp hbh
    exact h2 (mem_flatMap.mpr ⟨pc, mem_of_mem_filter hpc, hmem⟩)

/-- `s5alloc` returns its block. -/
theorem Good.give (hcalls : s.calls = A ++ .allocBuf bno :: B) :
    Good vol ⟨(s.disk.allocBuf bno).2, A ++ B, bno :: s.alloc⟩ free ∧
      (Counted s free → Counted ⟨(s.disk.allocBuf bno).2, A ++ B, bno :: s.alloc⟩ free) := by
  have hhand : bno ∈ s.inHand := by simp [S5State.inHand, hcalls, Pc.block]
  obtain ⟨hfree, -⟩ := h.hand_not_elsewhere hhand
  have hcount := h.place bno
  rw [if_pos (h.data (Or.inr (Or.inl hhand)))] at hcount
  simp only [S5State.inHand, hcalls, flatMap_append, flatMap_cons, count_append,
    Pc.block, count_singleton_self] at hcount
  refine ⟨⟨?_, fun b => ?_⟩, fun hc => ?_⟩
  · have hlisted := h.listed
    rw [hcalls, filter_append, filter_cons_of_neg (by simp [Pc.holds])] at hlisted
    rw [filter_append]
    refine hlisted.congr rfl rfl rfl (fun b hb => ?_) fun b hb => ?_
    · refine update_of_ne ?_ _ _
      rintro rfl
      exact hfree hb
    · -- a call that holds `s_flock` is about another block
      refine update_of_ne ?_ _ _
      rintro rfl
      rw [flatMap_append, mem_append] at hb
      rcases hb with hb | hb <;> obtain ⟨pc, hpc, hmem⟩ := mem_flatMap.mp hb <;>
        have hin := count_pos_iff.mpr
          (mem_flatMap.mpr ⟨pc, mem_of_mem_filter hpc, hmem⟩) <;> omega
  · have hplace := h.place b
    simp only [S5State.inHand, hcalls, flatMap_append, flatMap_cons, count_append,
      Pc.block, count_cons, count_nil] at hplace ⊢
    omega
  · have := hc.holder hcalls
    simp only [Counted, S5State.pending, Disk.allocBuf, Pc.taken, ↓reduceIte] at this ⊢
    rw [if_pos (by omega)]
    omega

/-- What an event tells about the free list, before and after. -/
structure Tells (vol : Volume) (s t : S5State) (o : Outcome) (free free' : List ℤ) : Prop where
  good : Good vol t free'
  ok : o.Ok free free'
  /-- A block that `s5alloc` returns is a data block that was not allocated. -/
  fresh : ∀ bno, o = .gives bno → bno ∉ s.alloc ∧ vol.Data bno ∧ t.alloc = bno :: s.alloc

omit h in
theorem Good.tells {free' : List ℤ} (h : Good vol t free') (hok : o.Ok free free')
    (halloc : t.alloc = o.given ++ s.alloc) : Tells vol s t o free free' := by
  refine ⟨h, hok, ?_⟩
  rintro bno rfl
  obtain ⟨h1, h2⟩ := h.fresh halloc
  exact ⟨h1, h2, halloc⟩

omit h in
theorem s5free_given : (d.s5free vol bno).1.given = [] := by
  unfold Disk.s5free Disk.freePush
  by_cases h1 : d.fp.sFlock ≠ 0
  · rw [if_pos h1]
    rfl
  by_cases h2 : s5badblock vol bno
  · rw [if_neg h1, if_pos h2]
    rfl
  rw [if_neg h1, if_neg h2]
  simp only
  split_ifs <;> rfl

/-- A sleeping call goes on. -/
theorem Good.wake {pc : Pc} (hcalls : s.calls = A ++ pc :: B) {i : ℕ}
    (hi : s.calls[i]? = some pc) :
    ∃ free', Tells vol s ⟨(s.disk.goOn vol pc).2, A ++ (s.disk.goOn vol pc).1.calls ++ B,
        (s.disk.goOn vol pc).1.given ++ s.alloc⟩ (s.disk.goOn vol pc).1 free free' ∧
      (NoneTaken vol s (.wake i) → Counted s free → Counted ⟨(s.disk.goOn vol pc).2,
        A ++ (s.disk.goOn vol pc).1.calls ++ B, (s.disk.goOn vol pc).1.given ++ s.alloc⟩ free') := by
  cases pc with
  | allocWait =>
    have ho : Others s A B [] s.alloc := by
      refine ⟨?_, ?_, fun b => ?_⟩
      · simp [hcalls, Pc.holds]
      · simp [S5State.pending, hcalls, Pc.taken]
      · simp [S5State.inHand, hcalls, Pc.block]
    obtain ⟨free', h1, h2, h3⟩ := h.runAlloc ho
    exact ⟨free', h1.tells h2 rfl, fun hnone hc =>
      h3 (fun h0 ht => hnone ⟨Or.inr ⟨i, rfl, hi⟩, h0, ht⟩) hc⟩
  | freeWait bno =>
    have ho : Others s A B [bno] s.alloc := by
      refine ⟨?_, ?_, fun b => ?_⟩
      · simp [hcalls, Pc.holds]
      · simp [S5State.pending, hcalls, Pc.taken]
      · simp only [S5State.inHand, hcalls, flatMap_append, flatMap_cons, count_append,
          Pc.block]
        omega
    have hhand : bno ∈ s.inHand := by simp [S5State.inHand, hcalls, Pc.block]
    obtain ⟨free', h1, h2, h3⟩ := h.runFree ho (h.data (Or.inr (Or.inl hhand)))
    exact ⟨free', h1.tells h2 rfl, fun _ hc => h3 hc⟩
  | allocRead bno =>
    obtain ⟨hlisted, hothers, hplace⟩ := h.runHolder hcalls rfl
    obtain ⟨hr, hne⟩ := allocRead_ran hlisted
    obtain ⟨hgood, hcount⟩ := hr.good hothers hplace
    exact ⟨free, hgood.tells hr.ok rfl, fun _ hc => hcount (fun hos => absurd hos hne)
      (hc.holder hcalls)⟩
  | allocBuf bno =>
    obtain ⟨hgood, hcount⟩ := h.give hcalls
    have heq : A ++ Outcome.calls (.gives bno) ++ B = A ++ B := by simp [Outcome.calls]
    refine ⟨free, ?_, fun _ hc => ?_⟩
    · refine Good.tells ?_ rfl rfl
      simp only [Disk.goOn, Disk.allocBuf, heq] at hgood ⊢
      exact hgood
    · have := hcount hc
      simp only [Disk.goOn, Disk.allocBuf, heq] at this ⊢
      exact this
  | freeBuf bno =>
    obtain ⟨hlisted, hothers, hplace⟩ := h.runHolder hcalls rfl
    have hhand : bno ∈ s.inHand := by simp [S5State.inHand, hcalls, Pc.block]
    have hr := freeBuf_ran hlisted (h.hand_not_elsewhere hhand).1
    obtain ⟨hgood, hcount⟩ := hr.good hothers hplace
    exact ⟨free, hgood.tells hr.ok rfl, fun _ hc => hcount (fun hos => by cases hos)
      (hc.holder hcalls)⟩
  | freeWrite bno =>
    obtain ⟨hlisted, hothers, hplace⟩ := h.runHolder hcalls rfl
    have hhand : bno ∈ s.inHand := by simp [S5State.inHand, hcalls, Pc.block]
    have hr := freeWrite_ran hlisted (h.data (Or.inr (Or.inl hhand)))
    obtain ⟨hgood, hcount⟩ := hr.good hothers hplace
    exact ⟨bno :: free, hgood.tells hr.ok rfl, fun _ hc => hcount (fun hos => by cases hos)
      (hc.holder hcalls)⟩

/-- **One event.** -/
theorem Good.step (he : s.outcome vol e = some (o, t)) :
    ∃ free', Tells vol s t o free free' ∧
      (NoneTaken vol s e → Counted s free → Counted t free') := by
  cases e with
  | s5alloc =>
    obtain ⟨rfl, rfl⟩ := Prod.mk.inj (Option.some.inj he)
    have ho : Others s s.calls [] [] s.alloc := by
      refine ⟨by simp, by simp [S5State.pending], fun b => by simp [S5State.inHand]⟩
    obtain ⟨free', h1, h2, h3⟩ := h.runAlloc ho
    rw [append_nil] at h1 h3
    exact ⟨free', h1.tells h2 rfl, fun hnone hc =>
      h3 (fun h0 ht => hnone ⟨Or.inl rfl, h0, ht⟩) hc⟩
  | s5free bno =>
    simp only [S5State.outcome] at he
    split_ifs at he with hb
    obtain ⟨rfl, rfl⟩ := Prod.mk.inj (Option.some.inj he)
    have ho : Others s s.calls [] [bno] (s.alloc.erase bno) := by
      refine ⟨by simp, by simp [S5State.pending], fun b => ?_⟩
      have hperm := (perm_cons_erase hb).count_eq b
      simp only [count_cons, count_nil, append_nil, S5State.inHand] at hperm ⊢
      omega
    obtain ⟨free', h1, h2, h3⟩ := h.runFree ho (h.data (Or.inr (Or.inr hb)))
    rw [append_nil] at h1 h3
    refine ⟨free', ⟨h1, h2, fun bno' hg => ?_⟩, fun _ hc => h3 hc⟩
    have := @s5free_given vol s.disk bno
    rw [hg] at this
    cases this
  | write bno c =>
    simp only [S5State.outcome] at he
    split_ifs at he with hb
    obtain ⟨rfl, rfl⟩ := Prod.mk.inj (Option.some.inj he)
    exact ⟨free, (h.write hb c).tells rfl rfl, fun _ hc => hc⟩
  | wake i =>
    simp only [S5State.outcome] at he
    cases hi : s.calls[i]? with
    | none => rw [hi] at he; cases he
    | some pc =>
      rw [hi] at he
      obtain ⟨rfl, rfl⟩ := Prod.mk.inj (Option.some.inj he)
      obtain ⟨hlt, hget⟩ := List.getElem?_eq_some_iff.mp hi
      have hcalls : s.calls = s.calls.take i ++ pc :: s.calls.drop (i + 1) := by
        rw [← hget, ← drop_eq_getElem_cons, take_append_drop]
      exact h.wake hcalls hi

end

end Step

/-! ## Runs -/

/-- A file system whose free chain is well formed, with no call in progress. -/
structure Mounted (vol : Volume) (s : S5State) (free : List ℤ) : Prop where
  quiet : s.calls = []
  unlocked : s.disk.fp.sFlock = 0
  chain : InArray s.disk free
  nodup : free.Nodup
  data : ∀ b ∈ free, vol.Data b
  alloc_nodup : s.alloc.Nodup
  mem_alloc : ∀ b, b ∈ s.alloc ↔ vol.Data b ∧ b ∉ free
  tfree : s.disk.fp.sTfree = free.length

section Run

variable {s t : S5State} {free : List ℤ} {es : List S5Event}

theorem Mounted.good (h : Mounted vol s free) : Good vol s free ∧ Counted s free := by
  refine ⟨⟨?_, fun b => ?_⟩, ?_⟩
  · rw [h.quiet]
    exact .idle h.unlocked h.chain
  · have hfree := h.nodup.count (a := b)
    have halloc := h.alloc_nodup.count (a := b)
    have hmem := h.mem_alloc b
    have hdata := h.data b
    have hhand : s.inHand.count b = 0 := by simp [S5State.inHand, h.quiet]
    rw [hfree, halloc, hhand]
    by_cases h1 : b ∈ free
    · rw [if_pos h1, if_neg fun h2 => (hmem.mp h2).2 h1, if_pos (hdata h1)]
    · by_cases h2 : vol.Data b
      · rw [if_neg h1, if_pos (hmem.mpr ⟨h2, h1⟩), if_pos h2]
      · rw [if_neg h1, if_neg fun h3 => h2 (hmem.mp h3).1, if_neg h2]
  · unfold Counted S5State.pending
    rw [h.tfree, h.quiet]
    simp

/-- In every run each data block stays in one place, and the count stays right as long as no
`s5alloc` comes at the wrong time. -/
theorem Good.run (h : Good vol s free) (hrun : exec (S5State.step vol) s es = some t) :
    ∃ free', Good vol t free' ∧ (StepsMeet (NoneTaken vol) (S5State.step vol) s es →
      Counted s free → Counted t free') := by
  induction es generalizing s free with
  | nil =>
    cases hrun
    exact ⟨free, h, fun _ hc => hc⟩
  | cons e es ih =>
    obtain ⟨u, hu, hrun⟩ := exec_cons.mp hrun
    obtain ⟨⟨o, w⟩, hw, rfl⟩ := Option.map_eq_some_iff.mp hu
    obtain ⟨free', htells, hcount⟩ := h.step hw
    obtain ⟨free'', hgood, hcounted⟩ := ih htells.good hrun
    exact ⟨free'', hgood, fun hok hc => hcounted (hok.2 _ hu) (hcount hok.1 hc)⟩

end Run

def blank : Fblk := ⟨0, fun _ => 0⟩

end Fs
