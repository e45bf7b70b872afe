import OpusSysV.Lib.Run
import Mathlib.Data.Finset.Card
import Mathlib.Order.Interval.Finset.Nat
import Mathlib.Tactic.IntervalCases

/-!
# The free inodes of an s5 file system: `fs/s5/s5alloc.c`

The super block holds up to `NICINOD` numbers of free inodes; when `s5ialloc` has taken the
last, it searches the i-list for more, from the block that the number in slot 0 lies in, and
a second time from the start if that gave none.  A zero in the array ends it early.

* `Ilist` — the size of the file system; `FsITOD`, `FsITOO`, `FsINOS` — the places of inodes.
* `s5ialloc`, `s5ifree` — the routines.  A call holds `s_ilock` from start to end, so that
  calls are one after the other.
* `s5ialloc_exact` — in every history, the inode returned was free, `s_tinode` counts the free
  ones, and there is none when it reports so, exactly unless the blocks have 512 bytes;
  `search_skipped` is a file system with such blocks.

The mode is the only field of an inode in the model; the other fields are stored, not read.
-/

namespace Fs

open Lib Function List Option

/-! ## The i-list -/

/-- `NICINOD`. -/
def NICINOD : ℕ := 100

/-- A file system that `s5mount` accepts: its block size and the number of its first data block,
an `ushort`. -/
structure Ilist where
  bsize : ℕ
  sIsize : ℕ
  bsize_mem : bsize ∈ [512, 1024, 2048, 4096, 8192]

namespace Ilist

variable (fs : Ilist)

/-- `FsLRG(bsize)`. -/
def FsLRG : Bool := 1024 ≤ fs.bsize

/-- `FsBSIZE(bsize)`. -/
def FsBSIZE : ℕ := if fs.bsize < 1024 then fs.bsize else 1024

/-- `FsINOPB(bsize)`. -/
def FsINOPB : ℕ := fs.FsBSIZE / 64

/-- `FsITOD(bsize, x)`: the buffer that the inode is in. -/
def FsITOD (x : ℕ) : ℕ :=
  if fs.FsLRG then (x + 31) / 16 + 2 * (fs.bsize / 1024 - 1) else (x + 15) / 8

/-- `FsITOO(bsize, x)`: its place there. -/
def FsITOO (x : ℕ) : ℕ := if fs.FsLRG then (x + 31) % 16 else (x + 15) % 8

/-- `FsINOS(bsize, x)`; `x & ~017` is `x` rounded down. -/
def FsINOS (x : ℕ) : ℕ := if fs.FsLRG then x / 16 * 16 + 1 else x / 8 * 8 + 1

/-- The first buffer behind the i-list. -/
def ilistEnd : ℕ := if fs.FsLRG then fs.sIsize * (fs.bsize / 1024) else fs.sIsize

/-- The number of inodes. -/
def ninodes : ℕ := (fs.ilistEnd - fs.FsITOD 1) * fs.FsINOPB

/-- An inode of the i-list. -/
def IsInode (ino : ℕ) : Prop := 1 ≤ ino ∧ ino ≤ fs.ninodes

end Ilist

/-- What `s5ialloc` and `s5ifree` change: the part of `struct filsys` with the array, the modes
of the inodes in the buffers of the disk, and those of the inodes in core. -/
structure Isys where
  sNinode : ℕ
  sInode : ℕ → ℕ
  sTinode : ℕ
  di : ℕ → ℕ → ℕ
  incore : ℕ → Option ℕ

namespace Isys

variable (fs : Ilist)

/-- The mode of an inode on the disk. -/
def diMode (s : Isys) (ino : ℕ) : ℕ := s.di (fs.FsITOD ino) (fs.FsITOO ino)

/-- `iget(mp, ino)`: the mode it finds in core, or reads. -/
def iget (s : Isys) (ino : ℕ) : ℕ × Isys :=
  match s.incore ino with
  | some mode => (mode, s)
  | none => (s.diMode fs ino, { s with incore := update s.incore ino (s.diMode fs ino) })

/-- `s5ip->s5i_mode = mode`, and `s5iupdat` before `s_ilock` is given up. -/
def setMode (s : Isys) (ino mode : ℕ) : Isys :=
  { s with
    incore := update s.incore ino (some mode)
    di := update s.di (fs.FsITOD ino)
      (update (s.di (fs.FsITOD ino)) (fs.FsITOO ino) mode) }

/-! ## `s5ialloc` -/

/-- `s_ninode`, `s_inode` and `ino` in the search. -/
structure Fill where
  sNinode : ℕ
  sInode : ℕ → ℕ
  ino : ℕ

/-- The loop over the inodes of a block, from the one in place `i`, with `n` left. -/
def fillBlock (dp : ℕ → ℕ) : ℕ → ℕ → Fill → Fill
  | 0, _, x => x
  | n + 1, i, x =>
    if x.sNinode ≤ 0 then x
    else
      let x := if dp i = 0 then
          { x with
            sNinode := x.sNinode - 1
            sInode := update x.sInode (x.sNinode - 1) x.ino }
        else x
      fillBlock dp n (i + 1) { x with ino := (x.ino + 1) % 2 ^ 16 }

/-- The loop over the blocks from `adr` on, with `n` left. -/
def fillBlocks (inopb : ℕ) (di : ℕ → ℕ → ℕ) : ℕ → ℕ → Fill → Fill
  | 0, _, x => x
  | n + 1, adr, x =>
    let x := fillBlock (di adr) inopb 0 x
    if x.sNinode ≤ 0 then x else fillBlocks inopb di n (adr + 1) x

/-- From `startover:` to the end of the loop over the blocks. -/
def research (s : Isys) (sInode : ℕ → ℕ) : Fill :=
  let ino := fs.FsINOS (sInode 0) % 2 ^ 16
  let adr := fs.FsITOD ino
  fillBlocks fs.FsINOPB s.di (fs.sIsize * (fs.bsize / 1024) - adr) adr ⟨NICINOD, sInode, ino⟩

/-- The search from `startover:` to the last test of `s_ninode`: whether it found an inode, and
the array it leaves. -/
def rebuild (s : Isys) : Bool × Isys :=
  let x := s.research fs s.sInode
  let x := if x.sNinode = NICINOD ∧ x.sInode 0 ≠ 0 then
      s.research fs (update x.sInode 0 0)
    else x
  let sInode := if x.sNinode > 0 then
      update (update x.sInode (x.sNinode - 1) 0) 0 0
    else x.sInode
  (x.sNinode ≠ NICINOD, { s with sNinode := NICINOD, sInode := sInode })

/-- What `s5ialloc` returns: an inode, or `NULL` with "Out of inodes". -/
inductive Ialloc
  | inode (ino : ℕ)
  | enospc
  deriving DecidableEq, Repr

/-- `s5ialloc` from `loop:` on; `none` when the fuel is used up. -/
def ialloc (mode : ℕ) : ℕ → Isys → Option (Ialloc × Isys)
  | 0, _ => none
  | n + 1, s =>
    let ino := s.sInode (s.sNinode - 1)
    let taken : Isys := { s with sNinode := s.sNinode - 1 }
    if s.sNinode > 0 ∧ ino ≠ 0 then
      let (found, t) := taken.iget fs ino
      if found = 0 then
        let t := { t with sTinode := if t.sTinode ≠ 0 then t.sTinode - 1 else t.sTinode }
        some (.inode ino, t.setMode fs ino mode)
      else
        -- "inode was already allocated": written back and released
        ialloc mode n { t.setMode fs ino found with incore := s.incore }
    else
      let (found, t) := if taken.sTinode > 0 then taken.rebuild fs else (false, taken)
      if found then ialloc mode n t else some (.enospc, { t with sNinode := 0, sTinode := 0 })

/-! ## `s5ifree` -/

/-- `s5ifree(ip)` for the inode `ino` with this mode in core. -/
def ifree (s : Isys) (ino mode : ℕ) : Isys :=
  if mode = 0 then s
  else
    let s := s.setMode fs ino 0
    let s := { s with sTinode := (s.sTinode + 1) % 2 ^ 16 }
    if s.sNinode ≥ NICINOD ∨ s.sNinode = 0 then
      if ino < s.sInode 0 then { s with sInode := update s.sInode 0 ino } else s
    else
      { s with
        sInode := update s.sInode s.sNinode ino
        sNinode := s.sNinode + 1 }

end Isys

/-- The calls, and the references to inodes that others take and give up. -/
inductive InodeCall
  | ialloc (mode : ℕ)
  | ifree (ino : ℕ)
  | iget (ino : ℕ)
  | iput (ino : ℕ)
  deriving DecidableEq, Repr

/-- One call; an inode is allocated with a mode, and one that is freed is in core. -/
def Isys.step (fs : Ilist) (fuel : ℕ) (s : Isys) : InodeCall → Option Isys
  | .ialloc mode => if mode = 0 then none else (s.ialloc fs mode fuel).map Prod.snd
  | .ifree ino =>
    if 1 ≤ ino ∧ ino ≤ fs.ninodes then (s.incore ino).map (s.ifree fs ino) else none
  | .iget ino => if 1 ≤ ino ∧ ino ≤ fs.ninodes then some (s.iget fs ino).2 else none
  | .iput ino => some { s with incore := update s.incore ino none }

/-! ## The places of inodes -/

namespace Ilist

variable {fs : Ilist} {x y : ℕ}

theorem place_injective (hd : fs.FsITOD x = fs.FsITOD y) (ho : fs.FsITOO x = fs.FsITOO y) :
    x = y := by
  unfold FsITOD at hd
  unfold FsITOO at ho
  by_cases h : fs.FsLRG = true
  · rw [if_pos h] at hd ho
    rw [if_pos h] at hd ho
    omega
  · rw [if_neg h] at hd ho
    rw [if_neg h] at hd ho
    omega

/-- With large blocks, 16 inodes are in each buffer from the first of the i-list on. -/
theorem large_spec (h : fs.FsLRG = true) : 1 ≤ fs.bsize / 1024 ∧ fs.FsINOPB = 16 ∧
    fs.ilistEnd = fs.sIsize * (fs.bsize / 1024) ∧
    (∀ x, fs.FsITOD x = (x + 31) / 16 + 2 * (fs.bsize / 1024 - 1)) ∧
    (∀ x, fs.FsITOO x = (x + 31) % 16) ∧ ∀ x, fs.FsINOS x = x / 16 * 16 + 1 := by
  have hb : 1024 ≤ fs.bsize := of_decide_eq_true h
  refine ⟨by omega, ?_, if_pos h, fun x => if_pos h, fun x => if_pos h, fun x => if_pos h⟩
  rw [FsINOPB, FsBSIZE, if_neg (by omega)]

/-- With blocks of 512 bytes the bound of the search is zero. -/
theorem small_spec (h : ¬ fs.FsLRG = true) : fs.bsize / 1024 = 0 := by
  have hb : ¬ 1024 ≤ fs.bsize := fun hle => h (decide_eq_true hle)
  omega

end Ilist

/-! ## The array -/

/-- The numbers that `s5ialloc` will take from the array, the next one first. -/
def avail (sInode : ℕ → ℕ) : ℕ → List ℕ
  | 0 => []
  | n + 1 => if sInode n = 0 then [] else sInode n :: avail sInode n

section avail

variable {f g : ℕ → ℕ} {n v ino : ℕ}

theorem avail_congr (h : ∀ j < n, g j = f j) : avail g n = avail f n := by
  induction n with
  | zero => rfl
  | succ n ih =>
    rw [avail, avail, h n (Nat.lt_succ_self n), ih fun j hj => h j (Nat.lt_succ_of_lt hj)]

/-- A number is put on top. -/
theorem avail_push (hv : v ≠ 0) : avail (update f n v) (n + 1) = v :: avail f n := by
  rw [avail, update_self, if_neg hv]
  exact congrArg _ (avail_congr fun j hj => update_of_ne (Nat.ne_of_lt hj) _ _)

/-- The number at the bottom is replaced, or none is if the array ends before it. -/
theorem avail_bottom (hnd : (avail f n).Nodup) (hv : v ∉ avail f n) :
    (avail (update f 0 v) n).Nodup ∧
      ∀ i ∈ avail (update f 0 v) n, i = v ∨ i ∈ avail f n := by
  induction n with
  | zero => exact ⟨nodup_nil, fun i hi => absurd hi (by simp [avail])⟩
  | succ n ih =>
    cases n with
    | zero =>
      rw [avail, update_self]
      split_ifs
      · exact ⟨nodup_nil, fun i hi => absurd hi (by simp)⟩
      · exact ⟨nodup_singleton v, fun i hi => .inl (by simpa [avail] using hi)⟩
    | succ m =>
      rw [avail, update_of_ne (Nat.succ_ne_zero m)]
      by_cases h0 : f (m + 1) = 0
      · rw [if_pos h0]
        exact ⟨nodup_nil, fun i hi => absurd hi (by simp)⟩
      · have hf : avail f (m + 1 + 1) = f (m + 1) :: avail f (m + 1) := by rw [avail, if_neg h0]
        rw [if_neg h0]
        rw [hf] at hnd hv ⊢
        obtain ⟨hnot, hnd⟩ := nodup_cons.mp hnd
        obtain ⟨hne, hv⟩ := not_or.mp (fun h => hv (mem_cons.mpr h))
        obtain ⟨hnd', hmem⟩ := ih hnd hv
        refine ⟨nodup_cons.mpr ⟨fun hin => ?_, hnd'⟩, fun i hi => ?_⟩
        · rcases hmem _ hin with heq | hin
          · exact hne heq.symm
          · exact hnot hin
        · rcases mem_cons.mp hi with rfl | hi
          · exact .inr mem_cons_self
          · rcases hmem i hi with heq | hin
            · exact .inl heq
            · exact .inr (mem_cons_of_mem _ hin)

end avail

/-! ## The search -/

/-- The numbers of `l` were found from `a` on: they are on top of the array `f`, in this order, and
free; if there are none, then no inode from `a` on that was looked at is free. -/
structure Found (mode : ℕ → ℕ) (a : ℕ) (f : ℕ → ℕ) (x : Isys.Fill) (l : List ℕ) : Prop where
  avail_eq : ∀ g, (∀ j, x.sNinode ≤ j → j < NICINOD → g j = x.sInode j) →
    avail g NICINOD = l ++ avail g x.sNinode
  length_eq : x.sNinode + l.length = NICINOD
  rest_eq : ∀ j < x.sNinode, x.sInode j = f j
  mem : ∀ i ∈ l, a ≤ i ∧ i < x.ino ∧ mode i = 0
  sorted : l.Pairwise (· < ·)
  none_free : l = [] → ∀ i, a ≤ i → i < x.ino → mode i ≠ 0

section search

open Isys

variable {mode dp f : ℕ → ℕ} {a n i adr : ℕ} {x : Fill} {l : List ℕ} {fs : Ilist} {s : Isys}

/-- A free inode is found. -/
theorem Found.push (h : Found mode a f x l) (hpos : 0 < x.sNinode) (hino : x.ino ≠ 0)
    (ha : a ≤ x.ino) (hfree : mode x.ino = 0) :
    Found mode a f ⟨x.sNinode - 1, update x.sInode (x.sNinode - 1) x.ino, x.ino + 1⟩
      (l ++ [x.ino]) := by
  obtain ⟨k, hk⟩ : ∃ k, x.sNinode = k + 1 := ⟨x.sNinode - 1, by omega⟩
  have hlen := h.length_eq
  refine ⟨fun g hg => ?_, ?_, fun j hj => ?_, fun j hj => ?_, ?_, fun hnil => ?_⟩
  · have htop : g (x.sNinode - 1) = x.ino := by
      rw [hg (x.sNinode - 1) le_rfl (by omega)]
      exact update_self ..
    have hold := h.avail_eq g fun j h1 h2 => by
      rw [hg j (by show x.sNinode - 1 ≤ j; omega) h2]
      exact update_of_ne (by omega) _ _
    rw [hold, append_assoc, singleton_append]
    show l ++ avail g x.sNinode = l ++ x.ino :: avail g (x.sNinode - 1)
    rw [hk, Nat.add_sub_cancel] at htop
    rw [hk, Nat.add_sub_cancel, avail, htop, if_neg hino]
  · show x.sNinode - 1 + (l ++ [x.ino]).length = NICINOD
    rw [length_append, length_singleton]
    omega
  · have hj' : j < x.sNinode - 1 := hj
    show update x.sInode (x.sNinode - 1) x.ino j = f j
    rw [update_of_ne (Nat.ne_of_lt hj'), h.rest_eq j (by omega)]
  · show a ≤ j ∧ j < x.ino + 1 ∧ mode j = 0
    rcases mem_append.mp hj with hj | hj
    · obtain ⟨h1, h2, h3⟩ := h.mem j hj
      exact ⟨h1, by omega, h3⟩
    · rw [mem_singleton.mp hj]
      exact ⟨ha, Nat.lt_succ_self _, hfree⟩
  · refine pairwise_append.mpr ⟨h.sorted, pairwise_singleton _ _, fun j hj k hk => ?_⟩
    rw [mem_singleton.mp hk]
    exact (h.mem j hj).2.1
  · simp at hnil

/-- An inode in use is passed. -/
theorem Found.pass (h : Found mode a f x l) (huse : mode x.ino ≠ 0) :
    Found mode a f { x with ino := x.ino + 1 } l := by
  refine ⟨h.avail_eq, h.length_eq, h.rest_eq, fun j hj => ?_, h.sorted, fun hnil j h1 h2 => ?_⟩
  · obtain ⟨h1, h2, h3⟩ := h.mem j hj
    exact ⟨h1, Nat.lt_succ_of_lt h2, h3⟩
  · by_cases hj : j = x.ino
    · rw [hj]
      exact huse
    · exact h.none_free hnil j h1 (by have : j < x.ino + 1 := h2; omega)

/-- The loop over a block. -/
theorem fillBlock_spec (h : Found mode a f x l) (hpos : 1 ≤ x.ino) (ha : a ≤ x.ino)
    (hlt : x.ino + n < 2 ^ 16) (hdp : ∀ j < n, dp (i + j) = mode (x.ino + j)) :
    ∃ l', Found mode a f (fillBlock dp n i x) l' ∧ (fillBlock dp n i x).ino ≤ x.ino + n ∧
      ((fillBlock dp n i x).sNinode = 0 ∨ (fillBlock dp n i x).ino = x.ino + n) := by
  induction n generalizing i x l with
  | zero => exact ⟨l, h, le_rfl, .inr rfl⟩
  | succ n ih =>
    rw [fillBlock]
    split
    · exact ⟨l, h, by omega, .inl (by omega)⟩
    have hmod : (x.ino + 1) % 2 ^ 16 = x.ino + 1 := Nat.mod_eq_of_lt (by omega)
    have h0 : dp i = mode x.ino := hdp 0 (Nat.succ_pos n)
    have hdp' : ∀ j < n, dp (i + 1 + j) = mode (x.ino + 1 + j) := by
      intro j hj
      have := hdp (j + 1) (by omega)
      rwa [show i + (j + 1) = i + 1 + j by omega,
        show x.ino + (j + 1) = x.ino + 1 + j by omega] at this
    have hsum : x.ino + 1 + n = x.ino + (n + 1) := by omega
    by_cases hfree : dp i = 0
    · simp only [if_pos hfree, hmod]
      rw [← hsum]
      exact ih (h.push (by omega) (by omega) ha (by rw [← h0, hfree])) (by show 1 ≤ x.ino + 1; omega)
        (by show a ≤ x.ino + 1; omega) (by show x.ino + 1 + n < 2 ^ 16; omega) hdp'
    · simp only [if_neg hfree, hmod]
      rw [← hsum]
      exact ih (h.pass (by rw [← h0]; exact hfree)) (by show 1 ≤ x.ino + 1; omega)
        (by show a ≤ x.ino + 1; omega) (by show x.ino + 1 + n < 2 ^ 16; omega) hdp'

/-- The loop over the blocks, from the one that starts with inode `16 * k + 1`. -/
theorem fillBlocks_spec {b k : ℕ} {di : ℕ → ℕ → ℕ}
    (hdi : ∀ k i, i < 16 → di (k + 2 * b) i = mode (16 * k + 1 + i))
    (h : Found mode a f x l) (hx : x.ino = 16 * k + 1) (ha : a ≤ x.ino)
    (hlt : 16 * (k + n) + 1 < 2 ^ 16) :
    ∃ l', Found mode a f (fillBlocks 16 di n (k + 2 * b) x) l' ∧
      (fillBlocks 16 di n (k + 2 * b) x).ino ≤ 16 * (k + n) + 1 ∧
      ((fillBlocks 16 di n (k + 2 * b) x).sNinode = 0 ∨
        (fillBlocks 16 di n (k + 2 * b) x).ino = 16 * (k + n) + 1) := by
  induction n generalizing k x l with
  | zero => exact ⟨l, h, hx.le, .inr hx⟩
  | succ n ih =>
    rw [fillBlocks]
    have hdp : ∀ j < 16, di (k + 2 * b) (0 + j) = mode (x.ino + j) := by
      intro j hj
      rw [hx, Nat.zero_add]
      exact hdi k j hj
    obtain ⟨l', h', hle, hend⟩ := fillBlock_spec h (by omega) ha (by omega) hdp
    by_cases hfull : (fillBlock (di (k + 2 * b)) 16 0 x).sNinode ≤ 0
    · simp only [if_pos hfull]
      exact ⟨l', h', by omega, .inl (by omega)⟩
    · simp only [if_neg hfull]
      have hino := hend.resolve_left (by omega)
      rw [show k + 2 * b + 1 = k + 1 + 2 * b by omega,
        show k + (n + 1) = k + 1 + n by omega]
      exact ih h' (by omega) (by omega) (by omega)

/-- The number of inodes fits in an `ushort`, as `mkfs` sees to. -/
theorem ninodes_eq (hlarge : fs.FsLRG = true) : fs.ninodes =
    16 * (fs.sIsize * (fs.bsize / 1024) - 2 * (fs.bsize / 1024)) := by
  obtain ⟨hb, hinopb, hend, hitod, -, -⟩ := Ilist.large_spec hlarge
  rw [Ilist.ninodes, hinopb, hend, hitod, Nat.mul_comm]
  congr 2
  omega

/-- **The search** from the block of `sInode 0` on: what it found is free, and if it found
nothing then no inode from there on is free. -/
theorem research_spec (hlarge : fs.FsLRG = true) (hn : fs.ninodes < 2 ^ 16) (f : ℕ → ℕ) :
    ∃ l, Found (s.diMode fs) (fs.FsINOS (f 0) % 2 ^ 16) f (s.research fs f) l ∧
      (∀ i ∈ l, fs.IsInode i) ∧
      (l = [] → ∀ i, fs.FsINOS (f 0) % 2 ^ 16 ≤ i → fs.IsInode i → s.diMode fs i ≠ 0) := by
  have hnum := ninodes_eq hlarge
  obtain ⟨hb, hinopb, -, hitod, hitoo, hinos⟩ := Ilist.large_spec hlarge
  unfold research
  dsimp only
  rw [hinopb]
  generalize hbs : fs.bsize / 1024 = b at *
  obtain ⟨k, hk⟩ : ∃ k, fs.FsINOS (f 0) % 2 ^ 16 = 16 * k + 1 :=
    ⟨(f 0 / 16) % 4096, by rw [hinos]; omega⟩
  have hadr : fs.FsITOD (16 * k + 1) = k + 2 * b := by
    rw [hitod]
    omega
  rw [hk, hadr]
  have hstart : Found (s.diMode fs) (16 * k + 1) f ⟨NICINOD, f, 16 * k + 1⟩ [] :=
    ⟨fun g _ => rfl, rfl, fun _ _ => rfl, fun i hi => absurd hi (by simp), List.Pairwise.nil,
      fun _ i h1 h2 => absurd h2 (by show ¬ i < 16 * k + 1; omega)⟩
  have hdi : ∀ k i, i < 16 → s.di (k + 2 * b) i = s.diMode fs (16 * k + 1 + i) := by
    intro k i hi
    unfold diMode
    rw [hitod, hitoo]
    congr 1 <;> omega
  by_cases hlt : 16 * (k + (fs.sIsize * b - (k + 2 * b))) + 1 < 2 ^ 16
  · obtain ⟨l, h, hle, hend⟩ := fillBlocks_spec hdi hstart rfl le_rfl hlt
    refine ⟨l, h, fun i hi => ?_, fun hnil i h1 hi => ?_⟩
    · obtain ⟨h1, h2, -⟩ := h.mem i hi
      refine ⟨by omega, ?_⟩
      by_cases hfit : k + 2 * b ≤ fs.sIsize * b
      · rw [hnum]
        omega
      · omega
    · rcases hend with hfull | hino
      · have := h.length_eq
        rw [hnil, hfull] at this
        cases this
      · refine h.none_free hnil i h1 ?_
        have := hi.2
        rw [hino]
        omega
  · -- the search starts behind the i-list
    have hzero : fs.sIsize * b - (k + 2 * b) = 0 := by
      by_contra hne
      omega
    rw [hzero]
    refine ⟨[], hstart, fun i hi => absurd hi (by simp), fun _ i h1 hi => ?_⟩
    have := hi.2
    omega

/-- What `s5ialloc` has after its search: new numbers in the array, or the knowledge that no
inode is free. -/
theorem rebuild_spec (hlarge : fs.FsLRG = true) (hn : fs.ninodes < 2 ^ 16) :
    ∃ found t, s.rebuild fs = (found, t) ∧ t.sTinode = s.sTinode ∧ t.di = s.di ∧
      t.incore = s.incore ∧ t.sNinode = NICINOD ∧
      (found = true → avail t.sInode NICINOD ≠ [] ∧ (avail t.sInode NICINOD).Nodup ∧
        ∀ i ∈ avail t.sInode NICINOD, fs.IsInode i ∧ s.diMode fs i = 0) ∧
      (found = false → ∀ i, fs.IsInode i → s.diMode fs i ≠ 0) := by
  obtain ⟨-, -, -, -, -, hinos⟩ := Ilist.large_spec hlarge
  refine ⟨_, _, rfl, rfl, rfl, rfl, rfl, ?_⟩
  -- the second search starts from the first inode
  have hlast : ∃ l a f x, (if (s.research fs s.sInode).sNinode = NICINOD ∧
        (s.research fs s.sInode).sInode 0 ≠ 0 then
        s.research fs (update (s.research fs s.sInode).sInode 0 0)
      else s.research fs s.sInode) = x ∧ Found (s.diMode fs) a f x l ∧ (∀ i ∈ l, fs.IsInode i) ∧
      (l = [] → ∀ i, fs.IsInode i → s.diMode fs i ≠ 0) := by
    have hfrom : ∀ f : ℕ → ℕ, f 0 = 0 → ∀ i, fs.IsInode i → fs.FsINOS (f 0) % 2 ^ 16 ≤ i := by
      intro f hf i hi
      rw [hinos, hf]
      have := hi.1
      omega
    obtain ⟨l, h, hin, hnone⟩ := @research_spec fs s hlarge hn s.sInode
    split_ifs with hagain
    · obtain ⟨l, h, hin, hnone⟩ := @research_spec fs s hlarge hn
        (update (s.research fs s.sInode).sInode 0 0)
      exact ⟨l, _, _, _, rfl, h, hin, fun hnil i hi =>
        hnone hnil i (hfrom _ (update_self ..) i hi) hi⟩
    · refine ⟨l, _, _, _, rfl, h, hin, fun hnil i hi => hnone hnil i (hfrom _ ?_ i hi) hi⟩
      have hfull : (s.research fs s.sInode).sNinode = NICINOD := by
        have := h.length_eq
        rwa [hnil] at this
      have h0 : (s.research fs s.sInode).sInode 0 = 0 := by
        by_contra hne
        exact hagain ⟨hfull, hne⟩
      rwa [h.rest_eq 0 (by rw [hfull]; decide)] at h0
  obtain ⟨l, a, f, x, hx, h, hin, hnone⟩ := hlast
  dsimp only
  rw [hx]
  have hlen := h.length_eq
  constructor
  · intro hfound
    have hne : x.sNinode ≠ NICINOD := of_decide_eq_true hfound
    have hl : l ≠ [] := by
      rintro rfl
      exact hne hlen
    have hall : ∀ i ∈ l, fs.IsInode i ∧ s.diMode fs i = 0 := fun i hi =>
      ⟨hin i hi, (h.mem i hi).2.2⟩
    have hnd : l.Nodup := h.sorted.imp fun hab => Nat.ne_of_lt hab
    have havail : avail (if x.sNinode > 0 then
        update (update x.sInode (x.sNinode - 1) 0) 0 0 else x.sInode) NICINOD =
        l := by
      split_ifs
      · rw [h.avail_eq]
        · -- the zero in front of the numbers that were found ends the array
          obtain ⟨m, hm⟩ : ∃ m, x.sNinode = m + 1 := ⟨x.sNinode - 1, by omega⟩
          rw [hm, avail, if_pos, append_nil]
          by_cases h0 : m = 0
          · rw [h0, update_self]
          · rw [update_of_ne h0, Nat.add_sub_cancel, update_self]
        · intro j h1 h2
          rw [update_of_ne (by omega), update_of_ne (by omega)]
      · rw [h.avail_eq x.sInode fun _ _ _ => rfl, show x.sNinode = 0 by omega, avail, append_nil]
    rw [havail]
    exact ⟨hl, hnd, hall⟩
  · intro hfound
    have heq : x.sNinode = NICINOD := by
      by_contra hne
      rw [decide_eq_true hne] at hfound
      cases hfound
    refine hnone (length_eq_zero_iff.mp ?_)
    omega

end search

/-! ## One call -/

/-- The number of free inodes. -/
def freeCount (fs : Ilist) (s : Isys) : ℕ :=
  ((Finset.Icc 1 fs.ninodes).filter fun i => s.diMode fs i = 0).card

/-- What every call keeps: the numbers in the array are different free inodes, `s_tinode` counts
the free inodes, and the modes in core are those on the disk. -/
structure IsysOk (fs : Ilist) (s : Isys) : Prop where
  sNinode_le : s.sNinode ≤ NICINOD
  nodup : (avail s.sInode s.sNinode).Nodup
  free : ∀ i ∈ avail s.sInode s.sNinode, fs.IsInode i ∧ s.diMode fs i = 0
  sTinode_eq : s.sTinode = freeCount fs s
  incore_eq : ∀ i mode, s.incore i = some mode → mode = s.diMode fs i
  small : ¬ fs.FsLRG = true → s.sNinode = 0

/-- What `s5ialloc` should do: the inode was free and is not now, or none is free. -/
def AllocRight (fs : Ilist) (s t : Isys) (mode : ℕ) : Isys.Ialloc → Prop
  | .inode ino => fs.IsInode ino ∧ s.diMode fs ino = 0 ∧ t.diMode fs ino = mode ∧
      ∀ i, i ≠ ino → t.diMode fs i = s.diMode fs i
  | .enospc => ∀ i, fs.IsInode i → s.diMode fs i ≠ 0

section calls

open Isys

variable {fs : Ilist} {s t : Isys} {ino mode n i : ℕ}

theorem diMode_setMode : (s.setMode fs ino mode).diMode fs i =
    if i = ino then mode else s.diMode fs i := by
  unfold diMode setMode
  dsimp only
  split_ifs with hi
  · rw [hi, update_self, update_self]
  · by_cases hd : fs.FsITOD i = fs.FsITOD ino
    · have ho : fs.FsITOO i ≠ fs.FsITOO ino := fun ho => hi (Ilist.place_injective hd ho)
      rw [hd, update_self, update_of_ne ho]
    · rw [update_of_ne hd]

/-- One inode less is free. -/
theorem freeCount_take (hin : fs.IsInode ino) (hs : s.diMode fs ino = 0)
    (ht : t.diMode fs ino ≠ 0) (hsame : ∀ i, i ≠ ino → t.diMode fs i = s.diMode fs i) :
    freeCount fs t + 1 = freeCount fs s := by
  have hfilter : ((Finset.Icc 1 fs.ninodes).filter fun i => t.diMode fs i = 0) =
      ((Finset.Icc 1 fs.ninodes).filter fun i => s.diMode fs i = 0).erase ino := by
    ext i
    simp only [Finset.mem_filter, Finset.mem_erase]
    by_cases hi : i = ino
    · simp [hi, ht]
    · rw [hsame i hi]
      simp [hi]
  rw [freeCount, hfilter]
  refine Finset.card_erase_add_one ?_
  exact Finset.mem_filter.mpr ⟨Finset.mem_Icc.mpr hin, hs⟩

theorem freeCount_eq_zero (h : ∀ i, fs.IsInode i → s.diMode fs i ≠ 0) : freeCount fs s = 0 := by
  refine Finset.card_eq_zero.mpr (Finset.filter_eq_empty_iff.mpr fun i hi => ?_)
  exact h i (Finset.mem_Icc.mp hi)

theorem none_free_of_freeCount (h : freeCount fs s = 0) (hi : fs.IsInode i) :
    s.diMode fs i ≠ 0 := by
  have hempty := Finset.filter_eq_empty_iff.mp (Finset.card_eq_zero.mp h)
  exact hempty (Finset.mem_Icc.mpr hi)

theorem freeCount_congr (h : t.di = s.di) : freeCount fs t = freeCount fs s := by
  unfold freeCount diMode
  rw [h]

/-- `s5ialloc` takes the number on top of the array. -/
theorem ialloc_take (h : IsysOk fs s) (hmode : mode ≠ 0) (hne : avail s.sInode s.sNinode ≠ []) :
    ∃ r t, s.ialloc fs mode (n + 1) = some (r, t) ∧ AllocRight fs s t mode r ∧ IsysOk fs t := by
  obtain ⟨k, hk⟩ : ∃ k, s.sNinode = k + 1 := by
    cases hk : s.sNinode with
    | zero =>
      rw [hk] at hne
      exact absurd rfl hne
    | succ k => exact ⟨k, rfl⟩
  have hpos : s.sInode k ≠ 0 := by
    intro h0
    rw [hk, avail, if_pos h0] at hne
    exact hne rfl
  have havail : avail s.sInode s.sNinode = s.sInode k :: avail s.sInode k := by
    rw [hk, avail, if_neg hpos]
  have hnd := h.nodup
  have hfree := h.free
  rw [havail] at hnd hfree
  obtain ⟨hnot, hnd⟩ := nodup_cons.mp hnd
  obtain ⟨hin, hzero⟩ := hfree _ mem_cons_self
  -- what `iget` finds is the mode on the disk
  obtain ⟨c, higet, hc⟩ : ∃ c, Isys.iget fs { s with sNinode := k } (s.sInode k) =
      (0, { s with sNinode := k, incore := c }) ∧ ∀ i m, c i = some m → m = s.diMode fs i := by
    unfold Isys.iget
    dsimp only
    cases hcore : s.incore (s.sInode k) with
    | some m =>
      have hm : m = 0 := (h.incore_eq _ _ hcore).trans hzero
      exact ⟨s.incore, by rw [hm], h.incore_eq⟩
    | none =>
      refine ⟨update s.incore (s.sInode k) (some 0), ?_, fun i m him => ?_⟩
      · have hd : Isys.diMode fs { s with sNinode := k } (s.sInode k) = 0 := hzero
        rw [hd]
      · by_cases hi : i = s.sInode k
        · rw [hi, update_self] at him
          cases him
          rw [hi, hzero]
        · rw [update_of_ne hi] at him
          exact h.incore_eq i m him
  have htin : s.sTinode ≠ 0 := by
    intro h0
    exact none_free_of_freeCount (h.sTinode_eq.symm.trans h0) hin hzero
  have hmodes : ∀ i, ({ s with sNinode := k, incore := c, sTinode := s.sTinode - 1 }.setMode fs
      (s.sInode k) mode).diMode fs i = if i = s.sInode k then mode else s.diMode fs i :=
    fun i => diMode_setMode
  refine ⟨.inode (s.sInode k), { s with
    sNinode := k, incore := c, sTinode := s.sTinode - 1 }.setMode fs (s.sInode k) mode, ?_, ?_, ?_⟩
  · rw [Isys.ialloc, hk, Nat.add_sub_cancel]
    dsimp only
    rw [if_pos ⟨Nat.succ_pos k, hpos⟩, higet]
    dsimp only
    rw [if_pos rfl, if_pos htin]
  · refine ⟨hin, hzero, ?_, fun i hi => ?_⟩
    · rw [hmodes, if_pos rfl]
    · rw [hmodes, if_neg hi]
  · refine ⟨?_, hnd, fun i hi => ?_, ?_, fun i m him => ?_, fun hsmall => ?_⟩
    · have := h.sNinode_le
      show k ≤ NICINOD
      omega
    · have hi' : i ∈ avail s.sInode k := hi
      have hne' : i ≠ s.sInode k := fun heq => hnot (heq ▸ hi')
      rw [hmodes, if_neg hne']
      exact hfree i (mem_cons_of_mem _ hi')
    · have hcount := freeCount_take hin hzero (t := { s with
        sNinode := k, incore := c, sTinode := s.sTinode - 1 }.setMode fs (s.sInode k) mode)
        (by rw [hmodes, if_pos rfl]; exact hmode) (fun i hi => by rw [hmodes, if_neg hi])
      have := h.sTinode_eq
      show s.sTinode - 1 = _
      omega
    · rw [hmodes]
      have him' : update c (s.sInode k) (some mode) i = some m := him
      by_cases hi : i = s.sInode k
      · rw [hi, update_self] at him'
        rw [if_pos hi]
        exact (Option.some.inj him').symm
      · rw [update_of_ne hi] at him'
        rw [if_neg hi]
        exact hc i m him'
    · have := h.small hsmall
      omega

/-- With blocks of 512 bytes the search finds nothing. -/
theorem rebuild_small (hsmall : ¬ fs.FsLRG = true) : (s.rebuild fs).1 = false := by
  have hbound : fs.sIsize * (fs.bsize / 1024) = 0 := by rw [Ilist.small_spec hsmall, Nat.mul_zero]
  have hres : ∀ f, (s.research fs f).sNinode = NICINOD := by
    intro f
    unfold Isys.research
    dsimp only
    rw [hbound, Nat.zero_sub]
    rfl
  unfold Isys.rebuild
  dsimp only
  refine decide_eq_false (not_not.mpr ?_)
  split_ifs
  · exact hres _
  · exact hres _

/-- `s5ialloc` reports that it is out of inodes. -/
theorem enospc_ok (h : IsysOk fs s) (hdi : t.di = s.di) (hincore : t.incore = s.incore)
    (hnone : ∀ i, fs.IsInode i → s.diMode fs i ≠ 0) :
    IsysOk fs { t with sNinode := 0, sTinode := 0 } := by
  have hmode : ∀ i, Isys.diMode fs { t with sNinode := 0, sTinode := 0 } i = s.diMode fs i := by
    intro i
    show t.diMode fs i = _
    unfold Isys.diMode
    rw [hdi]
  refine ⟨Nat.zero_le _, nodup_nil, fun i hi => absurd hi (by simp [avail]), ?_,
    fun i m him => ?_, fun _ => rfl⟩
  · exact (freeCount_eq_zero fun i hi => by rw [hmode]; exact hnone i hi).symm
  · rw [hmode]
    rw [hincore] at him
    exact h.incore_eq i m him

/-- **`s5ialloc`** ends after at most one search, and does what it should unless it would have
to search blocks of 512 bytes. -/
theorem ialloc_spec (h : IsysOk fs s) (hmode : mode ≠ 0) (hn : fs.ninodes < 2 ^ 16) :
    ∃ r t, s.ialloc fs mode (n + 2) = some (r, t) ∧
      (fs.FsLRG = true ∨ (∀ i, fs.IsInode i → s.diMode fs i ≠ 0) →
        AllocRight fs s t mode r ∧ IsysOk fs t) ∧
      (¬ fs.FsLRG = true → r = .enospc) := by
  by_cases havail : avail s.sInode s.sNinode = []
  · rw [Isys.ialloc]
    dsimp only
    rw [if_neg]
    · -- the array is used up
      have htaken : ∀ {t : Isys}, t.di = s.di → t.incore = s.incore →
          (∀ i, fs.IsInode i → s.diMode fs i ≠ 0) →
          AllocRight fs s { t with sNinode := 0, sTinode := 0 } mode .enospc ∧
            IsysOk fs { t with sNinode := 0, sTinode := 0 } :=
        fun hdi hincore hnone => ⟨hnone, enospc_ok h hdi hincore hnone⟩
      by_cases htin : s.sTinode > 0
      · rw [if_pos htin]
        by_cases hlarge : fs.FsLRG = true
        · obtain ⟨found, t, heq, htin', hdi, hincore, hninode, hyes, hno⟩ :=
            @rebuild_spec fs { s with sNinode := s.sNinode - 1 } hlarge hn
          rw [heq]
          cases found with
          | false =>
            exact ⟨_, _, rfl, fun _ => htaken hdi hincore (hno rfl), fun hs => absurd hlarge hs⟩
          | true =>
            obtain ⟨hne, hnd, hfree⟩ := hyes rfl
            have hdi' : ∀ i, t.diMode fs i = s.diMode fs i := by
              intro i
              unfold Isys.diMode
              rw [hdi]
            have hok : IsysOk fs t := by
              refine ⟨hninode.le, ?_, ?_, ?_, ?_, fun hs => absurd hlarge hs⟩
              · rw [hninode]
                exact hnd
              · rw [hninode]
                intro i hi
                rw [hdi']
                exact hfree i hi
              · rw [htin', freeCount_congr hdi]
                exact h.sTinode_eq
              · intro i m him
                rw [hincore] at him
                rw [hdi']
                exact h.incore_eq i m him
            obtain ⟨r, u, hr, hright, hu⟩ := ialloc_take (n := n) hok hmode (by rw [hninode]; exact hne)
            refine ⟨r, u, hr, fun _ => ⟨?_, hu⟩, fun hs => absurd hlarge hs⟩
            cases r with
            | inode ino =>
              obtain ⟨h1, h2, h3, h4⟩ := hright
              exact ⟨h1, (hdi' ino).symm.trans h2, h3, fun i hi => (h4 i hi).trans (hdi' i)⟩
            | enospc => exact fun i hi => by rw [← hdi']; exact hright i hi
        · have hfound := @rebuild_small fs { s with sNinode := s.sNinode - 1 } hlarge
          rw [hfound]
          exact ⟨_, _, rfl, fun hor => htaken rfl rfl (hor.resolve_left hlarge), fun _ => rfl⟩
      · rw [if_neg htin]
        have hzero : freeCount fs s = 0 := by
          have := h.sTinode_eq
          omega
        exact ⟨_, _, rfl, fun _ => htaken rfl rfl fun i hi => none_free_of_freeCount hzero hi,
          fun _ => rfl⟩
    · rintro ⟨hpos, hne⟩
      obtain ⟨k, hk⟩ : ∃ k, s.sNinode = k + 1 := ⟨s.sNinode - 1, by omega⟩
      rw [hk, Nat.add_sub_cancel] at hne
      rw [hk, avail, if_neg hne] at havail
      cases havail
  · obtain ⟨r, t, hr, hright, ht⟩ := ialloc_take (n := n + 1) h hmode havail
    refine ⟨r, t, hr, fun _ => ⟨hright, ht⟩, fun hsmall => ?_⟩
    rw [h.small hsmall] at havail
    exact absurd rfl havail

/-- **`s5ifree`** counts the inode as free, whether or not its number fits in the array. -/
theorem ifree_ok (h : IsysOk fs s) (hn : fs.ninodes < 2 ^ 16) (hin : fs.IsInode ino)
    (hcore : s.incore ino = some mode) : IsysOk fs (s.ifree fs ino mode) := by
  unfold Isys.ifree
  by_cases hmode : mode = 0
  · rw [if_pos hmode]
    exact h
  rw [if_neg hmode]
  have huse : s.diMode fs ino ≠ 0 := by
    rw [← h.incore_eq ino mode hcore]
    exact hmode
  have hnot : ino ∉ avail s.sInode s.sNinode := fun hi => huse (h.free ino hi).2
  have hmodes : ∀ i, (s.setMode fs ino 0).diMode fs i = if i = ino then 0 else s.diMode fs i :=
    fun i => diMode_setMode
  have hcount : freeCount fs s + 1 = freeCount fs (s.setMode fs ino 0) := by
    refine freeCount_take hin ?_ huse fun i hi => ?_
    · rw [hmodes, if_pos rfl]
    · rw [hmodes, if_neg hi]
  have hle : freeCount fs (s.setMode fs ino 0) ≤ fs.ninodes := by
    refine (Finset.card_filter_le _ _).trans ?_
    rw [Nat.card_Icc]
    omega
  have htin : (s.sTinode + 1) % 2 ^ 16 = freeCount fs (s.setMode fs ino 0) := by
    have := h.sTinode_eq
    rw [Nat.mod_eq_of_lt (by omega)]
    omega
  -- the new array holds the old numbers, and perhaps this one
  have hok : ∀ (f : ℕ → ℕ) k, k ≤ NICINOD → (avail f k).Nodup →
      (∀ i ∈ avail f k, i = ino ∨ i ∈ avail s.sInode s.sNinode) →
      (¬ fs.FsLRG = true → k = 0) →
      IsysOk fs { s.setMode fs ino 0 with
        sTinode := (s.sTinode + 1) % 2 ^ 16, sInode := f, sNinode := k } := by
    intro f k hk hnd hmem hsmall
    refine ⟨hk, hnd, fun i hi => ?_, htin, fun i m him => ?_, hsmall⟩
    · have hd : (s.setMode fs ino 0).diMode fs i = 0 := by
        rw [hmodes]
        by_cases hi' : i = ino
        · rw [if_pos hi']
        · rw [if_neg hi']
          exact (h.free i ((hmem i hi).resolve_left hi')).2
      refine ⟨?_, hd⟩
      rcases hmem i hi with rfl | hold
      · exact hin
      · exact (h.free i hold).1
    · show m = (s.setMode fs ino 0).diMode fs i
      rw [hmodes]
      have him' : update s.incore ino (some 0) i = some m := him
      rw [update_apply] at him'
      split_ifs at him' with hi
      · rw [if_pos hi]
        exact (Option.some.inj him').symm
      · rw [if_neg hi]
        exact h.incore_eq i m him'
  dsimp only
  by_cases hfull : s.sNinode ≥ NICINOD ∨ s.sNinode = 0
  · rw [if_pos (by exact hfull)]
    by_cases hlt : ino < s.sInode 0
    · rw [if_pos (by exact hlt)]
      obtain ⟨hnd, hmem⟩ := avail_bottom h.nodup hnot
      exact hok _ _ h.sNinode_le hnd hmem h.small
    · rw [if_neg (by exact hlt)]
      exact hok _ _ h.sNinode_le h.nodup (fun i hi => .inr hi) h.small
  · rw [if_neg (by exact hfull)]
    have hino : ino ≠ 0 := by
      have := hin.1
      omega
    have hpush := avail_push (f := s.sInode) (n := s.sNinode) hino
    refine hok (update s.sInode s.sNinode ino) (s.sNinode + 1) (by omega) ?_ ?_
      fun hsmall => absurd (.inr (h.small hsmall)) hfull
    · rw [hpush]
      exact nodup_cons.mpr ⟨hnot, h.nodup⟩
    · rw [hpush]
      exact fun i hi => mem_cons.mp hi

theorem iget_ok (h : IsysOk fs s) : IsysOk fs (s.iget fs ino).2 := by
  unfold Isys.iget
  cases hcore : s.incore ino with
  | some m => exact h
  | none =>
    refine ⟨h.sNinode_le, h.nodup, h.free, h.sTinode_eq, fun i m him => ?_, h.small⟩
    have him' : update s.incore ino (some (s.diMode fs ino)) i = some m := him
    rw [update_apply] at him'
    split_ifs at him' with hi
    · rw [hi]
      exact (Option.some.inj him').symm
    · exact h.incore_eq i m him'

/-! ## Every history -/

/-- A file system that has just been mounted: the array is empty, and `s_tinode` right. -/
structure JustMounted (fs : Ilist) (s : Isys) : Prop where
  ninodes_lt : fs.ninodes < 2 ^ 16
  sNinode_eq : s.sNinode = 0
  sTinode_eq : s.sTinode = freeCount fs s
  incore_eq : ∀ i mode, s.incore i = some mode → mode = s.diMode fs i

/-- `s5ialloc` is not called with blocks of 512 bytes while an inode is free. -/
def Searchable (fs : Ilist) (s : Isys) : InodeCall → Prop
  | .ialloc _ => fs.FsLRG = true ∨ ∀ i, fs.IsInode i → s.diMode fs i ≠ 0
  | _ => True

theorem step_ok {call : InodeCall} (hn : fs.ninodes < 2 ^ 16) (h : IsysOk fs s)
    (hC : Searchable fs s call) (ht : s.step fs (n + 2) call = some t) : IsysOk fs t := by
  cases call with
  | ialloc mode =>
    obtain ⟨hmode, ht⟩ := ite_none_left_eq_some.mp ht
    obtain ⟨⟨r, u⟩, hu, rfl⟩ := map_eq_some_iff.mp ht
    obtain ⟨r', u', hu', hright, -⟩ := ialloc_spec (n := n) h hmode hn
    rw [hu] at hu'
    cases hu'
    exact (hright hC).2
  | ifree ino =>
    obtain ⟨hin, ht⟩ := ite_none_right_eq_some.mp ht
    obtain ⟨mode, hcore, rfl⟩ := map_eq_some_iff.mp ht
    exact ifree_ok h hn hin hcore
  | iget ino =>
    obtain ⟨-, ht⟩ := ite_none_right_eq_some.mp ht
    cases ht
    exact iget_ok h
  | iput ino =>
    cases ht
    refine ⟨h.sNinode_le, h.nodup, h.free, h.sTinode_eq, fun i m him => ?_, h.small⟩
    have him' : update s.incore ino none i = some m := him
    by_cases hi : i = ino
    · rw [hi, update_self] at him'
      cases him'
    · rw [update_of_ne hi] at him'
      exact h.incore_eq i m him'

/-- **The free inodes.**  In every history without a search of blocks of 512 bytes while an
inode is free, `s_tinode` counts the free inodes, and `s5ialloc` ends, with a free inode that it
marks used or because there is none: exactly if the next call is none of these either. -/
theorem s5ialloc_exact {calls : List InodeCall} (hs : JustMounted fs s)
    (hC : StepsMeet (Searchable fs) (Isys.step fs (n + 2)) s calls)
    (ht : exec (Isys.step fs (n + 2)) s calls = some t) :
    t.sTinode = freeCount fs t ∧ ∀ mode, mode ≠ 0 →
      ∃ r u, t.ialloc fs mode (n + 2) = some (r, u) ∧
        (AllocRight fs t u mode r ↔ Searchable fs t (.ialloc mode)) := by
  have hstart : IsysOk fs s := by
    refine ⟨?_, ?_, ?_, hs.sTinode_eq, hs.incore_eq, fun _ => hs.sNinode_eq⟩
    · rw [hs.sNinode_eq]
      exact Nat.zero_le _
    · rw [hs.sNinode_eq]
      exact nodup_nil
    · rw [hs.sNinode_eq]
      exact fun i hi => absurd hi (by simp [avail])
  have h : IsysOk fs t :=
    exec_invariant (fun _ _ _ h hC ht => step_ok hs.ninodes_lt h hC ht) hstart hC ht
  refine ⟨h.sTinode_eq, fun mode hmode => ?_⟩
  obtain ⟨r, u, hr, hright, hsmall⟩ := ialloc_spec (n := n) h hmode hs.ninodes_lt
  refine ⟨r, u, hr, fun hret => ?_, fun hor => (hright hor).1⟩
  by_cases hlarge : fs.FsLRG = true
  · exact .inl hlarge
  · right
    rw [hsmall hlarge] at hret
    exact hret

/-- A file system whose inodes are all free. -/
def blankSys (free : ℕ) : Isys := ⟨0, fun _ => 0, free, fun _ _ => 0, fun _ => none⟩

theorem mounted_blank (hlt : fs.ninodes < 2 ^ 16) : JustMounted fs (blankSys fs.ninodes) := by
  refine ⟨hlt, rfl, ?_, fun i m him => ?_⟩
  · have hall : ∀ i ∈ Finset.Icc 1 fs.ninodes, (blankSys fs.ninodes).diMode fs i = 0 :=
      fun i _ => rfl
    rw [freeCount, Finset.filter_true_of_mem hall, Nat.card_Icc]
    exact (Nat.add_sub_cancel _ _).symm
  · cases him

end calls

/-- One buffer of inodes, in blocks of 512 bytes. -/
def blank512 : Ilist := ⟨512, 3, by decide⟩

/-- One buffer of inodes, in blocks of 1024 bytes. -/
def blank1024 : Ilist := ⟨1024, 3, by decide⟩

/-- Eight inodes are free, and `s5ialloc` is out of inodes. -/
theorem search_skipped : JustMounted blank512 (blankSys 8) ∧ blank512.IsInode 1 ∧
    (blankSys 8).diMode blank512 1 = 0 ∧
    ((blankSys 8).ialloc blank512 0o100644 2).map Prod.fst = some .enospc :=
  ⟨by exact mounted_blank (by decide), ⟨by decide, by decide⟩, rfl, by decide⟩

/-- An inode is taken, given back and taken again. -/
def allocAgain : List InodeCall := [.ialloc 0o100644, .ifree 1, .ialloc 0o040755]

theorem s5ialloc_exact_again : ∃ t, exec (Isys.step blank1024 2) (blankSys 16) allocAgain = some t ∧
    t.sTinode = freeCount blank1024 t := by
  obtain ⟨t, ht⟩ : ∃ t, exec (Isys.step blank1024 2) (blankSys 16) allocAgain = some t :=
    isSome_iff_exists.mp (by decide)
  have hmounted : JustMounted blank1024 (blankSys 16) := mounted_blank (by decide)
  refine ⟨t, ht, (s5ialloc_exact (n := 0) hmounted ?_ ht).1⟩
  refine stepsMeet_of_forall fun call _ s => ?_
  cases call with
  | ialloc mode => exact .inl rfl
  | ifree ino => trivial
  | iget ino => trivial
  | iput ino => trivial

end Fs
