import OpusSysV.Fs.S5Bmap
import OpusSysV.Lib.Run
import Mathlib.Data.Nat.Bitwise
import Mathlib.Tactic.Common

/-!
# Reading a directory: `s5getdents` of `fs/s5/s5sys2.c` and `getdents` of `os/sys2.c`

The entries of a directory have 16 bytes each.  `s5getdents` makes a record of each one that is not
empty, and copies the records to the user one block after the other.

* `Directory` — the file with its map of blocks, and the entries in the buffers of the device.
* `fillLoop`, `readLoop`, `s5getdents`, `getdents` — the system call.
* `recordsFrom` — the records of the entries from one on; `layout` is how they lie in memory.
* `Took` — what the loops keep; `s5getdents_spec` is a call, `getdents_lists` a sequence of them.

A user's address space has at most `MAXUMEM`, 2^28, bytes, so that without a fault no count of bytes
here comes near the end of an `int`.
-/

namespace Fs

open Lib List Option

namespace Getdents

/-! ## Entries and records -/

/-- `DIRSIZ` -/
def DIRSIZ : ℕ := 14

/-- An entry of a directory on disk, of 16 bytes. -/
structure Direct where
  d_ino : ℕ
  d_name : ℕ → ℕ

/-- `sizeof(struct direct)` -/
def direct_size : ℕ := 16

/-- A record for the user. -/
structure Dirent where
  d_ino : ℕ
  d_off : ℕ
  d_reclen : ℕ
  d_name : List ℕ

/-- `dirent->d_name - (char *)dirent` -/
def dirsz : ℕ := 10

/-- `NBPW` -/
def NBPW : ℕ := 4

/-- `SBUFSIZE` -/
def SBUFSIZE : ℕ := 1024

/-- The loop over the name that stops at a zero byte. -/
def nameLen (d : Direct) : ℕ := (List.range DIRSIZ).findIdx fun i => d.d_name i = 0

/-- `(dirsz + i + NBPW)&~(NBPW-1)` -/
def recLen (i : ℕ) : ℕ := (dirsz + i + NBPW).ldiff (NBPW - 1)

/-- The record of an entry, when the next entry is at `off`. -/
def toRecord (d : Direct) (off : ℕ) : Dirent :=
  ⟨d.d_ino, off, recLen (nameLen d), (List.range (nameLen d)).map d.d_name ++ [0]⟩

/-! ## The directory -/

/-- A directory: its file, and the entries in each buffer of the device. -/
structure Directory where
  fs : DataVol
  file : S5File
  disk : ℕ → ℕ → Direct

/-- `u.u_pbsize` after `s5bmap(ip, B_READ)`. -/
def Directory.u_pbsize (D : Directory) (uOffset uCount : ℕ) : ℕ :=
  min (min uCount (D.fs.FsBSIZE - uOffset % D.fs.FsBSIZE)) (D.file.iSize - uOffset)

/-! ## s5getdents -/

/-- The variables of the loops.  `temp` and `out` are the contents of the temporary block and of the
user's buffer, each record with its place; `base` is `u.u_base`, from the start of the buffer. -/
structure Fill where
  n : ℕ
  s5dir : ℕ
  m : ℕ
  temp : List (ℕ × Dirent)
  num : ℕ
  base : ℕ
  out : List (ℕ × Dirent)

/-- `copyout((caddr_t)xbp->b_un.b_addr, u.u_base, m)` -/
def Fill.copyout (f : Fill) : Fill :=
  { f with out := f.out ++ f.temp.map fun r => (f.base + r.1, r.2) }

/-- "The following loop fills a block with fs-independent directory entries."  The result is `false`
if it was left because the user's buffer is full.  The first argument bounds the turns. -/
def fillLoop (entries : ℕ → Direct) (bufsz : ℤ) (u_offset k : ℕ) : ℕ → Fill → Option (Bool × Fill)
  | 0, _ => none
  | fuel + 1, f =>
    if 0 < f.n then
      let d := entries f.s5dir
      if d.d_ino = 0 then
        fillLoop entries bufsz u_offset k fuel
          { f with n := f.n - direct_size, s5dir := f.s5dir + 1 }
      else
        let r := toRecord d (u_offset + k - f.n + direct_size)
        if SBUFSIZE < f.m + r.d_reclen ∨ bufsz < (f.num + f.m + r.d_reclen : ℕ) then
          let f := { f.copyout with num := f.num + f.m }
          if bufsz < (f.num + r.d_reclen : ℕ) then some (false, f)
          else
            fillLoop entries bufsz u_offset k fuel
              { f with base := f.base + f.m, m := 0, temp := [] }
        else
          fillLoop entries bufsz u_offset k fuel
            { f with
              m := f.m + r.d_reclen
              temp := f.temp ++ [(f.m, r)]
              n := f.n - direct_size
              s5dir := f.s5dir + 1 }
    else some (true, f)

/-- The errors. -/
inductive Errno where
  | EINVAL
  | ENOENT
  | EFBIG
  deriving DecidableEq

/-- What a call leaves: `u.u_error`, the value returned, `u.u_offset` and the user's buffer. -/
structure Result where
  u_error : Option Errno
  ret : ℤ
  u_offset : ℕ
  out : List (ℕ × Dirent)

/-- `while (u.u_count > 0)`.  The first argument bounds the turns; what `bread` makes of a block
number of -1 is left out. -/
def readLoop (D : Directory) (bufsz : ℤ) : ℕ → ℕ → ℕ → ℕ → ℕ → List (ℕ × Dirent) → Option Result
  | 0, _, _, _, _, _ => none
  | fuel + 1, u_count, u_offset, num, base, out =>
    if 0 < u_count then
      match (D.file.s5bmap D.fs true u_offset u_count 0).1 with
      | .efbig | .enospc => some ⟨some .EFBIG, -1, u_offset, out⟩
      | bn =>
        let n := D.u_pbsize u_offset u_count
        if n = 0 then some ⟨none, num, u_offset, out⟩
        else match bn with
        | .blk bn =>
          match fillLoop (D.disk bn) bufsz u_offset n (n + 1)
            ⟨n, u_offset % D.fs.FsBSIZE / direct_size, 0, [], num, base, out⟩ with
          | none => none
          | some (false, f) =>
            let u_offset := u_offset + (n - f.n)
            if f.num = 0 then some ⟨some .EINVAL, -1, u_offset, f.out⟩
            else some ⟨none, f.num, u_offset, f.out⟩
          | some (true, f) =>
            readLoop D bufsz fuel (u_count - (n - f.n)) (u_offset + (n - f.n)) (f.num + f.m)
              (f.base + f.m) f.copyout.out
        | _ => none
    else some ⟨none, num, u_offset, out⟩

/-- `s5getdents(ip, bufpt, bufsz)` -/
def s5getdents (D : Directory) (u_offset : ℕ) (bufsz : ℤ) : Option Result :=
  if u_offset % direct_size ≠ 0 then some ⟨some .ENOENT, -1, u_offset, []⟩
  else readLoop D bufsz (D.file.iSize + 1) D.file.iSize u_offset 0 0 []

/-- The `getdents` system call: the offset of the file afterwards, and the result. -/
def getdents (D : Directory) (f_offset : ℕ) (nbytes : ℤ) : Option (ℕ × Result) :=
  (s5getdents D f_offset nbytes).map fun r => (if 0 < r.ret then r.u_offset else f_offset, r)

/-! ## What there is to read -/

namespace Directory

/-- The buffer of the device for an offset. -/
def buffer (D : Directory) (o : ℕ) : ℕ :=
  match (D.file.s5bmap D.fs true o 1 0).1 with
  | .blk nb => nb
  | _ => 0

/-- The entry number `e`. -/
def entry (D : Directory) (e : ℕ) : Direct :=
  D.disk (D.buffer (direct_size * e)) (direct_size * e % D.fs.FsBSIZE / direct_size)

/-- A directory: a number of entries, and no hole. -/
structure Ok (D : Directory) : Prop where
  type : D.file.type = .ifdir
  size : direct_size ∣ D.file.iSize
  lt : D.file.iSize < 2 ^ 31
  mapped : ∀ o < D.file.iSize, ∃ nb, (D.file.s5bmap D.fs true o 1 0).1 = .blk nb

/-- The number of entries. -/
def slots (D : Directory) : ℕ := D.file.iSize / direct_size

/-- The record of the entry number `e`, with the offset of the entry behind it. -/
def record (D : Directory) (e : ℕ) : Dirent := toRecord (D.entry e) (direct_size * (e + 1))

/-- The records of the entries from number `e` on that are not empty. -/
def recordsFrom (D : Directory) (e : ℕ) : List Dirent :=
  ((List.range' e (D.slots - e)).filter fun i => (D.entry i).d_ino ≠ 0).map D.record

end Directory

/-- The length of some records. -/
def total (l : List Dirent) : ℕ := (l.map Dirent.d_reclen).sum

/-- The records one behind the other, from place `a` on. -/
def layout : ℕ → List Dirent → List (ℕ × Dirent)
  | _, [] => []
  | a, r :: l => (a, r) :: layout (a + r.d_reclen) l

/-! ## Records -/

section Records

variable {a b e : ℕ} {l l' : List Dirent}

theorem layout_append : layout a (l ++ l') = layout a l ++ layout (a + total l) l' := by
  induction l generalizing a with
  | nil => rfl
  | cons r l ih =>
    rw [cons_append, layout, ih, layout, cons_append, Nat.add_assoc]
    rfl

theorem map_layout : (layout a l).map (fun r => (b + r.1, r.2)) = layout (b + a) l := by
  induction l generalizing a with
  | nil => rfl
  | cons r l ih => rw [layout, map_cons, ih, layout, Nat.add_assoc]

theorem total_append : total (l ++ l') = total l + total l' := by
  rw [total, map_append, sum_append]
  rfl

theorem recLen_checked : ∀ i : Fin 15,
    recLen i % 4 = 0 ∧ dirsz + i + 1 ≤ recLen i ∧ recLen i ≤ 28 := by
  decide +kernel

theorem nameLen_le (d : Direct) : nameLen d ≤ DIRSIZ :=
  findIdx_le_length.trans length_range.le

/-- The length of a record has room for the name and its zero byte, and is a number of words. -/
structure WellFormed (r : Dirent) : Prop where
  words : r.d_reclen % 4 = 0
  room : dirsz + r.d_name.length ≤ r.d_reclen
  le : r.d_reclen ≤ 28

theorem toRecord_wellFormed (d : Direct) (off : ℕ) : WellFormed (toRecord d off) := by
  obtain ⟨h1, h2, h3⟩ := recLen_checked ⟨nameLen d, Nat.lt_succ_of_le (nameLen_le d)⟩
  refine ⟨h1, ?_, h3⟩
  rw [toRecord, length_append, length_map, length_range, length_singleton]
  exact h2

theorem WellFormed.pos {r : Dirent} (h : WellFormed r) : 0 < r.d_reclen := by
  have := h.room
  rw [dirsz] at this
  omega

end Records

namespace Directory

variable {D : Directory} {o o' c c' e : ℕ}

/-- An empty entry gives no record. -/
theorem recordsFrom_skip (he : e < D.slots) (h0 : (D.entry e).d_ino = 0) :
    D.recordsFrom e = D.recordsFrom (e + 1) := by
  unfold recordsFrom
  rw [show D.slots - e = D.slots - (e + 1) + 1 by omega, List.range'_succ,
    filter_cons_of_neg (by rw [h0]; decide)]

/-- The other ones give theirs. -/
theorem recordsFrom_take (he : e < D.slots) (h0 : (D.entry e).d_ino ≠ 0) :
    D.recordsFrom e = D.record e :: D.recordsFrom (e + 1) := by
  unfold recordsFrom
  rw [show D.slots - e = D.slots - (e + 1) + 1 by omega, List.range'_succ,
    filter_cons_of_pos (by simpa using h0), map_cons]

theorem recordsFrom_end (he : D.slots ≤ e) : D.recordsFrom e = [] := by
  unfold recordsFrom
  rw [Nat.sub_eq_zero_of_le he]
  rfl

theorem wellFormed_of_mem {r : Dirent} (h : r ∈ D.recordsFrom e) : WellFormed r := by
  obtain ⟨i, -, rfl⟩ := mem_map.mp h
  exact toRecord_wellFormed _ _

/-! ## The buffers -/

theorem bsize_cases (fs : DataVol) : direct_size ∣ fs.FsBSIZE ∧ 0 < fs.FsBSIZE ∧
    fs.FsBSIZE ≤ 1024 ∧ ∀ o o' : ℕ, o / fs.FsBSIZE = o' / fs.FsBSIZE →
      o >>> fs.FsBSHIFT = o' >>> fs.FsBSHIFT ∧ (1024 < fs.bsize → o >>> 10 = o' >>> 10) := by
  unfold Ilist.FsBSIZE DataVol.FsBSHIFT
  have hmem := fs.bsize_mem
  simp only [mem_cons, not_mem_nil, or_false] at hmem
  have h512 : Nat.log2 512 = 9 := by decide
  have h1024 : Nat.log2 1024 = 10 := by decide
  have h2048 : Nat.log2 2048 = 11 := by decide
  have h4096 : Nat.log2 4096 = 12 := by decide
  have h8192 : Nat.log2 8192 = 13 := by decide
  rcases hmem with h | h | h | h | h <;> rw [h] <;>
    simp only [h512, h1024, h2048, h4096, h8192, Nat.shiftRight_eq_div_pow, direct_size] <;>
    refine ⟨by decide, by decide, by decide, fun o o' hoo => ?_⟩ <;>
    norm_num at hoo ⊢ <;> omega

/-- Before the end, `s5bmap` looks for the block. -/
theorem s5bmap_before (h : D.Ok) (ho : o < D.file.iSize) (hc : 0 < c) :
    D.file.s5bmap D.fs true o c 0 =
      match D.file.block D.fs true (o >>> D.fs.FsBSHIFT) with
      | (.blk nb, s) =>
        if D.fs.bsize > 1024 then
          (.blk (nb * (D.fs.bsize / 1024) + ((o >>> 10) &&& (D.fs.bsize / 1024 - 1))), s)
        else (.blk nb, s)
      | r => r := by
  obtain ⟨-, hpos, -, -⟩ := bsize_cases D.fs
  have hlt := h.lt
  have hmod := Nat.mod_lt o hpos
  have h31 : ¬ o ≥ 2 ^ 31 := by omega
  have hsome : ¬ ((true : Bool) = true ∧ min (min c (D.fs.FsBSIZE - o % D.fs.FsBSIZE))
      (if D.file.type = .ififo then D.file.iSize else D.file.iSize - o) = 0) := by
    rw [h.type, if_neg (by decide)]
    omega
  unfold S5File.s5bmap
  dsimp only
  exact (if_neg h31).trans ((if_neg (by simp)).trans (if_neg hsome))

/-- `s5bmap` gives the same for all offsets of a buffer that are before the end. -/
theorem s5bmap_congr (h : D.Ok) (ho : o < D.file.iSize) (ho' : o' < D.file.iSize) (hc : 0 < c)
    (hc' : 0 < c') (hoo : o / D.fs.FsBSIZE = o' / D.fs.FsBSIZE) :
    (D.file.s5bmap D.fs true o c 0).1 = (D.file.s5bmap D.fs true o' c' 0).1 := by
  obtain ⟨-, hpos, -, hsame⟩ := bsize_cases D.fs
  obtain ⟨hbn, hsub⟩ := hsame o o' hoo
  rw [s5bmap_before h ho hc, s5bmap_before h ho' hc', hbn]
  split
  next nb s _ =>
    split
    next hbig => rw [hsub hbig]
    next => rfl
  next => rfl

/-- `s5bmap` at an offset before the end. -/
theorem s5bmap_eq (h : D.Ok) (ho : o < D.file.iSize) (hc : 0 < c) :
    (D.file.s5bmap D.fs true o c 0).1 = .blk (D.buffer o) := by
  obtain ⟨nb, hnb⟩ := h.mapped o ho
  rw [s5bmap_congr h ho ho hc one_pos rfl, buffer, hnb]

/-- `s5bmap` at the end. -/
theorem s5bmap_end (h : D.Ok) (c : ℕ) :
    (D.file.s5bmap D.fs true D.file.iSize c 0).1 = .hole := by
  have hlt := h.lt
  unfold S5File.s5bmap
  dsimp only
  have h31 : ¬ D.file.iSize ≥ 2 ^ 31 := by omega
  have hend : (true : Bool) = true ∧ min (min c (D.fs.FsBSIZE - D.file.iSize % D.fs.FsBSIZE))
      (if D.file.type = .ififo then D.file.iSize else D.file.iSize - D.file.iSize) = 0 := by
    rw [h.type, if_neg (by decide)]
    exact ⟨rfl, by omega⟩
  rw [if_neg h31, if_neg (by simp), if_pos hend]

/-- The entries of the buffer of an offset, from this one on. -/
theorem entry_eq (h : D.Ok) {e i : ℕ} (hi : direct_size * (e + i) < D.file.iSize)
    (hblock : direct_size * e % D.fs.FsBSIZE + direct_size * i < D.fs.FsBSIZE) :
    D.entry (e + i) = D.disk (D.buffer (direct_size * e))
      (direct_size * e % D.fs.FsBSIZE / direct_size + i) := by
  obtain ⟨⟨q, hq⟩, hpos, -, -⟩ := bsize_cases D.fs
  have hdiv : direct_size * (e + i) / D.fs.FsBSIZE = direct_size * e / D.fs.FsBSIZE := by
    have h1 := Nat.div_add_mod (direct_size * e) D.fs.FsBSIZE
    rw [Nat.mul_add, ← h1, Nat.add_assoc, Nat.mul_add_div hpos, Nat.div_eq_of_lt hblock,
      Nat.mul_add_div hpos, Nat.div_eq_of_lt (Nat.mod_lt _ hpos)]
  have hmod : direct_size * (e + i) % D.fs.FsBSIZE =
      direct_size * e % D.fs.FsBSIZE + direct_size * i := by
    rw [Nat.mul_add, Nat.add_mod, Nat.mod_eq_of_lt (b := D.fs.FsBSIZE) (a := direct_size * i) (by omega),
      Nat.mod_eq_of_lt hblock]
  have hle : direct_size * e ≤ direct_size * (e + i) := Nat.mul_le_mul_left _ (Nat.le_add_right e i)
  have hbuf : D.buffer (direct_size * (e + i)) = D.buffer (direct_size * e) := by
    unfold buffer
    rw [s5bmap_congr h hi (by omega) one_pos one_pos hdiv]
  rw [entry, hbuf, hmod, Nat.add_mul_div_left _ _ (by decide)]

/-! ## The loops -/

/-- The records `P` were taken from the entries before number `e`, the first one is number `e0`. -/
structure Took (D : Directory) (bufsz : ℤ) (e0 : ℕ) (P : List Dirent) (e : ℕ) : Prop where
  split : D.recordsFrom e0 = P ++ D.recordsFrom e
  fits : P = [] ∨ (total P : ℤ) ≤ bufsz

/-- There is another record, for which the user's buffer has no room. -/
def NoRoom (D : Directory) (bufsz : ℤ) (P : List Dirent) (e : ℕ) : Prop :=
  ∃ r l, D.recordsFrom e = r :: l ∧ bufsz < (total P + r.d_reclen : ℕ)

/-- The loop over `k` bytes from entry `e` on has come to entry `c`: the records `P` are in the
user's buffer, and `Q` in the temporary block. -/
structure Filling (D : Directory) (bufsz : ℤ) (e0 e k : ℕ) (f : Fill) (c : ℕ) (P Q : List Dirent) :
    Prop where
  took : D.Took bufsz e0 (P ++ Q) c
  out : f.out = layout 0 P
  num : f.num = total P
  base : f.base = total P
  temp : f.temp = layout 0 Q
  m : f.m = total Q
  le : e ≤ c
  n : direct_size * c + f.n = direct_size * e + k
  s5dir : f.s5dir = direct_size * e % D.fs.FsBSIZE / direct_size + (c - e)

variable {bufsz : ℤ} {e0 e k : ℕ} {f : Fill} {P Q : List Dirent}

section

variable (hF : D.Filling bufsz e0 e k f c P Q)

include hF

theorem Filling.copyout_out :
    f.copyout.out = layout 0 (P ++ Q) := by
  rw [Fill.copyout, layout_append, hF.out, hF.temp, hF.base, map_layout, Nat.zero_add, Nat.add_zero]

/-- After the block was copied out, the loop goes on with an empty one. -/
theorem Filling.flushed :
    D.Filling bufsz e0 e k
      { f.copyout with num := f.num + f.m, base := f.base + f.m, m := 0, temp := [] } c
      (P ++ Q) [] where
  took := by rw [append_nil]; exact hF.took
  out := hF.copyout_out
  num := by rw [total_append, ← hF.num, ← hF.m]
  base := by rw [total_append, ← hF.base, ← hF.m]
  temp := rfl
  m := rfl
  le := hF.le
  n := hF.n
  s5dir := hF.s5dir

/-- What is left of the bytes is a number of entries. -/
theorem Filling.n_pos (hk : direct_size ∣ k) (hn : 0 < f.n) :
    direct_size ≤ f.n := by
  obtain ⟨q, rfl⟩ := hk
  have := hF.n
  rw [direct_size] at this ⊢
  omega

/-- The entry that the loop looks at. -/
theorem Filling.entry (h : D.Ok)
    (hsize : direct_size * e + k ≤ D.file.iSize)
    (hblock : direct_size * e % D.fs.FsBSIZE + k ≤ D.fs.FsBSIZE) (hn : direct_size ≤ f.n) :
    c < D.slots ∧ D.disk (D.buffer (direct_size * e)) f.s5dir = D.entry c := by
  obtain ⟨i, rfl⟩ := Nat.exists_eq_add_of_le hF.le
  have hcn := hF.n
  have hlt : direct_size * (e + i) + direct_size ≤ D.file.iSize := by omega
  refine ⟨(Nat.le_div_iff_mul_le (by decide)).mpr ?_, ?_⟩
  · rw [Nat.succ_mul, Nat.mul_comm]
    exact hlt
  · rw [Nat.mul_add] at hcn
    have hin : direct_size * e % D.fs.FsBSIZE + direct_size * i < D.fs.FsBSIZE := by
      have : 0 < direct_size := by decide
      omega
    have hend : direct_size * (e + i) < D.file.iSize := by
      have : 0 < direct_size := by decide
      omega
    rw [entry_eq h hend hin, hF.s5dir, Nat.add_sub_cancel_left]

end

/-- **The loop over a block.**  It comes to the end of the block, or it leaves when the user's
buffer has no room for the next record. -/
theorem fillLoop_spec (h : D.Ok) (hsize : direct_size * e + k ≤ D.file.iSize)
    (hblock : direct_size * e % D.fs.FsBSIZE + k ≤ D.fs.FsBSIZE) (hk : direct_size ∣ k) (fuel : ℕ)
    (hfuel : 2 * (f.n / direct_size) + (if f.m = 0 then 0 else 1) < fuel)
    (hF : D.Filling bufsz e0 e k f c P Q) :
    (∃ g c P Q, fillLoop (D.disk (D.buffer (direct_size * e))) bufsz (direct_size * e) k fuel f =
        some (true, g) ∧ D.Filling bufsz e0 e k g c P Q ∧ g.n = 0) ∨
      ∃ g c P, fillLoop (D.disk (D.buffer (direct_size * e))) bufsz (direct_size * e) k fuel f =
        some (false, g) ∧ D.Took bufsz e0 P c ∧ g.out = layout 0 P ∧ g.num = total P ∧ e ≤ c ∧
        direct_size * c + g.n = direct_size * e + k ∧ D.NoRoom bufsz P c := by
  induction fuel generalizing f c P Q with
  | zero => omega
  | succ fuel ih =>
    rw [fillLoop]
    by_cases hn : 0 < f.n
    · have hn16 := hF.n_pos hk hn
      obtain ⟨hc, hentry⟩ := hF.entry h hsize hblock hn16
      have hdiv : (f.n - direct_size) / direct_size + 1 = f.n / direct_size := by
        rw [← Nat.add_div_right _ (by decide), Nat.sub_add_cancel hn16]
      have hcn := hF.n
      have hoff : direct_size * e + k - f.n + direct_size = direct_size * (c + 1) := by
        rw [← hcn, Nat.add_sub_cancel, Nat.mul_succ]
      have hn' : direct_size * (c + 1) + (f.n - direct_size) = direct_size * e + k := by
        rw [Nat.mul_succ]
        omega
      have hs' : f.s5dir + 1 =
          direct_size * e % D.fs.FsBSIZE / direct_size + (c + 1 - e) := by
        rw [hF.s5dir, Nat.succ_sub hF.le]
        rfl
      rw [if_pos hn]
      dsimp only
      rw [hentry, hoff]
      by_cases h0 : (D.entry c).d_ino = 0
      · rw [if_pos h0]
        refine ih (P := P) (Q := Q) (c := c + 1) (by dsimp only; omega) ⟨⟨?_, hF.took.fits⟩, hF.out,
          hF.num, hF.base, hF.temp, hF.m, Nat.le_succ_of_le hF.le, hn', hs'⟩
        rw [hF.took.split, recordsFrom_skip hc h0]
      · rw [if_neg h0]
        have hnext := recordsFrom_take hc h0
        have hwf : WellFormed (D.record c) := toRecord_wellFormed _ _
        rw [show toRecord (D.entry c) (direct_size * (c + 1)) = D.record c from rfl]
        split
        next hfull =>
          split
          next hout =>
            refine .inr ⟨_, c, P ++ Q, rfl, hF.took, hF.copyout_out, ?_, hF.le, hcn, _, _, hnext,
              ?_⟩
            · rw [total_append, ← hF.num, ← hF.m]
            · rw [total_append, ← hF.num, ← hF.m]
              exact hout
          next hroom =>
            -- the temporary block is not empty, otherwise the user's buffer were full
            have hm : f.m ≠ 0 := by
              intro hm
              have hle := hwf.le
              rw [hm, SBUFSIZE] at hfull
              rw [hm] at hroom
              rcases hfull with hfull | hfull
              · omega
              · exact hroom hfull
            rw [if_neg hm] at hfuel
            refine ih (P := P ++ Q) (Q := []) (c := c) ?_ hF.flushed
            dsimp only [Fill.copyout]
            rw [if_pos rfl]
            omega
        next hfit =>
          push Not at hfit
          refine ih (P := P) (Q := Q ++ [D.record c]) (c := c + 1) ?_ ⟨⟨?_, .inr ?_⟩, hF.out, hF.num,
            hF.base, ?_, ?_, Nat.le_succ_of_le hF.le, hn', hs'⟩
          · dsimp only
            split <;> omega
          · rw [hF.took.split, hnext, append_assoc, append_assoc, append_assoc]
            rfl
          · rw [← append_assoc, total_append, total_append, ← hF.num, ← hF.m]
            simpa [total] using hfit.2
          · dsimp only
            rw [layout_append, hF.temp, hF.m, Nat.zero_add]
            rfl
          · dsimp only
            rw [total_append, hF.m]
            rfl
    · rw [if_neg hn]
      exact .inl ⟨f, c, P, Q, rfl, hF, by omega⟩

/-- What a call that began with entry number `e0` has done when it returns. -/
inductive Read (D : Directory) (bufsz : ℤ) (e0 : ℕ) (r : Result) : Prop
  /-- All records were taken. -/
  | all (P : List Dirent) (e : ℕ) (took : D.Took bufsz e0 P e) (le : direct_size * e ≤ D.file.iSize)
      (offset : r.u_offset = direct_size * e) (out : r.out = layout 0 P)
      (done : D.recordsFrom e = []) (error : r.u_error = none) (ret : r.ret = total P)
  /-- The user's buffer is full. -/
  | full (P : List Dirent) (e : ℕ) (took : D.Took bufsz e0 P e)
      (le : direct_size * e ≤ D.file.iSize) (offset : r.u_offset = direct_size * e)
      (out : r.out = layout 0 P) (more : D.NoRoom bufsz P e)
      (error : r.u_error = if total P = 0 then some .EINVAL else none)
      (ret : r.ret = if total P = 0 then -1 else (total P : ℤ))

/-- The bytes that the loop reads at once, before the end of the file. -/
theorem u_pbsize_spec (h : D.Ok) {u_count : ℕ} (hcount : D.file.iSize ≤ direct_size * e + u_count)
    (hlt : direct_size * e < D.file.iSize) :
    0 < D.u_pbsize (direct_size * e) u_count ∧
      direct_size ∣ D.u_pbsize (direct_size * e) u_count ∧
      direct_size * e + D.u_pbsize (direct_size * e) u_count ≤ D.file.iSize ∧
      direct_size * e % D.fs.FsBSIZE + D.u_pbsize (direct_size * e) u_count ≤ D.fs.FsBSIZE ∧
      D.u_pbsize (direct_size * e) u_count ≤ u_count := by
  obtain ⟨hB, hpos, -, -⟩ := bsize_cases D.fs
  have hmod := Nat.mod_lt (direct_size * e) hpos
  have hmin : D.u_pbsize (direct_size * e) u_count =
      min (D.fs.FsBSIZE - direct_size * e % D.fs.FsBSIZE) (D.file.iSize - direct_size * e) := by
    rw [u_pbsize]
    omega
  have h1 : direct_size ∣ D.fs.FsBSIZE - direct_size * e % D.fs.FsBSIZE :=
    Nat.dvd_sub hB ((Nat.dvd_mod_iff hB).mpr (Nat.dvd_mul_right _ _))
  have h2 : direct_size ∣ D.file.iSize - direct_size * e :=
    Nat.dvd_sub h.size (Nat.dvd_mul_right _ _)
  refine ⟨by omega, ?_, by omega, by omega, by omega⟩
  rw [hmin]
  rcases min_choice (D.fs.FsBSIZE - direct_size * e % D.fs.FsBSIZE)
    (D.file.iSize - direct_size * e) with h3 | h3 <;> rw [h3]
  · exact h1
  · exact h2

/-- **The loop over the blocks.** -/
theorem readLoop_spec (h : D.Ok) {fuel u_count : ℕ} (he : direct_size * e ≤ D.file.iSize)
    (hcount : D.file.iSize ≤ direct_size * e + u_count)
    (hfuel : D.file.iSize < direct_size * e + fuel) (hT : D.Took bufsz e0 P e) :
    ∃ r, readLoop D bufsz fuel u_count (direct_size * e) (total P) (total P) (layout 0 P) = some r ∧
      D.Read bufsz e0 r := by
  have hend : D.file.iSize = direct_size * e → D.recordsFrom e = [] := by
    intro hi
    refine recordsFrom_end ?_
    rw [slots, hi, Nat.mul_div_cancel_left _ (by decide)]
  induction fuel generalizing u_count e P with
  | zero => omega
  | succ fuel ih =>
    rw [readLoop]
    split
    next hpos =>
      by_cases hlt : direct_size * e < D.file.iSize
      · rw [s5bmap_eq h hlt hpos]
        obtain ⟨hn, hdvd, hsize, hblock, hle⟩ := u_pbsize_spec h hcount hlt
        have hF : D.Filling bufsz e0 e (D.u_pbsize (direct_size * e) u_count)
            ⟨D.u_pbsize (direct_size * e) u_count, direct_size * e % D.fs.FsBSIZE / direct_size, 0,
              [], total P, total P, layout 0 P⟩ e P [] :=
          ⟨by rwa [append_nil], rfl, rfl, rfl, rfl, rfl, le_rfl, rfl, by rw [Nat.sub_self]; rfl⟩
        generalize D.u_pbsize (direct_size * e) u_count = n at *
        have hfuel' : 2 * (n / direct_size) + (if (0 : ℕ) = 0 then 0 else 1) < n + 1 := by
          rw [if_pos rfl, direct_size]
          omega
        dsimp only
        rw [if_neg (by omega)]
        rcases fillLoop_spec h hsize hblock hdvd (n + 1) hfuel' hF with
          ⟨g, c, P', Q, heq, hG, hg⟩ | ⟨g, c, P', heq, hTook, hout, hnum, hec, hcn, hroom⟩
        · have hcn := hG.n
          have hT' := hG.took
          rw [hg, Nat.add_zero] at hcn
          rw [heq]
          dsimp only
          rw [hG.copyout_out, hG.num, hG.base, hG.m, ← total_append, hg, Nat.sub_zero, ← hcn]
          refine ih (by omega) (by omega) (by omega) hT' fun hi => recordsFrom_end ?_
          rw [slots, hi, Nat.mul_div_cancel_left _ (by decide)]
        · have hoff : direct_size * e + (n - g.n) = direct_size * c := by
            have := Nat.mul_le_mul_left direct_size hec
            omega
          rw [heq]
          dsimp only
          rw [hnum, hoff]
          split
          next h0 =>
            exact ⟨_, rfl, .full P' c hTook (by omega) rfl hout hroom (by rw [if_pos h0])
              (by rw [if_pos h0])⟩
          next h0 =>
            exact ⟨_, rfl, .full P' c hTook (by omega) rfl hout hroom (by rw [if_neg h0])
              (by rw [if_neg h0])⟩
      · have hi : D.file.iSize = direct_size * e := by omega
        have hbmap := s5bmap_end h u_count
        rw [hi] at hbmap
        have hzero : D.u_pbsize (direct_size * e) u_count = 0 := by
          rw [u_pbsize, hi]
          omega
        rw [hbmap]
        dsimp only
        rw [if_pos hzero]
        exact ⟨_, rfl, .all P e hT he rfl rfl (hend hi) rfl rfl⟩
    next hpos =>
      exact ⟨_, rfl, .all P e hT he rfl rfl (hend (by omega)) rfl rfl⟩

/-- **One call.** -/
theorem s5getdents_spec (h : D.Ok) (he : direct_size * e ≤ D.file.iSize) :
    ∃ r, s5getdents D (direct_size * e) bufsz = some r ∧ D.Read bufsz e r := by
  rw [s5getdents, if_neg (by rw [Nat.mul_mod_right]; decide)]
  exact readLoop_spec (P := []) h he (by omega) (by omega) ⟨rfl, .inl rfl⟩

end Directory

/-! ## A sequence of calls -/

/-- An open directory: the offset of the file, and the calls so far with their results. -/
structure Reader where
  f_offset : ℕ
  calls : List (ℤ × Result)

/-- The next call has `nbytes` bytes of room. -/
def Reader.call (D : Directory) (s : Reader) (nbytes : ℤ) : Option Reader :=
  (getdents D s.f_offset nbytes).map fun x => ⟨x.1, s.calls ++ [(nbytes, x.2)]⟩

/-- There is room for the next record. -/
def Reader.LargeEnough (D : Directory) (s : Reader) (nbytes : ℤ) : Prop :=
  ∀ r ∈ (D.recordsFrom (s.f_offset / direct_size)).head?, (r.d_reclen : ℤ) ≤ nbytes

/-- A call without error returned the records `part`: they fill the bytes that are returned, which
the user's buffer has. -/
structure Returned (call : ℤ × Result) (part : List Dirent) : Prop where
  error : call.2.u_error = none
  out : call.2.out = layout 0 part
  ret : call.2.ret = total part
  le : part ≠ [] → call.2.ret ≤ call.1
  wellFormed : ∀ r ∈ part, WellFormed r

/-- The calls returned the records `parts`, and entry number `e` is the next. -/
structure Listed (D : Directory) (s : Reader) (parts : List (List Dirent)) (e : ℕ) : Prop where
  offset : s.f_offset = direct_size * e
  le : direct_size * e ≤ D.file.iSize
  returned : List.Forall₂ Returned s.calls parts
  split : D.recordsFrom 0 = parts.flatten ++ D.recordsFrom e
  zero : ∀ i call, s.calls[i]? = some call → call.2.ret = 0 →
    (parts.take i).flatten = D.recordsFrom 0

section Calls

variable {D : Directory} {s : Reader} {nbytes : ℤ} {parts : List (List Dirent)} {e : ℕ}

theorem total_pos {l : List Dirent} (hl : l ≠ []) (h : ∀ r ∈ l, WellFormed r) : 0 < total l := by
  obtain ⟨r, l, rfl⟩ := exists_cons_of_ne_nil hl
  have := (h r mem_cons_self).pos
  rw [total, map_cons, sum_cons]
  omega

/-- The records of a call with room for one record. -/
theorem getdents_spec (h : D.Ok) (he : direct_size * e ≤ D.file.iSize)
    (hroom : ∀ r ∈ (D.recordsFrom e).head?, (r.d_reclen : ℤ) ≤ nbytes) :
    ∃ r part e', getdents D (direct_size * e) nbytes = some (direct_size * e', r) ∧
      direct_size * e' ≤ D.file.iSize ∧ Returned (nbytes, r) part ∧
      D.recordsFrom e = part ++ D.recordsFrom e' ∧ (r.ret = 0 → D.recordsFrom e = []) := by
  obtain ⟨r, hr, hread⟩ : ∃ r, s5getdents D (direct_size * e) nbytes = some r ∧
      D.Read nbytes e r := Directory.s5getdents_spec h he
  have hwf (P : List Dirent) (e' : ℕ) (hT : D.Took nbytes e P e') : ∀ r ∈ P, WellFormed r :=
    fun r hr => Directory.wellFormed_of_mem (D := D) (e := e) (hT.split ▸ mem_append_left _ hr)
  rw [getdents, hr]
  cases hread with
  | all P e' took le offset out done error ret =>
    have hall := took.split
    rw [done, append_nil] at hall
    by_cases hP : P = []
    · subst hP
      have hret : ¬ 0 < r.ret := by rw [ret]; decide
      refine ⟨r, [], e, by rw [map_some, if_neg hret], he, ⟨error, out, ret, ?_, ?_⟩, rfl,
        fun _ => hall⟩
      · exact fun h => absurd rfl h
      · exact fun _ h => nomatch h
    · have hpos := total_pos hP (hwf P e' took)
      have hret : 0 < r.ret := by rw [ret]; exact_mod_cast hpos
      refine ⟨r, P, e', by rw [map_some, if_pos hret, offset], le,
        ⟨error, out, ret, fun _ => ?_, hwf P e' took⟩, took.split, fun h0 => by omega⟩
      rw [ret]
      exact took.fits.resolve_left hP
  | full P e' took le offset out more error ret =>
    have hP : P ≠ [] := by
      rintro rfl
      obtain ⟨r', l, hr', hlt⟩ := more
      have hle := hroom r' (by rw [took.split, nil_append, hr']; rfl)
      rw [total, map_nil, sum_nil, Nat.zero_add] at hlt
      omega
    have hpos := total_pos hP (hwf P e' took)
    rw [if_neg hpos.ne'] at error ret
    have hret : 0 < r.ret := by rw [ret]; exact_mod_cast hpos
    refine ⟨r, P, e', by rw [map_some, if_pos hret, offset], le,
      ⟨error, out, ret, fun _ => ?_, hwf P e' took⟩, took.split, fun h0 => by omega⟩
    rw [ret]
    exact took.fits.resolve_left hP

/-- A call adds its records. -/
theorem Listed.call (h : D.Ok) (hL : Listed D s parts e) (hroom : s.LargeEnough D nbytes) :
    ∃ t part e', s.call D nbytes = some t ∧ Listed D t (parts ++ [part]) e' := by
  have hdiv : s.f_offset / direct_size = e := by
    rw [hL.offset, Nat.mul_div_cancel_left _ (by decide)]
  rw [Reader.LargeEnough, hdiv] at hroom
  obtain ⟨r, part, e', hcall, he', hret, hsplit, hzero⟩ := getdents_spec h hL.le hroom
  refine ⟨⟨direct_size * e', s.calls ++ [(nbytes, r)]⟩, part, e', ?_, rfl, he', ?_, ?_, ?_⟩
  · rw [Reader.call, hL.offset, hcall]
    rfl
  · exact rel_append hL.returned (.cons hret .nil)
  · rw [hL.split, hsplit, flatten_append, flatten_singleton, append_assoc]
  · intro i call hi h0
    have hlen := hL.returned.length_eq
    rcases Nat.lt_or_ge i s.calls.length with hlt | hge
    · rw [List.getElem?_append_left hlt] at hi
      rw [take_append_of_le_length (by omega)]
      exact hL.zero i call hi h0
    · rw [List.getElem?_append_right hge] at hi
      obtain ⟨h1, rfl⟩ : i - s.calls.length = 0 ∧ (nbytes, r) = call := by
        rcases Nat.eq_zero_or_pos (i - s.calls.length) with h1 | h1
        · rw [h1] at hi
          exact ⟨h1, Option.some.inj hi⟩
        · rw [List.getElem?_eq_none (by rw [length_singleton]; exact h1)] at hi
          cases hi
      rw [show i = parts.length by omega, take_left, hL.split, hzero h0, append_nil]

theorem Listed.run (h : D.Ok) {sizes : List ℤ} (hL : Listed D s parts e)
    (hroom : StepsMeet (Reader.LargeEnough D) (Reader.call D) s sizes) :
    ∃ t parts e, exec (Reader.call D) s sizes = some t ∧ Listed D t parts e := by
  induction sizes generalizing s parts e with
  | nil => exact ⟨s, parts, e, rfl, hL⟩
  | cons nbytes sizes ih =>
    obtain ⟨t, part, e', ht, hL'⟩ := hL.call h hroom.1
    obtain ⟨u, parts', e'', hu, hL''⟩ := ih hL' (hroom.2 t ht)
    exact ⟨u, parts', e'', exec_cons.mpr ⟨t, ht, hu⟩, hL''⟩

/-- **A directory is listed exactly.**  Calls with room for the next record return all records that
are not empty, in their order and each once, those before the current offset; each call's records are
well formed and fill the bytes that it returns; and the first call that returns zero comes after all
of them. -/
theorem getdents_lists (h : D.Ok) {sizes : List ℤ}
    (hroom : StepsMeet (Reader.LargeEnough D) (Reader.call D) ⟨0, []⟩ sizes) :
    ∃ t parts e, exec (Reader.call D) ⟨0, []⟩ sizes = some t ∧ Listed D t parts e := by
  have hstart : Listed D ⟨0, []⟩ [] 0 :=
    ⟨rfl, Nat.zero_le _, .nil, rfl, fun i call hi => by cases hi⟩
  exact hstart.run h hroom

/-- A directory of four entries, the second of which is empty. -/
def fourEntries : Directory where
  fs := ⟨⟨1024, 4, blank1024.bsize_mem⟩, 100, by decide, by decide⟩
  file := ⟨.ifdir, fun i => if i = 0 then 10 else 0, 64, fun _ _ => 0, [], []⟩
  disk := fun nb i =>
    if nb = 10 then ⟨[2, 0, 5, 7].getD i 0, fun j => if j = 0 ∨ i = 2 ∧ j = 1 then 97 else 0⟩
    else ⟨0, fun _ => 0⟩

/-- Three calls with room for one record, and one that returns zero. -/
theorem getdents_lists_four :
    (exec (Reader.call fourEntries) ⟨0, []⟩ [12, 16, 30, 12]).map
        (fun t => (t.f_offset, t.calls.map fun c => c.2.ret)) = some (64, [12, 16, 12, 0]) ∧
      ∃ t parts e, exec (Reader.call fourEntries) ⟨0, []⟩ [12, 16, 30, 12] = some t ∧
        Listed fourEntries t parts e := by
  refine ⟨by decide +kernel, getdents_lists ⟨rfl, by decide, by decide, ?_⟩ ?_⟩
  · intro o ho
    refine ⟨10, ?_⟩
    have hall : ∀ o < 64, (fourEntries.file.s5bmap fourEntries.fs true o 1 0).1 = .blk 10 := by
      decide +kernel
    exact hall o ho
  · refine stepsMeet_of_allSteps
      (c := fun s n => (fourEntries.recordsFrom (s.f_offset / direct_size)).head?.all
        fun r => (r.d_reclen : ℤ) ≤ n) ?_ (by decide +kernel)
    intro s n hall r hr
    rw [Option.mem_def.mp hr] at hall
    simpa using hall

end Calls

end Getdents

end Fs
