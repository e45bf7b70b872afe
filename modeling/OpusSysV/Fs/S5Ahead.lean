import OpusSysV.Fs.S5Bmap
import OpusSysV.Lib.Reads
import Mathlib

/-!
# The read-ahead of `s5bmap` in `fs/s5/s5subr.c`

When a file is read in order, `s5bmap` also looks at the addresses behind the one it returns, to
say what can be read ahead.  An indirect block is read in buffers of 1024 bytes, and the index
into it is masked to a buffer; the bounds of the look-ahead are those of the whole block, and of
the device number.

* `Access` — a word of an indirect buffer, or of the addresses of the inode.
* `Vol`, `Node` — what is fixed for a mount, and what a call can change; the words are of 32 bits.
* `s5bmap` — the routine with all its reads; the allocation of a block is a parameter.
* `Stays` — the look-ahead in a buffer ends before its last word does.
* `s5bmap_stays` — all reads are inside the buffers exactly if each look-ahead does.
-/

namespace Fs.Ahead

open Lib Function

/-! ## Reads -/

/-- `bap[i]` in a buffer of 1024 bytes, or `s5i_addr[i]`. -/
inductive Access
  | bap (i : ℕ)
  | addr (i : ℕ)
  deriving DecidableEq, Repr

/-- The index is inside the buffer, or among the addresses. -/
def Access.Safe : Access → Prop
  | .bap i => i ≤ 255
  | .addr i => i < NADDR

/-- The block size of a mount, its device, and the tunables of the read-ahead. -/
structure Vol where
  bsize : ℕ
  dev : UInt32
  coalEnb : Bool
  tMaxrdahead : ℤ
  bsize_mem : bsize ∈ [1024, 2048, 4096, 8192]

/-- `IFMT` of a file with blocks, or of a block device. -/
inductive Ftype
  | ifreg
  | ifdir
  | ififo
  | ifblk
  deriving DecidableEq, Repr

/-- An inode, the buffers of its device, or none where `bread` fails, and `u.u_rablock`. -/
structure Node where
  type : Ftype
  addr : ℕ → UInt32
  iSize : ℤ
  lastr : ℤ
  buf : UInt32 → Option (ℕ → UInt32)
  uRablock : UInt32

/-- Why `s5bmap` returns -1. -/
inductive Fail
  | hole
  | efbig
  | enospc
  | eio
  deriving DecidableEq, Repr

/-- A piece of `s5bmap`. -/
abbrev Log (α : Type) := Reads Access (Fail × Node) α

/-- `FsNINDIR(x)` of an unsigned. -/
def FsNINDIR (x : UInt32) : UInt32 := x / 4

namespace Vol

variable (fs : Vol)

/-- `mp->m_bsize/1024` -/
def bufs : ℕ := fs.bsize / 1024

/-- `(u.u_offset >> 10) & (mp->m_bsize/1024-1)` -/
def sub (uOffset : ℤ) : ℕ := (uOffset >>> 10).toNat &&& (fs.bufs - 1)

end Vol

/-! ## Looking ahead -/

/-- The loop over the words behind `nb`, from the `n`th on, with `k` left to the bound; `full` is
the test behind `racount++`. -/
def scan (read : ℕ → Log UInt32) (full : ℕ → Bool) (nb : UInt32) : ℕ → ℕ → ℕ → Log ℕ
  | 0, _, racount => .ok racount
  | k + 1, n, racount =>
    (read n).bind fun w =>
      if w = nb + UInt32.ofNat n then
        if full racount then .ok (racount + 1) else scan read full nb k (n + 1) (racount + 1)
      else .ok racount

/-- What is made of `racount`: the value of `u.u_rablock`. -/
def setRablock (fs : Vol) (sub : ℕ) (read : ℕ → Log UInt32) (racount : ℕ) : Log UInt32 :=
  let racount := racount * fs.bufs + (fs.bufs - 1 - sub)
  if racount ≠ 0 then .ok (0x80000000 ||| UInt32.ofInt (min racount fs.tMaxrdahead))
  else (read 1).bind fun w => .ok (w * UInt32.ofNat fs.bufs)

/-- "calculate read-ahead" -/
def readAhead (fs : Vol) (sub : ℕ) (read : ℕ → Log UInt32) (full : ℕ → Bool) (limit : ℕ)
    (nb : UInt32) : Log UInt32 :=
  if fs.coalEnb then (scan read full nb limit 1 0).bind (setRablock fs sub read)
  else (read 1).bind fun w => .ok (w * UInt32.ofNat fs.bufs)

/-- The read-ahead behind `s5i_addr[i]`. -/
def addrAhead (fs : Vol) (sub : ℕ) (addr : ℕ → UInt32) (i : ℕ) (nb : UInt32) : Log UInt32 :=
  readAhead fs sub (fun n => .one (.addr (i + n)) (addr (i + n))) (fun _ => false) (NADDR - 3 - i) nb

/-- The read-ahead behind `bap[i]`; the bound is of the device number. -/
def bapAhead (fs : Vol) (sub : ℕ) (bap : ℕ → UInt32) (i : ℕ) (nb : UInt32) : Log UInt32 :=
  readAhead fs sub (fun n => .one (.bap (i + n)) (bap (i + n)))
    (fun racount => (racount : ℤ) ≥ fs.tMaxrdahead)
    (FsNINDIR fs.dev - 1 - UInt32.ofNat i).toNat nb

/-! ## The routine -/

section routine

variable (fs : Vol)
/- `s5alloc` and the clearing of the buffers of the block: its number, and what is left. -/
variable (alloc : Node → Option (UInt32 × Node))

/-- `s5bmap` before it looks for the block: its number in the file, whether to read ahead, and
the inode with the new `s5i_lastr`. -/
def start (readflg : Bool) (uOffset : ℤ) (uCount uLimit : ℕ) (ip : Node) :
    Except (Except (Fail × Node) (UInt32 × Node)) (ℕ × Bool × Node) :=
  let ip := { ip with uRablock := 0 }
  let bsize := if ip.type = .ifblk then 1024 else fs.bsize
  let bn := uOffset >>> Nat.log2 bsize
  if bn < 0 then .error (.error (.efbig, ip))
  else
    let left := 1024 - uOffset % 1024
    let raflag := decide (ip.lastr + 1 = bn) && decide (left ≤ uCount)
    let ip := if uCount < left then ip else { ip with lastr := bn }
    let sz := min (uCount : ℤ) left
    if ip.type = .ifblk then
      .error <| .ok (UInt32.ofInt bn, if raflag then
        { ip with
          uRablock := if fs.coalEnb then 0x80000000 ||| UInt32.ofInt fs.tMaxrdahead
            else UInt32.ofInt bn + 1 }
        else ip)
    else if readflg then
      let rem := if ip.type = .ififo then ip.iSize else ip.iSize - uOffset
      if min sz (max rem 0) = 0 then .error (.error (.hole, ip))
      else .ok (bn.toNat, raflag && decide (ip.type ≠ .ififo), ip)
    else if ip.type = .ifreg ∧ uOffset ≥ (uLimit <<< 9 % 2 ^ 32 : ℕ) then
      .error (.error (.efbig, ip))
    else .ok (bn.toNat, raflag, ip)

/-- An address of the inode, allocated if it is zero. -/
def address (readflg : Bool) (i : ℕ) (ip : Node) : Log (UInt32 × Node) :=
  (Reads.one (.addr i) (ip.addr i)).bind fun nb =>
    if nb = 0 then
      if readflg then .ret (.hole, ip)
      else
        match alloc ip with
        | none => .ret (.enospc, ip)
        | some (nb, ip) => .ok (nb, { ip with addr := update ip.addr i nb })
    else .ok (nb, ip)

/-- "fetch through the indirect blocks", with `n` levels left. -/
def fetch (readflg raflag : Bool) (sub bn : ℕ) : ℕ → ℕ → UInt32 → Node → Log (UInt32 × Node)
  | 0, _, nb, ip => .ok (nb, ip)
  | n + 1, sh, nb, ip =>
    let sh := sh - Nat.log2 (fs.bsize / 4)
    let i := (bn >>> sh) &&& (fs.bsize / 4 - 1)
    let blk := nb * UInt32.ofNat fs.bufs + UInt32.ofNat (i >>> 8)
    let i := i &&& 255
    match ip.buf blk with
    | none => .ret (.eio, ip)
    | some bap =>
      (Reads.one (.bap i) (bap i)).bind fun nb =>
      (if n = 0 ∧ i < fs.bsize / 4 - 1 ∧ raflag then bapAhead fs sub bap i nb
        else .ok ip.uRablock).bind fun uRablock =>
        let ip := { ip with uRablock := uRablock }
        if nb = 0 then
          if readflg then .ret (.hole, ip)
          else
            match alloc ip with
            | none => .ret (.enospc, ip)
            | some (nb, ip) =>
              fetch readflg raflag sub bn n sh nb
                { ip with buf := update ip.buf blk (some (update bap i nb)) }
        else fetch readflg raflag sub bn n sh nb ip

/-- The block of the file system with block `bn` of the file. -/
def block (readflg raflag : Bool) (sub bn : ℕ) (ip : Node) : Log (UInt32 × Node) :=
  if bn < NADDR - 3 then
    (address alloc readflg bn ip).bind fun (nb, ip) =>
      (if bn < NADDR - 4 ∧ raflag then addrAhead fs sub ip.addr bn nb
        else .ok ip.uRablock).bind fun uRablock => .ok (nb, { ip with uRablock := uRablock })
  else
    match S5File.levels (Nat.log2 (fs.bsize / 4)) 3 0 1 (bn - (NADDR - 3)) with
    | none => .ret (.efbig, ip)
    | some (j, sh, bn) =>
      (address alloc readflg (NADDR - j) ip).bind fun (nb, ip) =>
        fetch fs alloc readflg raflag sub bn (4 - j) sh nb ip

/-- `s5bmap(ip, readflg)` at an offset, for this many bytes, with `u_limit`. -/
def s5bmap (readflg : Bool) (uOffset : ℤ) (uCount uLimit : ℕ) (ip : Node) : Log (UInt32 × Node) :=
  match start fs readflg uOffset uCount uLimit ip with
  | .error r => ([], r)
  | .ok (bn, raflag, ip) =>
    (block fs alloc readflg raflag (fs.sub uOffset) bn ip).bind fun (nb, ip) =>
      .ok (if fs.bsize > 1024 then
        nb * UInt32.ofNat fs.bufs + UInt32.ofNat (fs.sub uOffset) else nb, ip)

end routine

/-! ## Where it stays inside -/

/-- The look-ahead behind the entry `i` of a buffer stays inside: the bound of the loop does, or
the words stop to be in order, or there are enough; and the next word is not taken from behind
the last one. -/
def Stays (fs : Vol) (sub : ℕ) (bap : ℕ → UInt32) (i : ℕ) : Prop :=
  if fs.coalEnb then
    ((FsNINDIR fs.dev - 1 - UInt32.ofNat i).toNat ≤ 255 - i ∨
      ∃ n, 1 ≤ n ∧ n ≤ 255 - i ∧
        (bap (i + n) ≠ bap i + UInt32.ofNat n ∨ fs.tMaxrdahead ≤ (n - 1 : ℕ))) ∧
      (i = 255 → sub ≠ fs.bufs - 1)
  else i ≠ 255

section entry

variable (fs : Vol) (alloc : Node → Option (UInt32 × Node))

/-- The last indirect buffer on the way to block `bn`, and the index of its entry there. -/
def lastBuf (readflg : Bool) (bn : ℕ) : ℕ → ℕ → UInt32 → Node → Option ((ℕ → UInt32) × ℕ)
  | 0, _, _, _ => none
  | n + 1, sh, nb, ip =>
    let sh := sh - Nat.log2 (fs.bsize / 4)
    let i := (bn >>> sh) &&& (fs.bsize / 4 - 1)
    let blk := nb * UInt32.ofNat fs.bufs + UInt32.ofNat (i >>> 8)
    let i := i &&& 255
    match ip.buf blk with
    | none => none
    | some bap =>
      if n = 0 then some (bap, i)
      else if bap i = 0 then
        if readflg then none
        else
          match alloc ip with
          | none => none
          | some (nb, ip) =>
            lastBuf readflg bn n sh nb
              { ip with buf := update ip.buf blk (some (update bap i nb)) }
      else lastBuf readflg bn n sh (bap i) ip

/-- The last indirect buffer on the way to a block of the file, none for a direct block. -/
def entry (readflg : Bool) (bn : ℕ) (ip : Node) : Option ((ℕ → UInt32) × ℕ) :=
  if bn < NADDR - 3 then none
  else
    match S5File.levels (Nat.log2 (fs.bsize / 4)) 3 0 1 (bn - (NADDR - 3)) with
    | none => none
    | some (j, sh, bn) =>
      match (address alloc readflg (NADDR - j) ip).2 with
      | .error _ => none
      | .ok (nb, ip) => lastBuf fs alloc readflg bn (4 - j) sh nb ip

end entry

/-! ## The loop -/

section ahead

variable {fs : Vol} {place : ℕ → Access} {w : ℕ → UInt32} {last : ℕ} {full : ℕ → Bool}
variable {nb : UInt32} {sub : ℕ}

section

variable (hlast : ∀ n, (place n).Safe ↔ n ≤ last)

include hlast

/-- **The loop** reads only the words up to `last` if its bound is there, or it stops there. -/
theorem scan_all (k : ℕ) {n racount : ℕ}
    (hn : n = racount + 1) :
    (scan (fun n => .one (place n) (w n)) full nb k n racount).All Access.Safe ↔
      k = 0 ∨ racount + k ≤ last ∨
        ∃ j, n ≤ j ∧ j ≤ last ∧ (w j ≠ nb + UInt32.ofNat j ∨ full (j - 1) = true) := by
  induction k generalizing n racount with
  | zero => simp [scan]
  | succ k ih =>
    unfold scan
    rw [Reads.all_one, hlast]
    split_ifs with hw hfull
    · have hstop : full (n - 1) = true := by rwa [hn, Nat.add_sub_cancel]
      simp only [Reads.all_ok, and_true]
      constructor
      · exact fun h => .inr (.inr ⟨n, le_rfl, h, .inr hstop⟩)
      · rintro (h | h | ⟨j, h1, h2, -⟩)
        · exact h.elim
        · omega
        · omega
    · rw [ih (n := n + 1) (by omega)]
      constructor
      · rintro ⟨hle, h | h | ⟨j, h1, h2, h3⟩⟩
        · exact .inr (.inl (by omega))
        · exact .inr (.inl (by omega))
        · exact .inr (.inr ⟨j, by omega, h2, h3⟩)
      · rintro (h | h | ⟨j, h1, h2, h3⟩)
        · exact h.elim
        · exact ⟨by omega, by omega⟩
        · refine ⟨by omega, .inr (.inr ⟨j, ?_, h2, h3⟩)⟩
          -- the loop does not stop at `n`
          rcases Nat.lt_or_eq_of_le h1 with hlt | rfl
          · exact hlt
          · rw [hn, Nat.add_sub_cancel] at h3
            rw [hn] at hw
            rcases h3 with h3 | h3
            · exact absurd hw h3
            · exact absurd h3 hfull
    · simp only [Reads.all_ok, and_true]
      constructor
      · exact fun h => .inr (.inr ⟨n, le_rfl, h, .inl hw⟩)
      · rintro (h | h | ⟨j, h1, h2, -⟩)
        · exact h.elim
        · omega
        · omega

theorem setRablock_all (racount : ℕ) :
    (setRablock fs sub (fun n => .one (place n) (w n)) racount).All Access.Safe ↔
      racount * fs.bufs + (fs.bufs - 1 - sub) ≠ 0 ∨ 1 ≤ last := by
  unfold setRablock
  dsimp only
  split_ifs with h
  · exact iff_of_true (Reads.all_ok _) (.inl h)
  · rw [Reads.all_one, hlast, or_iff_right h]
    exact and_iff_left (Reads.all_ok _)

/-- **The look-ahead** is inside, in terms of the last word behind the entry. -/
theorem readAhead_all (hsub : sub ≤ fs.bufs - 1)
    (limit : ℕ) :
    (readAhead fs sub (fun n => .one (place n) (w n)) full limit nb).All Access.Safe ↔
      if fs.coalEnb then
        (limit ≤ last ∨ ∃ n, 1 ≤ n ∧ n ≤ last ∧ (w n ≠ nb + UInt32.ofNat n ∨ full (n - 1) = true)) ∧
          (last = 0 → sub ≠ fs.bufs - 1)
      else last ≠ 0 := by
  unfold readAhead
  split_ifs with hcoal
  · rw [Reads.all_bind, scan_all hlast limit (Nat.zero_add 1).symm]
    simp only [setRablock_all hlast]
    constructor
    · rintro ⟨hloop, hnext⟩
      refine ⟨?_, fun hz => ?_⟩
      · rcases hloop with h | h | h
        · exact .inl (by omega)
        · exact .inl (by omega)
        · exact .inr h
      · have hlimit : limit = 0 := by
          rcases hloop with h | h | ⟨j, h1, h2, -⟩ <;> omega
        have := hnext 0 (by rw [hlimit]; rfl)
        rw [Nat.zero_mul, Nat.zero_add] at this
        omega
    · rintro ⟨hloop, hnext⟩
      refine ⟨?_, fun racount hrac => ?_⟩
      · rcases hloop with h | h
        · exact .inr (.inl (by omega))
        · exact .inr (.inr h)
      · by_cases hz : last = 0
        · have hlt : sub < fs.bufs - 1 := lt_of_le_of_ne hsub (hnext hz)
          exact .inl fun hsum => (Nat.sub_pos_of_lt hlt).ne' (Nat.add_eq_zero_iff.1 hsum).2
        · exact .inr (Nat.pos_of_ne_zero hz)
  · rw [Reads.all_one, hlast, and_iff_left (Reads.all_ok _)]
    omega

end

theorem bapAhead_all (hsub : sub ≤ fs.bufs - 1) {i : ℕ} (hi : i ≤ 255) (bap : ℕ → UInt32) :
    (bapAhead fs sub bap i (bap i)).All Access.Safe ↔ Stays fs sub bap i := by
  have hlast : ∀ n, (Access.bap (i + n)).Safe ↔ n ≤ 255 - i := fun n => by
    unfold Access.Safe
    omega
  unfold bapAhead Stays
  rw [readAhead_all (w := fun n => bap (i + n)) hlast hsub]
  have hzero : 255 - i = 0 ↔ i = 255 := by omega
  split_ifs with hcoal
  · rw [hzero]
    simp only [ge_iff_le, decide_eq_true_eq]
  · rw [Ne, hzero]

theorem addrAhead_all (hsub : sub ≤ fs.bufs - 1) {i : ℕ} (hi : i < NADDR - 4)
    (addr : ℕ → UInt32) : (addrAhead fs sub addr i nb).All Access.Safe := by
  unfold NADDR at hi
  have hlast : ∀ n, (Access.addr (i + n)).Safe ↔ n ≤ 12 - i := fun n => by
    unfold Access.Safe NADDR
    omega
  unfold addrAhead NADDR
  rw [readAhead_all (w := fun n => addr (i + n)) hlast hsub]
  split_ifs with hcoal
  · exact ⟨.inl (by omega), fun hz => by omega⟩
  · omega

end ahead

/-! ## The routine -/

section bounds

variable {fs : Vol} {alloc : Node → Option (UInt32 × Node)} {readflg raflag : Bool} {sub bn : ℕ}

theorem address_all {i : ℕ} (hi : i < NADDR) (ip : Node) :
    (address alloc readflg i ip).All Access.Safe := by
  unfold address
  rw [Reads.all_one]
  refine ⟨hi, ?_⟩
  split_ifs
  · exact Reads.all_ret _
  · cases alloc ip with
    | none => exact Reads.all_ret _
    | some r => exact Reads.all_ok _
  · exact Reads.all_ok _

/-- **The indirect blocks**: only the look-ahead in the last buffer can leave it. -/
theorem fetch_all (hsub : sub ≤ fs.bufs - 1) (n sh : ℕ) (nb : UInt32) (ip : Node) :
    (fetch fs alloc readflg raflag sub bn n sh nb ip).All Access.Safe ↔
      (raflag = true → ∀ bap i, lastBuf fs alloc readflg bn n sh nb ip = some (bap, i) →
        i < fs.bsize / 4 - 1 → Stays fs sub bap i) := by
  induction n generalizing sh nb ip with
  | zero => exact iff_of_true (Reads.all_ok _) nofun
  | succ n ih =>
    unfold fetch lastBuf
    dsimp only
    obtain ⟨k, hk⟩ : ∃ k, k = (bn >>> (sh - Nat.log2 (fs.bsize / 4))) &&& (fs.bsize / 4 - 1) :=
      ⟨_, rfl⟩
    obtain ⟨i, hi⟩ : ∃ i, i = k &&& 255 := ⟨_, rfl⟩
    rw [← hk, ← hi]
    have hle : i ≤ 255 := by
      rw [hi]
      exact Nat.and_le_right
    cases ip.buf (nb * UInt32.ofNat fs.bufs + UInt32.ofNat (k >>> 8)) with
    | none => exact iff_of_true (Reads.all_ret _) nofun
    | some bap =>
      dsimp only
      rw [Reads.all_one, and_iff_right (show (Access.bap i).Safe from hle)]
      cases n with
      | zero =>
        -- the last level: what follows the look-ahead reads nothing
        rw [if_pos rfl, Reads.all_bind, and_iff_left]
        · by_cases hguard : i < fs.bsize / 4 - 1 ∧ raflag = true
          · rw [if_pos ⟨rfl, hguard⟩, bapAhead_all hsub hle]
            constructor
            · rintro hs - _ _ ⟨⟩ -
              exact hs
            · exact fun h => h hguard.2 bap i rfl hguard.1
          · rw [if_neg fun h => hguard h.2]
            refine iff_of_true (Reads.all_ok _) ?_
            rintro hra _ _ ⟨⟩ hlt
            exact absurd ⟨hlt, hra⟩ hguard
        · intro ra _
          split_ifs
          · exact Reads.all_ret _
          · cases alloc { ip with uRablock := ra } with
            | none => exact Reads.all_ret _
            | some r => exact Reads.all_ok _
          · exact Reads.all_ok _
      | succ n =>
        rw [if_neg fun h => absurd h.1 (Nat.succ_ne_zero n), Reads.bind_ok,
          if_neg (Nat.succ_ne_zero n)]
        split_ifs with hz hread
        · exact iff_of_true (Reads.all_ret _) nofun
        · cases alloc ip with
          | none => exact iff_of_true (Reads.all_ret _) nofun
          | some r => exact ih _ _ _
        · exact ih _ _ _

theorem levels_pos {nshift k sh nb j : ℕ} {r : ℕ × ℕ}
    (h : S5File.levels nshift k sh nb bn = some (j, r)) : 0 < j := by
  induction k generalizing sh nb bn with
  | zero => cases h
  | succ k ih =>
    unfold S5File.levels at h
    dsimp only at h
    split_ifs at h
    · cases h
      exact Nat.succ_pos k
    · exact ih h

theorem block_all (hsub : sub ≤ fs.bufs - 1) (ip : Node) :
    (block fs alloc readflg raflag sub bn ip).All Access.Safe ↔
      (raflag = true → ∀ bap i, entry fs alloc readflg bn ip = some (bap, i) →
        i < fs.bsize / 4 - 1 → Stays fs sub bap i) := by
  unfold block entry
  by_cases hdirect : bn < NADDR - 3
  · rw [if_pos hdirect, if_pos hdirect]
    refine iff_of_true ?_ nofun
    refine Reads.all_bind.2 ⟨address_all (lt_of_lt_of_le hdirect (by decide)) ip, fun r _ => ?_⟩
    refine Reads.all_bind.2 ⟨?_, fun _ _ => Reads.all_ok _⟩
    by_cases hguard : bn < NADDR - 4 ∧ raflag = true
    · rw [if_pos hguard]
      exact addrAhead_all hsub hguard.1 _
    · rw [if_neg hguard]
      exact Reads.all_ok _
  · rw [if_neg hdirect, if_neg hdirect]
    cases hlev : S5File.levels (Nat.log2 (fs.bsize / 4)) 3 0 1 (bn - (NADDR - 3)) with
    | none => exact iff_of_true (Reads.all_ret _) nofun
    | some r =>
      obtain ⟨j, sh, bn'⟩ := r
      dsimp only
      have hj : NADDR - j < NADDR := Nat.sub_lt (by decide) (levels_pos hlev)
      rw [Reads.all_bind, and_iff_right (address_all hj ip)]
      cases (address alloc readflg (NADDR - j) ip).2 with
      | error e => exact iff_of_true nofun nofun
      | ok r =>
        rw [← fetch_all hsub]
        exact ⟨fun h => h r rfl, fun h a ha => by cases ha; exact h⟩

/-- **The reads of `s5bmap`** are inside the buffers and the addresses exactly if the look-ahead
of a file read in order, in the last buffer on the way to its block, stays inside. -/
theorem s5bmap_stays (fs : Vol) (alloc : Node → Option (UInt32 × Node)) (readflg : Bool)
    (uOffset : ℤ) (uCount uLimit : ℕ) (ip : Node) :
    (s5bmap fs alloc readflg uOffset uCount uLimit ip).All Access.Safe ↔
      ∀ bn ip', start fs readflg uOffset uCount uLimit ip = .ok (bn, true, ip') →
        ∀ bap i, entry fs alloc readflg bn ip' = some (bap, i) →
          i < fs.bsize / 4 - 1 → Stays fs (fs.sub uOffset) bap i := by
  have hsub : fs.sub uOffset ≤ fs.bufs - 1 := Nat.and_le_right
  unfold s5bmap
  cases start fs readflg uOffset uCount uLimit ip with
  | error r => exact iff_of_true (List.forall_mem_nil _) nofun
  | ok r =>
    obtain ⟨bn, raflag, ip'⟩ := r
    dsimp only
    rw [Reads.all_bind, and_iff_left fun _ _ => Reads.all_ok _, block_all hsub]
    constructor
    · rintro h _ _ ⟨⟩
      exact h rfl
    · rintro h rfl
      exact h bn ip' rfl

end bounds

/-- A mount with blocks of two buffers. -/
def vol2k : Vol := ⟨2048, 0x500, true, 7, by decide⟩

/-- A file whose block 264 was read last. -/
def inOrder : Node := ⟨.ifreg, fun _ => 1, 1000000, 264, fun _ => some fun _ => 1, 0⟩

/-- The entry of the next block is the last one of its buffer, not of the indirect block. -/
theorem s5bmap_leaves_buffer :
    ¬ (s5bmap vol2k (fun _ => none) true (265 * 2048) 1024 0 inOrder).All Access.Safe := by
  intro h
  have hread : Access.bap 256 ∈
      (s5bmap vol2k (fun _ => none) true (265 * 2048) 1024 0 inOrder).1 := by decide
  exact absurd (h _ hread) (by decide : ¬ 256 ≤ 255)

end Fs.Ahead
