import OpusSysV.Lib.Run
import Mathlib.Data.List.Pairwise
import Mathlib.Data.Nat.Bitwise
import Mathlib.Tactic.Common

/-!
# Parts of pages for page tables

`smpgalloc` hands out runs of one to four quarter pages, `smpgfree` takes them back.  Both work on
a map of pages, each with a mask of its free quarters.

* `Smpg` — the map, the flags, where each caller stands, and the runs handed out so far.
* `loop` — `smpgalloc` from its label `loop:` on; `freeRun` is `smpgfree`.
* `step` — a caller enters `smpgalloc`, wakes up in it, gets an answer of `sptalloc`, or frees.
* `MapInv` — the invariant of the map; `LockInv` the one of its lock.
* `smpg_handed_out_once` — no quarter is handed out twice, and no page is taken from `sptalloc` for
  a request that fits.
-/

namespace Os

open Lib Function List

namespace Smpg

/-- The size of a page. -/
def NBPP : ℕ := 4096

/-- The size of a chunk, a quarter of a page. -/
def SMPGSIZE : ℕ := 1024

/-- The mask of a page whose four chunks are free. -/
def ALLCHKSFREE : ℕ := 0xf

/-! ## The masks -/

/-- `while(--freechks) k |= (k >> 1);` -/
def widenDown : ℕ → ℕ → ℕ
  | 0, k => k
  | m + 1, k => widenDown m (k ||| (k >>> 1))

/-- `while(--nchks) mask |= (mask << 1);` -/
def widenUp : ℕ → ℕ → ℕ
  | 0, mask => mask
  | m + 1, mask => widenUp m (mask ||| (mask <<< 1))

/-- The loop over the bits of a mask.  The chunks are counted by `blk`, and `ret` is the one that
`retaddr` points to.  The first argument counts the bits of `k` that are left. -/
def chunkLoop (bmap nchks : ℕ) : ℕ → ℕ → ℕ → ℕ → ℕ → Option (ℕ × ℕ)
  | 0, _, _, _, _ => none
  | m + 1, k, blk, freechks, ret =>
    if k ≤ bmap then
      let isFree := bmap &&& k ≠ 0
      let ret' := if isFree ∧ freechks = 0 then blk else ret
      let freechks' := if isFree then freechks + 1 else 0
      if freechks' = nchks then some (ret', widenDown (freechks' - 1) k)
      else chunkLoop bmap nchks m (k <<< 1) (blk + 1) freechks' ret'
    else none

/-- The first of `nchks` free chunks in a row, and the mask of them. -/
def findChunks (bmap nchks : ℕ) : Option (ℕ × ℕ) := chunkLoop bmap nchks 32 1 0 0 0

/-- A page with this mask has `n` free chunks in a row. -/
def Fits (bmap n : ℕ) : Prop :=
  ∃ c, c + n ≤ 4 ∧ ∀ d, c ≤ d → d < c + n → bmap.testBit d = true

/-- Every mask and every number of chunks, checked one by one. -/
theorem findChunks_checked : ∀ (b : Fin 16) (n : Fin 4),
    (∀ p ∈ findChunks b (n + 1), p.1 + (n + 1) ≤ 4 ∧ b.1.ldiff p.2 < 16 ∧
      ∀ d : Fin 4, (p.1 ≤ d.1 ∧ d.1 < p.1 + (n + 1) → b.1.testBit d = true) ∧
        ((b.1.ldiff p.2).testBit d = true ↔
          b.1.testBit d = true ∧ ¬ (p.1 ≤ d.1 ∧ d.1 < p.1 + (n + 1)))) ∧
    (findChunks b (n + 1) = none → ∀ c : Fin 5, c.1 + (n + 1) ≤ 4 →
      ∃ d : Fin 4, (c.1 ≤ d.1 ∧ d.1 < c.1 + (n + 1)) ∧ b.1.testBit d = false) := by
  decide +kernel

theorem widenUp_checked : ∀ (c n : Fin 4), c.1 + (n + 1) ≤ 4 →
    widenUp n (1 <<< c.1) < 16 ∧
      ∀ d : Fin 4, (widenUp n (1 <<< c.1)).testBit d = true ↔ c.1 ≤ d.1 ∧ d.1 < c.1 + (n + 1) := by
  decide +kernel

theorem mask_checked : ∀ b m : Fin 16,
    ((∀ d : Fin 4, ¬ (b.1.testBit d = true ∧ m.1.testBit d = true)) → b.1 &&& m.1 = 0) ∧
    b.1 ||| m.1 < 16 ∧
    ((∀ d : Fin 4, b.1.testBit d = true) ↔ b.1 = ALLCHKSFREE) := by
  decide +kernel

/-! ## The state -/

/-- Where a caller of `smpgalloc` stands. -/
inductive Caller where
  | idle
  /-- Asleep on the map with a request. -/
  | asleep (nchks : ℕ)
  /-- Woken up, and about to go to `loop`. -/
  | awake (nchks : ℕ)
  /-- In `sptalloc`, for the map entry `smpg`. -/
  | sptalloc (nchks smpg : ℕ)
  deriving DecidableEq

end Smpg

/-- The map of pages and its users. -/
structure Smpg where
  /-- The addresses of the pages; 0 for an unused entry. -/
  smp_addr : ℕ → ℕ
  /-- The masks of free chunks. -/
  smp_bmap : ℕ → ℕ
  /-- The index of `smpgtop`. -/
  smpgtop : ℕ
  /-- One more than the index of `smpgend`. -/
  smpgend : ℕ
  /-- `SMPGLOCKED` and `SMPGWANTED` in `smpgflag`. -/
  locked : Bool
  wanted : Bool
  /-- The callers, by process. -/
  callers : ℕ → Smpg.Caller
  /-- The runs handed out and not yet freed: address and number of chunks. -/
  out : List (ℕ × ℕ)

namespace Smpg

/-- The map before the first call. -/
def init : Smpg :=
  ⟨fun _ => 0, fun _ => 0, 0, 0, false, false, fun _ => .idle, []⟩

/-- `wakeup((caddr_t)smpgmap)` -/
def wakeup (callers : ℕ → Caller) (p : ℕ) : Caller :=
  match callers p with
  | .asleep n => .awake n
  | c => c

/-! ## smpgalloc -/

/-- What the search of the map comes to. -/
inductive Found where
  /-- Chunks of the page `smpg`, the first one and the mask. -/
  | chunks (smpg first k : ℕ)
  /-- An unused entry. -/
  | unused (smpg : ℕ)
  /-- The end of the map. -/
  | full

/-- The `for` loop over the map from `smpg` on, with `smpgtop` as it advances.  The first argument
counts the entries that are left. -/
def search (addr bmap : ℕ → ℕ) (nchks : ℕ) : ℕ → ℕ → ℕ → ℕ × Found
  | 0, _, top => (top, .full)
  | m + 1, smpg, top =>
    if addr smpg = 0 then (top, .unused smpg)
    else if bmap smpg = 0 then
      search addr bmap nchks m (smpg + 1) (if smpg = top then top + 1 else top)
    else match findChunks (bmap smpg) nchks with
      | some (first, k) => (top, .chunks smpg first k)
      | none => search addr bmap nchks m (smpg + 1) top

/-- `smpgalloc` from `loop:` on, until it returns, sleeps or is in `sptalloc`; `none` is the panic
that the map is full. -/
def loop (v_smpgmapsz : ℕ) (s : Smpg) (p nchks : ℕ) : Option Smpg :=
  match search s.smp_addr s.smp_bmap nchks (v_smpgmapsz - s.smpgtop) s.smpgtop s.smpgtop with
  | (top, .chunks i first k) => some { s with
      smpgtop := top
      smp_bmap := update s.smp_bmap i ((s.smp_bmap i).ldiff k)
      callers := update s.callers p .idle
      out := (s.smp_addr i + SMPGSIZE * first, nchks) :: s.out }
  | (top, .unused i) =>
    if s.locked then some { s with
      smpgtop := top
      wanted := true
      callers := update s.callers p (.asleep nchks) }
    else some { s with
      smpgtop := top
      locked := true
      callers := update s.callers p (.sptalloc nchks i) }
  | (_, .full) => none

/-- The flags after `sptalloc`, and the sleepers woken up. -/
def unlock (s : Smpg) : Smpg :=
  { s with
    locked := false
    wanted := false
    callers := if s.wanted then wakeup s.callers else s.callers }

/-- `smpgend++`, and the new entry. -/
def addPage (s : Smpg) (blk : ℕ) : Smpg :=
  { s with
    smpgend := s.smpgend + 1
    smp_addr := update s.smp_addr s.smpgend blk
    smp_bmap := update s.smp_bmap s.smpgend ALLCHKSFREE }

/-! ## smpgfree -/

/-- The search for the page from `smpgend` down. -/
def findPage (addr : ℕ → ℕ) (pg_addr : ℕ) : ℕ → Option ℕ
  | 0 => none
  | i + 1 => if addr i = pg_addr then some i else findPage addr pg_addr i

/-- The loop that moves the entries after `smpg` down.  The first argument counts them. -/
def moveDown (addr bmap : ℕ → ℕ) : ℕ → ℕ → (ℕ → ℕ) × (ℕ → ℕ)
  | 0, smpg => (update addr smpg 0, bmap)
  | m + 1, smpg =>
    let addr' := update addr smpg (addr (smpg + 1))
    if addr (smpg + 1) = 0 then (addr', bmap)
    else moveDown addr' (update bmap smpg (bmap (smpg + 1))) m (smpg + 1)

/-- `smpgfree` up to the test for a page that is free as a whole: the chunks marked, and the
sleepers woken up. -/
def markFree (s : Smpg) (i mask : ℕ) : Smpg :=
  { s with
    smp_bmap := update s.smp_bmap i (s.smp_bmap i ||| mask)
    smpgtop := min s.smpgtop i
    wanted := false
    callers := if s.wanted then wakeup s.callers else s.callers }

/-- The page given back to `sptfree`, and its entry removed. -/
def dropPage (v_smpgmapsz : ℕ) (s : Smpg) (i : ℕ) : Smpg :=
  let moved := moveDown s.smp_addr s.smp_bmap (v_smpgmapsz - (i + 1)) i
  { s with smp_addr := moved.1, smp_bmap := moved.2, smpgend := s.smpgend - 1 }

/-- `smpgfree`; `none` is a failed assertion. -/
def smpgfree (v_smpgmapsz : ℕ) (s : Smpg) (vaddr nchks : ℕ) : Option Smpg :=
  let pg_addr := vaddr / NBPP * NBPP
  match findPage s.smp_addr pg_addr s.smpgend with
  | none => none
  | some i =>
    let mask := widenUp (nchks - 1) (1 <<< (vaddr % NBPP / SMPGSIZE))
    if s.smp_bmap i &&& mask = 0 then
      let t := markFree { s with out := s.out.erase (vaddr, nchks) } i mask
      if t.smp_bmap i ≠ ALLCHKSFREE ∨ t.locked then some t
      else some (dropPage v_smpgmapsz t i)
    else none

/-! ## The steps -/

/-- What happens next. -/
inductive Event where
  /-- Process `p` calls `smpgalloc`. -/
  | call (p nchks : ℕ)
  /-- Process `p` goes on after a sleep. -/
  | resume (p : ℕ)
  /-- `sptalloc` returns to process `p`, with a page or without. -/
  | page (p : ℕ) (blk : Option ℕ)
  /-- Someone frees a run. -/
  | free (vaddr nchks : ℕ)

/-- A page that `sptalloc` may return: at an address of its own. -/
def Fresh (s : Smpg) (blk : ℕ) : Prop :=
  blk ≠ 0 ∧ blk % NBPP = 0 ∧ ∀ i < s.smpgend, s.smp_addr i ≠ blk

instance (s : Smpg) (blk : ℕ) : Decidable (s.Fresh blk) := by unfold Fresh; infer_instance

theorem lawfulBEq_run : LawfulBEq (ℕ × ℕ) := inferInstance

attribute [local instance] lawfulBEq_run

/-- One step.  Requests are for one to four chunks, and a run that is freed is one handed out. -/
def step (v_smpgmapsz : ℕ) (s : Smpg) : Event → Option Smpg
  | .call p nchks =>
    if s.callers p = .idle ∧ 0 < nchks ∧ nchks ≤ 4 then loop v_smpgmapsz s p nchks else none
  | .resume p =>
    match s.callers p with
    | .awake nchks => loop v_smpgmapsz s p nchks
    | _ => none
  | .page p blk =>
    match s.callers p, blk with
    | .sptalloc nchks i, some blk =>
      if s.Fresh blk ∧ i = s.smpgend then loop v_smpgmapsz (unlock (addPage s blk)) p nchks
      else none
    | .sptalloc _ _, none =>
      some { unlock s with callers := update (unlock s).callers p .idle }
    | _, _ => none
  | .free vaddr nchks =>
    if (vaddr, nchks) ∈ s.out then smpgfree v_smpgmapsz s vaddr nchks else none

/-! ## The invariant of the map -/

/-- The run `r` has the chunk at address `a`. -/
def Covers (r : ℕ × ℕ) (a : ℕ) : Prop := r.1 ≤ a ∧ a < r.1 + SMPGSIZE * r.2

/-- Two runs have no byte in common. -/
def Apart (r q : ℕ × ℕ) : Prop :=
  r.1 + SMPGSIZE * r.2 ≤ q.1 ∨ q.1 + SMPGSIZE * q.2 ≤ r.1

/-- The map with its first `fin` entries in use, against the runs handed out. -/
structure Mapped (v_smpgmapsz : ℕ) (addr bmap : ℕ → ℕ) (top fin : ℕ) (out : List (ℕ × ℕ)) :
    Prop where
  top_le : top ≤ fin
  fin_le : fin ≤ v_smpgmapsz
  null : ∀ i, fin ≤ i → addr i = 0
  page : ∀ i < fin, addr i ≠ 0 ∧ addr i % NBPP = 0
  distinct : ∀ i < fin, ∀ j < fin, addr i = addr j → i = j
  small : ∀ i < fin, bmap i < 16
  full : ∀ i < top, bmap i = 0
  bits : ∀ i < fin, ∀ d < 4,
    (bmap i).testBit d = true ↔ ∀ r ∈ out, ¬ Covers r (addr i + SMPGSIZE * d)
  runs : ∀ r ∈ out, ∃ i < fin, ∃ c, r.1 = addr i + SMPGSIZE * c ∧ 0 < r.2 ∧ c + r.2 ≤ 4
  apart : out.Pairwise Apart

/-- The map of a state is in order. -/
def MapInv (v_smpgmapsz : ℕ) (s : Smpg) : Prop :=
  Mapped v_smpgmapsz s.smp_addr s.smp_bmap s.smpgtop s.smpgend s.out

section Geometry

variable {A B c d n m : ℕ}

/-- Which chunks a run within a page has. -/
theorem covers_iff (hA : A % NBPP = 0) (hB : B % NBPP = 0) (hc : c + n ≤ 4) (hd : d < 4) :
    Covers (A + SMPGSIZE * c, n) (B + SMPGSIZE * d) ↔ A = B ∧ c ≤ d ∧ d < c + n := by
  simp only [Covers, NBPP, SMPGSIZE] at *
  omega

/-- Two runs that are not apart have a chunk in common. -/
theorem exists_covers (hA : A % NBPP = 0) (hB : B % NBPP = 0) (hc : c + n ≤ 4) (hd : d + m ≤ 4)
    (hn : 0 < n) (hm : 0 < m)
    (h : ¬ Apart (A + SMPGSIZE * c, n) (B + SMPGSIZE * d, m)) :
    A = B ∧ (c ≤ max c d ∧ max c d < c + n) ∧ d ≤ max c d ∧ max c d < d + m := by
  simp only [Apart, NBPP, SMPGSIZE] at *
  omega

instance : Std.Symm Apart := ⟨fun _ _ => Or.symm⟩

/-- A run is not apart from itself. -/
theorem Apart.ne {r q : ℕ × ℕ} (h : Apart r q) (hr : 0 < r.2) : r ≠ q := by
  rintro rfl
  simp only [Apart, SMPGSIZE] at h
  omega

end Geometry

namespace Mapped

variable {N top fin i n c k : ℕ} {addr bmap : ℕ → ℕ} {out : List (ℕ × ℕ)}

section

variable (h : Mapped N addr bmap top fin out)

include h

/-- `smpgtop` may stand anywhere below which there is nothing free. -/
theorem withTop {top' : ℕ} (htop : top' ≤ fin)
    (hfull : ∀ i < top', bmap i = 0) : Mapped N addr bmap top' fin out :=
  { h with top_le := htop, full := hfull }

/-- A run handed out lies at chunks of a page that are not free. -/
theorem covers_of_mem (hi : i < fin) {r : ℕ × ℕ} {d : ℕ}
    (hr : r ∈ out) (hd : d < 4) (hc : Covers r (addr i + SMPGSIZE * d)) :
    (bmap i).testBit d = false := by
  cases hb : (bmap i).testBit d
  · rfl
  · exact absurd hc ((h.bits i hi d hd).mp hb r hr)

/-- Chunks that were free are handed out. -/
theorem take (hi : i < fin) (hn : 0 < n) (hn4 : n ≤ 4)
    (hf : findChunks (bmap i) n = some (c, k)) :
    Mapped N addr (update bmap i ((bmap i).ldiff k)) top fin
      ((addr i + SMPGSIZE * c, n) :: out) := by
  obtain ⟨m, rfl⟩ : ∃ m, n = m + 1 := ⟨n - 1, by omega⟩
  obtain ⟨hcn, hsmall, hbit⟩ :=
    (findChunks_checked ⟨bmap i, h.small i hi⟩ ⟨m, by omega⟩).1 (c, k) hf
  simp only at hcn hsmall hbit
  have hfree (d : ℕ) (hd : d < 4) (hcd : c ≤ d ∧ d < c + (m + 1)) : (bmap i).testBit d = true :=
    (hbit ⟨d, hd⟩).1 hcd
  have hld (d : ℕ) (hd : d < 4) : ((bmap i).ldiff k).testBit d = true ↔
      (bmap i).testBit d = true ∧ ¬ (c ≤ d ∧ d < c + (m + 1)) := (hbit ⟨d, hd⟩).2
  have hpi := (h.page i hi).2
  refine { h with small := ?_, full := ?_, bits := ?_, runs := ?_, apart := ?_ }
  · intro j hj
    rcases eq_or_ne j i with rfl | hji
    · rwa [update_self]
    · rw [update_of_ne hji]
      exact h.small j hj
  · intro j hj
    have hji : j ≠ i := by
      rintro rfl
      have h0 := hfree c (by omega) (by omega)
      rw [h.full j hj, Nat.zero_testBit] at h0
      exact absurd h0 Bool.false_ne_true
    rw [update_of_ne hji]
    exact h.full j hj
  · intro j hj d hd
    have hcov := covers_iff hpi (h.page j hj).2 hcn hd
    simp only [forall_mem_cons, hcov]
    rw [update_apply]
    split_ifs with hji
    · subst hji
      rw [hld d hd, h.bits j hj d hd]
      exact ⟨fun ⟨h1, h2⟩ => ⟨fun h3 => h2 h3.2, h1⟩, fun ⟨h1, h2⟩ => ⟨h2, fun h3 => h1 ⟨rfl, h3⟩⟩⟩
    · rw [h.bits j hj d hd]
      exact ⟨fun h1 => ⟨fun h2 => hji (h.distinct i hi j hj h2.1).symm, h1⟩, fun h1 => h1.2⟩
  · intro r hr
    rcases mem_cons.mp hr with rfl | hr
    · exact ⟨i, hi, c, rfl, hn, hcn⟩
    · exact h.runs r hr
  · refine pairwise_cons.mpr ⟨fun r hr => ?_, h.apart⟩
    obtain ⟨j, hj, c', hr1, hr2, hc'⟩ := h.runs r hr
    by_contra hna
    have hre : r = (addr j + SMPGSIZE * c', r.2) := Prod.ext hr1 rfl
    rw [hre] at hna
    obtain ⟨hij, hl, hr'⟩ := exists_covers hpi (h.page j hj).2 hcn hc' hn hr2 hna
    have hd4 : max c c' < 4 := by omega
    have hcov : Covers r (addr i + SMPGSIZE * max c c') := by
      rw [hre, covers_iff (h.page j hj).2 hpi hc' hd4]
      exact ⟨hij.symm, hr'⟩
    have h1 := h.covers_of_mem hi hr hd4 hcov
    rw [hfree _ hd4 hl] at h1
    exact absurd h1.symm Bool.false_ne_true

/-- A page of its own is added behind the others. -/
theorem add {blk : ℕ} (hN : fin < N) (h0 : blk ≠ 0)
    (hpage : blk % NBPP = 0) (hnew : ∀ i < fin, addr i ≠ blk) :
    Mapped N (update addr fin blk) (update bmap fin ALLCHKSFREE) top (fin + 1)
      out := by
  have haddr (i : ℕ) (hi : i < fin) : update addr fin blk i = addr i :=
    update_of_ne (by omega) ..
  have hbmap (i : ℕ) (hi : i < fin) : update bmap fin ALLCHKSFREE i = bmap i :=
    update_of_ne (by omega) ..
  have hlast {i : ℕ} (hi : i < fin + 1) : i < fin ∨ i = fin := by omega
  constructor
  case top_le => exact h.top_le.trans (Nat.le_succ _)
  case fin_le => exact hN
  case null =>
    intro i hi
    rw [update_of_ne (by omega)]
    exact h.null i (by omega)
  case page =>
    intro i hi
    rcases hlast hi with hi | rfl
    · rw [haddr i hi]
      exact h.page i hi
    · rw [update_self]
      exact ⟨h0, hpage⟩
  case distinct =>
    intro i hi j hj hij
    rcases hlast hi with hi | rfl <;> rcases hlast hj with hj | rfl
    · rw [haddr i hi, haddr j hj] at hij
      exact h.distinct i hi j hj hij
    · rw [haddr i hi, update_self] at hij
      exact absurd hij (hnew i hi)
    · rw [haddr j hj, update_self] at hij
      exact absurd hij.symm (hnew j hj)
    · rfl
  case small =>
    intro i hi
    rcases hlast hi with hi | rfl
    · rw [hbmap i hi]
      exact h.small i hi
    · rw [update_self]
      decide
  case full =>
    intro i hi
    rw [hbmap i (lt_of_lt_of_le hi h.top_le)]
    exact h.full i hi
  case bits =>
    intro i hi d hd
    rcases hlast hi with hi | rfl
    · rw [hbmap i hi, haddr i hi]
      exact h.bits i hi d hd
    · rw [update_self, update_self]
      -- no run lies in the new page
      refine iff_of_true ((mask_checked ⟨15, by decide⟩ 0).2.2.mpr rfl ⟨d, hd⟩) fun r hr hc => ?_
      obtain ⟨j, hj, c, hr1, -, hc4⟩ := h.runs r hr
      have hre : r = (addr j + SMPGSIZE * c, r.2) := Prod.ext hr1 rfl
      rw [hre, covers_iff (h.page j hj).2 hpage hc4 hd] at hc
      exact hnew j hj hc.1
  case runs =>
    intro r hr
    obtain ⟨i, hi, c, hr1, hr2⟩ := h.runs r hr
    exact ⟨i, by omega, c, by rw [haddr i hi]; exact hr1, hr2⟩
  case apart => exact h.apart

/-- A run is freed: its chunks were not free. -/
theorem give {v : ℕ} (hr : (v, n) ∈ out) (hi : i < fin)
    (hv : v = addr i + SMPGSIZE * c) (hn : 0 < n) (hcn : c + n ≤ 4) :
    bmap i &&& widenUp (n - 1) (1 <<< c) = 0 ∧
    Mapped N addr (update bmap i (bmap i ||| widenUp (n - 1) (1 <<< c))) (min top i) fin
      (out.erase (v, n)) := by
  obtain ⟨m, rfl⟩ : ∃ m, n = m + 1 := ⟨n - 1, by omega⟩
  obtain ⟨hsmall, hbit⟩ := widenUp_checked ⟨c, by omega⟩ ⟨m, by omega⟩ hcn
  simp only [Nat.add_sub_cancel] at hsmall hbit ⊢
  generalize widenUp m (1 <<< c) = mask at hsmall hbit ⊢
  have hmask (d : ℕ) (hd : d < 4) : mask.testBit d = true ↔ c ≤ d ∧ d < c + (m + 1) := hbit ⟨d, hd⟩
  have hpi := (h.page i hi).2
  have hcov {j d : ℕ} (hj : j < fin) (hd : d < 4) :
      Covers (v, m + 1) (addr j + SMPGSIZE * d) ↔ addr i = addr j ∧ c ≤ d ∧ d < c + (m + 1) := by
    rw [hv]
    exact covers_iff hpi (h.page j hj).2 hcn hd
  have hor := mask_checked ⟨bmap i, h.small i hi⟩ ⟨mask, hsmall⟩
  have hpos : ∀ r ∈ out, 0 < r.2 := fun r hr => by
    obtain ⟨-, -, -, -, h2, -⟩ := h.runs r hr
    exact h2
  have hnodup : out.Nodup := h.apart.imp_of_mem fun ha _ hab => hab.ne (hpos _ ha)
  have hsub {r : ℕ × ℕ} (hr : r ∈ out.erase (v, m + 1)) : r ∈ out := mem_of_mem_erase hr
  refine ⟨hor.1 ?_, { h with top_le := ?_, small := ?_, full := ?_, bits := ?_, runs := ?_, apart := ?_ }⟩
  · rintro ⟨d, hd⟩ ⟨h1, h2⟩
    have h3 := h.covers_of_mem hi hr hd ((hcov hi hd).mpr ⟨rfl, (hmask d hd).mp h2⟩)
    rw [h1] at h3
    exact absurd h3.symm Bool.false_ne_true
  · exact (min_le_left _ _).trans h.top_le
  · intro j hj
    rw [update_apply]
    split_ifs with hji
    · exact hor.2.1
    · exact h.small j hj
  · intro j hj
    rw [update_of_ne (by omega)]
    exact h.full j (by omega)
  · intro j hj d hd
    -- the chunks of the run are free now, and no other run had one of them
    have hrest : (∀ r ∈ out.erase (v, m + 1), ¬ Covers r (addr j + SMPGSIZE * d)) ↔
        (bmap j).testBit d = true ∨ Covers (v, m + 1) (addr j + SMPGSIZE * d) := by
      rw [h.bits j hj d hd]
      constructor
      · intro h1
        by_cases h2 : Covers (v, m + 1) (addr j + SMPGSIZE * d)
        · exact Or.inr h2
        · refine Or.inl fun r hr' h3 => ?_
          rcases eq_or_ne r (v, m + 1) with rfl | hne
          · exact h2 h3
          · exact h1 r ((mem_erase_of_ne hne).mpr hr') h3
      · rintro (h1 | h1) r hr' h3
        · exact h1 r (hsub hr') h3
        · have hne : r ≠ (v, m + 1) := fun h4 => hnodup.not_mem_erase (h4 ▸ hr')
          have hap : Apart r (v, m + 1) := h.apart.forall (hsub hr') hr hne
          simp only [Apart, Covers, SMPGSIZE] at hap h1 h3
          omega
    rw [hrest, hcov hj hd]
    rw [update_apply]
    split_ifs with hji
    · rw [hji, Nat.testBit_or, Bool.or_eq_true, hmask d hd]
      simp only [true_and]
    · exact ⟨Or.inl, fun h1 => h1.resolve_right fun h2 => hji (h.distinct i hi j hj h2.1).symm⟩
  · exact fun r hr' => h.runs r (hsub hr')
  · exact h.apart.sublist erase_sublist

omit h in
/-- The last entry goes. -/
theorem last_eq (hi : i + 1 = fin) (hnull : ∀ j, fin ≤ j → addr j = 0) :
    (update addr i 0, bmap) = (fun j => if j < i then addr j else addr (j + 1),
      fun j => if j < i ∨ fin ≤ j + 1 then bmap j else bmap (j + 1)) := by
  refine Prod.ext (funext fun j => ?_) (funext fun j => ?_)
  · rcases lt_trichotomy j i with hj | rfl | hj
    · simp only [update_of_ne hj.ne, hj, if_true]
    · simp only [update_self, lt_irrefl, if_false]
      exact (hnull (j + 1) hi.ge).symm
    · simp only [update_of_ne hj.ne', hj.not_gt, if_false]
      rw [hnull j (by omega), hnull (j + 1) (by omega)]
  · simp only [show j < i ∨ fin ≤ j + 1 by omega, if_true]

omit h in
/-- The entries after the one that goes move down by one. -/
theorem moveDown_eq (hfin : fin ≤ i + 1 + n) (hi : i < fin) (hnull : ∀ j, fin ≤ j → addr j = 0)
    (hpos : ∀ j < fin, addr j ≠ 0) :
    moveDown addr bmap n i = (fun j => if j < i then addr j else addr (j + 1),
      fun j => if j < i ∨ fin ≤ j + 1 then bmap j else bmap (j + 1)) := by
  induction n generalizing addr bmap i with
  | zero =>
    rw [moveDown]
    exact last_eq (by omega) hnull
  | succ n ih =>
    rw [moveDown]
    split
    next h0 =>
      have hi1 : i + 1 = fin := by
        by_contra h1
        exact hpos (i + 1) (by omega) h0
      rw [h0]
      exact last_eq hi1 hnull
    next h0 =>
      have hi1 : i + 1 < fin := by
        by_contra h1
        exact h0 (hnull (i + 1) (by omega))
      have hother (f : ℕ → ℕ) (x : ℕ) {j : ℕ} (hj : j ≠ i) : update f i x j = f j :=
        update_of_ne hj ..
      rw [ih (by omega) hi1 (fun j hj => by rw [hother _ _ (by omega), hnull j hj])]
      · refine Prod.ext (funext fun j => ?_) (funext fun j => ?_)
        · rcases lt_trichotomy j i with hj | rfl | hj
          · simp only [hj, if_true, show j < i + 1 by omega, hother _ _ hj.ne]
          · simp only [lt_irrefl, if_false, Nat.lt_succ_self, if_true, update_self]
          · simp only [show ¬ j < i by omega, show ¬ j < i + 1 by omega, if_false]
            exact hother _ _ (by omega)
        · rcases lt_trichotomy j i with hj | rfl | hj
          · simp only [hj, show j < i + 1 by omega, true_or, if_true, hother _ _ hj.ne]
          · simp only [lt_irrefl, show ¬ fin ≤ j + 1 by omega, Nat.lt_succ_self, true_or, or_self,
              if_true, if_false, update_self]
          · simp only [show ¬ j < i by omega, show ¬ j < i + 1 by omega, false_or]
            rw [hother _ _ (by omega), hother _ _ (by omega)]
      · intro j hj
        rcases eq_or_ne j i with rfl | hji
        · rwa [update_self]
        · rw [hother _ _ hji]
          exact hpos j hj

/-- A page that is free as a whole goes. -/
theorem drop (hi : i < fin) (htop : top ≤ i)
    (hfree : bmap i = ALLCHKSFREE) :
    Mapped N (moveDown addr bmap (N - (i + 1)) i).1 (moveDown addr bmap (N - (i + 1)) i).2 top
      (fin - 1) out := by
  have hN := h.fin_le
  rw [moveDown_eq (show fin ≤ i + 1 + (N - (i + 1)) by omega) hi h.null fun j hj => (h.page j hj).1]
  have hall (d : ℕ) (hd : d < 4) : (bmap i).testBit d = true :=
    (mask_checked ⟨bmap i, h.small i hi⟩ 0).2.2.mpr hfree ⟨d, hd⟩
  -- the entry that stands at `j` now stood at `old j`
  obtain ⟨old, hold⟩ : ∃ old : ℕ → ℕ, old = fun j => if j < i then j else j + 1 := ⟨_, rfl⟩
  have hold_ne (j : ℕ) : old j ≠ i := by
    rw [hold]
    dsimp only
    split <;> omega
  have hold_lt (j : ℕ) (hj : j < fin - 1) : old j < fin := by
    rw [hold]
    dsimp only
    split <;> omega
  have hold_inj (j l : ℕ) (hjl : old j = old l) : j = l := by
    rw [hold] at hjl
    dsimp only at hjl
    split at hjl <;> split at hjl <;> omega
  have hold_surj (j : ℕ) (hj : j < fin) (hji : j ≠ i) : ∃ l < fin - 1, old l = j := by
    rcases Nat.lt_or_ge j i with h1 | h1
    · refine ⟨j, by omega, ?_⟩
      rw [hold]
      exact if_pos h1
    · refine ⟨j - 1, by omega, ?_⟩
      rw [hold]
      dsimp only
      rw [if_neg (by omega)]
      omega
  have haddr (j : ℕ) : (if j < i then addr j else addr (j + 1)) = addr (old j) := by
    rw [hold]
    dsimp only
    split <;> rfl
  have hbmap (j : ℕ) (hj : j < fin - 1) :
      (if j < i ∨ fin ≤ j + 1 then bmap j else bmap (j + 1)) = bmap (old j) := by
    rw [hold]
    dsimp only
    simp only [show ¬ fin ≤ j + 1 by omega, or_false]
    split <;> rfl
  simp only [haddr]
  constructor
  case top_le => omega
  case fin_le => omega
  case null =>
    intro j hj
    rw [← haddr, if_neg (by omega)]
    exact h.null _ (by omega)
  case page => exact fun j hj => h.page _ (hold_lt j hj)
  case distinct =>
    exact fun j hj l hl hjl => hold_inj j l (h.distinct _ (hold_lt j hj) _ (hold_lt l hl) hjl)
  case small =>
    intro j hj
    rw [hbmap j hj]
    exact h.small _ (hold_lt j hj)
  case full =>
    intro j hj
    rw [if_pos (Or.inl (by omega))]
    exact h.full j hj
  case bits =>
    intro j hj d hd
    rw [hbmap j hj]
    exact h.bits _ (hold_lt j hj) d hd
  case runs =>
    intro r hr
    obtain ⟨j, hj, c, hr1, hr2, hc⟩ := h.runs r hr
    have hji : j ≠ i := by
      rintro rfl
      refine (h.bits j hj c (by omega)).mp (hall c (by omega)) r hr ?_
      simp only [Covers, SMPGSIZE] at *
      omega
    obtain ⟨l, hl, rfl⟩ := hold_surj j hj hji
    exact ⟨l, hl, c, hr1, hr2, hc⟩
  case apart => exact h.apart

/-- `smpgfree` finds the page of an address. -/
theorem findPage_eq (hi : i < fin) {m : ℕ} (hm : m ≤ fin)
    (him : i < m) : findPage addr (addr i) m = some i := by
  induction m with
  | zero => omega
  | succ m ih =>
    rw [findPage]
    split
    next heq => rw [h.distinct m (by omega) i hi heq]
    next hne =>
      have him' : i ≠ m := fun heq => hne (heq ▸ rfl)
      exact ih (by omega) (by omega)

end

end Mapped

/-- A page has room if the loop over its mask finds some. -/
theorem fits_iff {b n : ℕ} (hb : b < 16) (hn : 0 < n) (hn4 : n ≤ 4) :
    Fits b n ↔ ∃ p, findChunks b n = some p := by
  obtain ⟨m, rfl⟩ : ∃ m, n = m + 1 := ⟨n - 1, by omega⟩
  obtain ⟨hsome, hnone⟩ := findChunks_checked ⟨b, hb⟩ ⟨m, by omega⟩
  constructor
  · rintro ⟨c, hc, hfree⟩
    refine Option.ne_none_iff_exists'.mp fun h0 => ?_
    obtain ⟨d, ⟨h1, h2⟩, h3⟩ := hnone h0 ⟨c, by omega⟩ hc
    exact Bool.false_ne_true (h3.symm.trans (hfree d h1 h2))
  · rintro ⟨p, hp⟩
    obtain ⟨hc, -, hbit⟩ := hsome p hp
    exact ⟨p.1, hc, fun d h1 h2 => (hbit ⟨d, by simp only at hc; omega⟩).1 ⟨h1, h2⟩⟩

/-- A full page has no room. -/
theorem not_fits_zero {n : ℕ} (hn : 0 < n) : ¬ Fits 0 n := by
  rintro ⟨c, -, h⟩
  have h1 := h c le_rfl (by omega)
  rw [Nat.zero_testBit] at h1
  exact Bool.false_ne_true h1

/-- A new page has room. -/
theorem fits_all {n : ℕ} (hn4 : n ≤ 4) : Fits ALLCHKSFREE n :=
  ⟨0, by omega, fun d _ hd => (mask_checked ⟨15, by decide⟩ 0).2.2.mpr rfl ⟨d, by omega⟩⟩

/-! ## The search of the map -/

/-- What the search gives: the first page with room, or the end of the map in use. -/
def Finds (v_smpgmapsz : ℕ) (bmap : ℕ → ℕ) (fin nchks : ℕ) : Found → Prop
  | .chunks i first k => i < fin ∧ findChunks (bmap i) nchks = some (first, k) ∧
      ∀ j < i, ¬ Fits (bmap j) nchks
  | .unused i => i = fin ∧ fin < v_smpgmapsz ∧ ∀ j < fin, ¬ Fits (bmap j) nchks
  | .full => fin = v_smpgmapsz ∧ ∀ j < fin, ¬ Fits (bmap j) nchks

variable {N n : ℕ} {s t u : Smpg}

/-- The search passes pages without room only, and `smpgtop` full pages only. -/
theorem Mapped.search_spec {addr bmap : ℕ → ℕ} {top fin : ℕ} {out : List (ℕ × ℕ)}
    (h : Mapped N addr bmap top fin out) (hn : 0 < n) (hn4 : n ≤ 4) {m i top' : ℕ}
    (him : i + m = N) (hi : i ≤ fin) (htop : top' ≤ i) (hfull : ∀ j < top', bmap j = 0)
    (hno : ∀ j < i, ¬ Fits (bmap j) n) :
    (search addr bmap n m i top').1 ≤ fin ∧
      (∀ j < (search addr bmap n m i top').1, bmap j = 0) ∧
      Finds N bmap fin n (search addr bmap n m i top').2 := by
  induction m generalizing i top' with
  | zero =>
    have hfin := h.fin_le
    exact ⟨by rw [search]; omega, hfull, by omega, fun j hj => hno j (by omega)⟩
  | succ m ih =>
    rw [search]
    split
    next h0 =>
      have hfi : i = fin := by
        by_contra hne
        exact (h.page i (by omega)).1 h0
      exact ⟨by omega, hfull, hfi, by omega, hfi ▸ hno⟩
    next h0 =>
      have hfi : i < fin := by
        by_contra hge
        exact h0 (h.null i (by omega))
      have hnext (h1 : ¬ Fits (bmap i) n) : ∀ j < i + 1, ¬ Fits (bmap j) n := fun j hj => by
        rcases eq_or_ne j i with rfl | hji
        · exact h1
        · exact hno j (by omega)
      split
      next hb =>
        refine ih (by omega) hfi ?_ ?_ (hnext (hb ▸ not_fits_zero hn))
        · split <;> omega
        · intro j hj
          split at hj
          next hit =>
            rcases eq_or_ne j i with rfl | hji
            · exact hb
            · exact hfull j (by omega)
          next => exact hfull j hj
      next hb =>
        have hiff := fits_iff (h.small i hfi) hn hn4
        split
        next first k hf => exact ⟨by dsimp only; omega, hfull, hfi, hf, hno⟩
        next hf =>
          refine ih (by omega) hfi (by omega) hfull (hnext ?_)
          rw [hiff, hf]
          nofun

/-- What `smpgalloc` comes to from `loop:` on. -/
theorem MapInv.loop_cases (h : MapInv N s) (hn : 0 < n) (hn4 : n ≤ 4) (p : ℕ) :
    ∃ top ≤ s.smpgend, (∀ j < top, s.smp_bmap j = 0) ∧
      ((∃ i < s.smpgend, ∃ c k, findChunks (s.smp_bmap i) n = some (c, k) ∧
          (∀ j < i, ¬ Fits (s.smp_bmap j) n) ∧
          loop N s p n = some { s with
            smpgtop := top
            smp_bmap := update s.smp_bmap i ((s.smp_bmap i).ldiff k)
            callers := update s.callers p .idle
            out := (s.smp_addr i + SMPGSIZE * c, n) :: s.out }) ∨
        (∀ j < s.smpgend, ¬ Fits (s.smp_bmap j) n) ∧
          ((s.smpgend < N ∧ s.locked = true ∧ loop N s p n = some { s with
              smpgtop := top
              wanted := true
              callers := update s.callers p (.asleep n) }) ∨
            (s.smpgend < N ∧ s.locked = false ∧ loop N s p n = some { s with
              smpgtop := top
              locked := true
              callers := update s.callers p (.sptalloc n s.smpgend) }) ∨
            (s.smpgend = N ∧ loop N s p n = none))) := by
  have htop := h.top_le
  have hfin := h.fin_le
  obtain ⟨h1, h2, h3⟩ := h.search_spec (m := N - s.smpgtop) (i := s.smpgtop) hn hn4 (by omega)
    htop le_rfl h.full fun j hj => h.full j hj ▸ not_fits_zero hn
  rw [loop]
  generalize search s.smp_addr s.smp_bmap n (N - s.smpgtop) s.smpgtop s.smpgtop = r at h1 h2 h3 ⊢
  obtain ⟨top, r⟩ := r
  refine ⟨top, h1, h2, ?_⟩
  cases r with
  | chunks i c k => exact Or.inl ⟨i, h3.1, c, k, h3.2.1, h3.2.2, rfl⟩
  | unused i =>
    obtain ⟨rfl, hlt, hno⟩ := h3
    refine Or.inr ⟨hno, ?_⟩
    rcases Bool.eq_false_or_eq_true s.locked with hl | hl
    · exact Or.inl ⟨hlt, hl, if_pos hl⟩
    · exact Or.inr (Or.inl ⟨hlt, hl, if_neg (ne_true_of_eq_false hl)⟩)
  | full => exact Or.inr ⟨h3.2, Or.inr (Or.inr ⟨h3.1, rfl⟩)⟩

/-! ## The lock -/

/-- The number of chunks that a caller wants. -/
def Caller.request : Caller → Option ℕ
  | .idle => none
  | .asleep n | .awake n | .sptalloc n _ => some n

/-- The map entry for which a caller is in `sptalloc`. -/
def Caller.entry : Caller → Option ℕ
  | .sptalloc _ i => some i
  | _ => none

@[simp] theorem request_wakeup (callers : ℕ → Caller) (p : ℕ) :
    (wakeup callers p).request = (callers p).request := by
  unfold wakeup
  split
  next h => rw [h]; rfl
  next => rfl

@[simp] theorem entry_wakeup (callers : ℕ → Caller) (p : ℕ) :
    (wakeup callers p).entry = (callers p).entry := by
  unfold wakeup
  split
  next h => rw [h]; rfl
  next => rfl

/-- `wakeup` sends nobody to `sptalloc`. -/
theorem sptalloc_woken {b : Bool} {callers : ℕ → Caller} {p n i : ℕ}
    (h : (if b then wakeup callers else callers) p = .sptalloc n i) :
    callers p = .sptalloc n i := by
  cases b
  · exact h
  · simp only [if_true, wakeup] at h
    split at h
    · cases h
    · exact h

/-- Whoever is in `sptalloc` has the lock, and the entry is the first unused one. -/
structure Locking (v_smpgmapsz : ℕ) (locked : Bool) (fin : ℕ) (callers : ℕ → Caller) : Prop where
  size : ∀ p, ∀ n ∈ (callers p).request, 0 < n ∧ n ≤ 4
  holder : ∀ p, ∀ i ∈ (callers p).entry, locked = true ∧ i = fin ∧ fin < v_smpgmapsz
  one : ∀ p q, ∀ i ∈ (callers p).entry, ∀ j ∈ (callers q).entry, p = q

/-- The lock of a state is in order. -/
def LockInv (v_smpgmapsz : ℕ) (s : Smpg) : Prop :=
  Locking v_smpgmapsz s.locked s.smpgend s.callers

namespace Locking

variable {locked : Bool} {fin p : ℕ} {callers callers' : ℕ → Caller} {c : Caller}

/-- The invariant depends on the requests and the entries only. -/
theorem congr (h : Locking N locked fin callers)
    (hr : ∀ p, (callers' p).request = (callers p).request)
    (he : ∀ p, (callers' p).entry = (callers p).entry) : Locking N locked fin callers' := by
  constructor
  · intro p n hn
    exact h.size p n (hr p ▸ hn)
  · intro p i hi
    exact h.holder p i (he p ▸ hi)
  · intro p q i hi j hj
    exact h.one p q i (he p ▸ hi) j (he q ▸ hj)

/-- `wakeup` leaves the lock alone. -/
theorem woken (h : Locking N locked fin callers) (b : Bool) :
    Locking N locked fin (if b then wakeup callers else callers) := by
  cases b
  · exact h
  · exact h.congr (request_wakeup callers) (entry_wakeup callers)

/-- A caller moves to a place outside `sptalloc`. -/
theorem set (h : Locking N locked fin callers) (hc : c.entry = none)
    (hsize : ∀ n ∈ c.request, 0 < n ∧ n ≤ 4) :
    Locking N locked fin (update callers p c) := by
  have hentry {q i : ℕ} (hi : i ∈ (update callers p c q).entry) :
      i ∈ (callers q).entry := by
    rcases eq_or_ne q p with rfl | hq
    · rw [update_self, hc] at hi
      exact absurd hi (Option.not_mem_none _)
    · rwa [update_of_ne hq] at hi
  refine ⟨fun q n hn => ?_, fun q i hi => h.holder q i (hentry hi),
    fun q r i hi j hj => h.one q r i (hentry hi) j (hentry hj)⟩
  rw [update_apply] at hn
  split_ifs at hn with hq
  · exact hsize n hn
  · exact h.size q n hn

/-- Nobody is in `sptalloc` while the lock is free. -/
theorem entry_eq_none (h : Locking N false fin callers) (p : ℕ) : (callers p).entry = none :=
  Option.eq_none_iff_forall_not_mem.mpr fun i hi => Bool.false_ne_true (h.holder p i hi).1

/-- While the lock is free, entries may come and go. -/
theorem resize (h : Locking N false fin callers) (fin' : ℕ) : Locking N false fin' callers :=
  { h with holder := fun p i hi => absurd hi (by rw [h.entry_eq_none]; exact Option.not_mem_none _) }

/-- A caller takes the lock. -/
theorem acquire (h : Locking N false fin callers) (hfin : fin < N) {n : ℕ} (hn : 0 < n)
    (hn4 : n ≤ 4) : Locking N true fin (update callers p (.sptalloc n fin)) := by
  have hentry {q i : ℕ} (hi : i ∈ (update callers p (.sptalloc n fin) q).entry) :
      q = p ∧ i = fin := by
    rw [update_apply] at hi
    split_ifs at hi with hq
    · subst hq
      exact ⟨rfl, (Option.some.inj hi).symm⟩
    · rw [h.entry_eq_none] at hi
      exact absurd hi (Option.not_mem_none _)
  refine ⟨fun q m hm => ?_, fun q i hi => ⟨rfl, (hentry hi).2, hfin⟩,
    fun q r i hi j hj => (hentry hi).1.trans (hentry hj).1.symm⟩
  rw [update_apply] at hm
  split_ifs at hm with hq
  · cases hm
    exact ⟨hn, hn4⟩
  · exact h.size q m hm

/-- The one who has the lock returns from `sptalloc`. -/
theorem release (h : Locking N locked fin callers) {i : ℕ} (hp : i ∈ (callers p).entry)
    (fin' : ℕ) : Locking N false fin' (update callers p .idle) := by
  have hentry (q : ℕ) : (update callers p .idle q).entry = none := by
    rw [update_apply]
    split_ifs with hq
    · rfl
    · exact Option.eq_none_iff_forall_not_mem.mpr fun j hj => hq (h.one q p j hj i hp)
  have hset : Locking N locked fin (update callers p .idle) := h.set rfl nofun
  refine { size := hset.size, holder := fun q j hj => ?_, one := fun q r j hj => ?_ }
  · rw [hentry] at hj
    exact absurd hj (Option.not_mem_none _)
  · rw [hentry] at hj
    exact absurd hj (Option.not_mem_none _)

end Locking

/-! ## The steps keep both invariants -/

section

variable (h : MapInv N s)

include h

/-- `smpgalloc` from `loop:` on, for a caller that is in no other place. -/
theorem loop_inv (hn : 0 < n) (hn4 : n ≤ 4) {p : ℕ}
    (hl : Locking N s.locked s.smpgend (update s.callers p .idle))
    (hu : loop N s p n = some u) : MapInv N u ∧ LockInv N u := by
  have hset {c : Caller} : update (update s.callers p .idle) p c =
      update s.callers p c := update_idem ..
  have hsize {c : Caller} (hc : c.request = some n) : ∀ m ∈ c.request, 0 < m ∧ m ≤ 4 := by
    intro m hm
    rw [hc] at hm
    cases hm
    exact ⟨hn, hn4⟩
  obtain ⟨top, htop, hfull, ⟨i, hi, c, k, hf, -, heq⟩ | ⟨-, h1⟩⟩ := h.loop_cases hn hn4 p
  · rw [heq] at hu
    cases hu
    exact ⟨(h.withTop htop hfull).take hi hn hn4 hf, hl⟩
  · obtain ⟨-, -, heq⟩ | ⟨hlt, hfree, heq⟩ | ⟨-, heq⟩ := h1
    · rw [heq] at hu
      cases hu
      have hl' := hl.set (p := p) (c := .asleep n) rfl (hsize rfl)
      rw [hset] at hl'
      exact ⟨h.withTop htop hfull, hl'⟩
    · rw [heq] at hu
      cases hu
      rw [hfree] at hl
      have hl' := hl.acquire (p := p) hlt hn hn4
      rw [hset] at hl'
      exact ⟨h.withTop htop hfull, hl'⟩
    · rw [heq] at hu
      cases hu

/-- `smpgfree` of a run handed out: no assertion fails. -/
theorem smpgfree_inv (hl : LockInv N s) {v : ℕ} (hr : (v, n) ∈ s.out) :
    ∃ u, smpgfree N s v n = some u ∧ MapInv N u ∧ LockInv N u := by
  obtain ⟨i, hi, c, hv, hn, hcn⟩ := h.runs _ hr
  simp only at hv hn hcn
  have hpage := (h.page i hi).2
  have hpg : v / NBPP * NBPP = s.smp_addr i := by
    simp only [NBPP, SMPGSIZE] at *
    omega
  have hchunk : v % NBPP / SMPGSIZE = c := by
    simp only [NBPP, SMPGSIZE] at *
    omega
  obtain ⟨hand, hgive⟩ := h.give hr hi hv hn hcn
  rw [smpgfree]
  dsimp only
  rw [hpg, h.findPage_eq hi le_rfl hi, hchunk]
  dsimp only
  rw [if_pos hand]
  have hlock : Locking N s.locked s.smpgend (if s.wanted then wakeup s.callers else s.callers) :=
    Locking.woken hl s.wanted
  split
  next => exact ⟨_, rfl, hgive, hlock⟩
  next hdrop =>
    push Not at hdrop
    obtain ⟨hall, hfree⟩ := hdrop
    have hfree : s.locked = false := eq_false_of_ne_true hfree
    refine ⟨_, rfl, hgive.drop hi (min_le_right _ _) ?_, ?_⟩
    · exact hall
    · rw [hfree] at hlock
      have hlock' := hlock.resize (s.smpgend - 1)
      rw [← hfree] at hlock'
      exact hlock'

/-- What the state after `sptalloc` has returned a page is like, and who goes on. -/
theorem page_inv (hl : LockInv N s) {p i blk : ℕ}
    (hp : s.callers p = .sptalloc n i) (hblk : s.Fresh blk) :
    (0 < n ∧ n ≤ 4) ∧ i = s.smpgend ∧ MapInv N (unlock (addPage s blk)) ∧
      Locking N false (s.smpgend + 1)
        (update (unlock (addPage s blk)).callers p .idle) := by
  have hentry : i ∈ (s.callers p).entry := by rw [hp]; rfl
  obtain ⟨-, hi, hlt⟩ := hl.holder p i hentry
  have hsize := hl.size p n (by rw [hp]; rfl)
  have hwoken : Locking N s.locked s.smpgend (unlock (addPage s blk)).callers :=
    Locking.woken hl s.wanted
  have hentry' : i ∈ ((unlock (addPage s blk)).callers p).entry := by
    unfold unlock addPage
    dsimp only
    split
    · rwa [entry_wakeup]
    · exact hentry
  exact ⟨hsize, hi, Mapped.add h hlt hblk.1 hblk.2.1 hblk.2.2, hwoken.release hentry' _⟩

/-- **One step** keeps the map and its lock in order. -/
theorem step_inv (hl : LockInv N s) {e : Event} (hu : step N s e = some u) :
    MapInv N u ∧ LockInv N u := by
  cases e with
  | call p n =>
    rw [step, Option.ite_none_right_eq_some] at hu
    obtain ⟨⟨-, hn, hn4⟩, hu⟩ := hu
    exact loop_inv h hn hn4 (Locking.set hl rfl nofun) hu
  | resume p =>
    rw [step] at hu
    split at hu
    next n hp =>
      obtain ⟨hn, hn4⟩ := hl.size p n (by rw [hp]; rfl)
      exact loop_inv h hn hn4 (Locking.set hl rfl nofun) hu
    next => cases hu
  | page p blk =>
    unfold step at hu
    dsimp only at hu
    split at hu
    next n i blk hp =>
      rw [Option.ite_none_right_eq_some] at hu
      obtain ⟨⟨hblk, -⟩, hu⟩ := hu
      obtain ⟨⟨hn, hn4⟩, -, hmap, hlock⟩ := page_inv h hl hp hblk
      exact loop_inv hmap hn hn4 hlock hu
    next n i hp =>
      cases hu
      have hentry : i ∈ ((unlock s).callers p).entry := by
        unfold unlock
        dsimp only
        split
        · rw [entry_wakeup, hp]
          rfl
        · rw [hp]
          rfl
      have hwoken : Locking N s.locked s.smpgend (unlock s).callers := Locking.woken hl s.wanted
      exact ⟨h, hwoken.release hentry _⟩
    next => cases hu
  | free v n =>
    rw [step, Option.ite_none_right_eq_some] at hu
    obtain ⟨hr, hu⟩ := hu
    obtain ⟨w, hw, hmap, hlock⟩ := smpgfree_inv h hl hr
    rw [hw] at hu
    cases hu
    exact ⟨hmap, hlock⟩

omit h in
/-- The map is in order before the first call. -/
theorem init_inv (N : ℕ) : MapInv N init ∧ LockInv N init := by
  refine ⟨⟨le_rfl, Nat.zero_le _, fun _ _ => rfl, ?_, ?_, ?_, ?_, ?_, ?_, List.Pairwise.nil⟩,
    ⟨fun _ => nofun, fun _ => nofun, fun _ _ _ => nofun⟩⟩
  · exact fun i hi => absurd hi (Nat.not_lt_zero i)
  · exact fun i hi => absurd hi (Nat.not_lt_zero i)
  · exact fun i hi => absurd hi (Nat.not_lt_zero i)
  · exact fun i hi => absurd hi (Nat.not_lt_zero i)
  · exact fun i hi => absurd hi (Nat.not_lt_zero i)
  · exact fun r hr => absurd hr not_mem_nil

omit h in
theorem run_inv {es : List Event} (h : exec (step N) init es = some t) :
    MapInv N t ∧ LockInv N t :=
  exec_invariant' (P := fun s => MapInv N s ∧ LockInv N s)
    (fun _ _ _ hs hu => step_inv hs.1 hs.2 hu) (init_inv N) h

/-! ## What a step answers -/

/-- The step from `s` to `u` hands out chunks of the first page with room, if the map has one, and
goes to `sptalloc` only if it has none. -/
def FirstFit (s u : Smpg) : Prop :=
  (∀ v n, u.out = (v, n) :: s.out → (∃ i < s.smpgend, Fits (s.smp_bmap i) n) →
    ∃ i < s.smpgend, Fits (s.smp_bmap i) n ∧ (∀ j < i, ¬ Fits (s.smp_bmap j) n) ∧
      s.smp_addr i ≤ v ∧ v + SMPGSIZE * n ≤ s.smp_addr i + NBPP) ∧
  ∀ p n i, u.callers p = .sptalloc n i → s.callers p ≠ .sptalloc n i →
    ∀ j < s.smpgend, ¬ Fits (s.smp_bmap j) n

/-- The event can happen in the state `s`: the callers do what they may, and `sptalloc` returns a
page of its own. -/
def Enabled (s : Smpg) : Event → Prop
  | .call p n => s.callers p = .idle ∧ 0 < n ∧ n ≤ 4
  | .resume p => ∃ n, s.callers p = .awake n
  | .page p blk => (∃ n i, s.callers p = .sptalloc n i) ∧ ∀ b ∈ blk, s.Fresh b
  | .free v n => (v, n) ∈ s.out

/-- The request that an event is about. -/
def asks (s : Smpg) : Event → ℕ
  | .call _ n => n
  | .resume p | .page p _ => ((s.callers p).request).getD 0
  | .free _ _ => 0

/-- No assertion fails, and the panic comes only when the map is full and has no room. -/
def Proceeds (N : ℕ) (s : Smpg) : Prop :=
  ∀ e, Enabled s e → step N s e = none →
    s.smpgend = N ∧ ∀ i < N, ¬ Fits (s.smp_bmap i) (asks s e)

/-- `smpgalloc` from `loop:` on hands out chunks of the first page with room, and goes to
`sptalloc` only if there is none. -/
theorem loop_answers (hn : 0 < n) (hn4 : n ≤ 4) {p : ℕ}
    (hu : loop N s p n = some u) :
    (u.out = s.out ∨ ∃ i < s.smpgend, ∃ v, u.out = (v, n) :: s.out ∧ Fits (s.smp_bmap i) n ∧
      (∀ j < i, ¬ Fits (s.smp_bmap j) n) ∧
      s.smp_addr i ≤ v ∧ v + SMPGSIZE * n ≤ s.smp_addr i + NBPP) ∧
    ∀ q m i, u.callers q = .sptalloc m i → s.callers q = .sptalloc m i ∨
      m = n ∧ ∀ j < s.smpgend, ¬ Fits (s.smp_bmap j) n := by
  have hset {c : Caller} {q m i : ℕ} (hc : ∀ j, c = .sptalloc m j → m = n)
      (hno : c.entry ≠ none → ∀ j < s.smpgend, ¬ Fits (s.smp_bmap j) n)
      (hq : update s.callers p c q = .sptalloc m i) :
      s.callers q = .sptalloc m i ∨ m = n ∧ ∀ j < s.smpgend, ¬ Fits (s.smp_bmap j) n := by
    rw [update_apply] at hq
    split_ifs at hq with hne
    · exact Or.inr ⟨hc i hq, hno (by rw [hq]; nofun)⟩
    · exact Or.inl hq
  obtain ⟨top, htop, hfull, ⟨i, hi, c, k, hf, hfirst, heq⟩ | ⟨hno, h1⟩⟩ := h.loop_cases hn hn4 p
  · have hfit := fits_iff (h.small i hi) hn hn4
    obtain ⟨hcn, -⟩ := (findChunks_checked ⟨_, h.small i hi⟩ ⟨n - 1, by omega⟩).1 (c, k) (by
      rw [Nat.sub_add_cancel hn]
      exact hf)
    simp only at hcn
    rw [heq] at hu
    cases hu
    refine ⟨Or.inr ⟨i, hi, _, rfl, hfit.mpr ⟨_, hf⟩, hfirst, Nat.le_add_right _ _, ?_⟩,
      fun q m j hq => hset (c := .idle) nofun (absurd rfl) hq⟩
    simp only [SMPGSIZE, NBPP]
    omega
  · obtain ⟨-, -, heq⟩ | ⟨-, -, heq⟩ | ⟨-, heq⟩ := h1
    · rw [heq] at hu
      cases hu
      exact ⟨Or.inl rfl, fun q m j hq => hset (c := .asleep n) nofun (fun _ => hno) hq⟩
    · rw [heq] at hu
      cases hu
      refine ⟨Or.inl rfl, fun q m j hq => hset (fun i hi => ?_) (fun _ => hno) hq⟩
      cases hi
      rfl
    · rw [heq] at hu
      cases hu

/-- The answer of a caller that goes on in the state `s` itself. -/
theorem loop_firstFit (hn : 0 < n) (hn4 : n ≤ 4) {p : ℕ}
    (hu : loop N s p n = some u) : FirstFit s u := by
  obtain ⟨hout, hcallers⟩ := loop_answers h hn hn4 hu
  constructor
  · intro v m hv _
    obtain hout | ⟨i, hi, w, hw, hi'⟩ := hout
    · rw [hout] at hv
      exact absurd hv (cons_ne_self _ _).symm
    · rw [hw] at hv
      cases hv
      exact ⟨i, hi, hi'⟩
  · intro q m i hq hne
    obtain h1 | ⟨rfl, hno⟩ := hcallers q m i hq
    · exact absurd h1 hne
    · exact hno

/-- After `sptalloc`, the new page is used only if no other one has room. -/
theorem page_firstFit (hl : LockInv N s) {p i blk : ℕ}
    (hp : s.callers p = .sptalloc n i) (hblk : s.Fresh blk)
    (hu : loop N (unlock (addPage s blk)) p n = some u) : FirstFit s u := by
  obtain ⟨⟨hn, hn4⟩, -, hmap, -⟩ := page_inv h hl hp hblk
  obtain ⟨hout, hcallers⟩ := loop_answers hmap hn hn4 hu
  have haddr (j : ℕ) (hj : j < s.smpgend) :
      (unlock (addPage s blk)).smp_addr j = s.smp_addr j := update_of_ne hj.ne ..
  have hbmap (j : ℕ) (hj : j < s.smpgend) :
      (unlock (addPage s blk)).smp_bmap j = s.smp_bmap j := update_of_ne hj.ne ..
  have hend : (unlock (addPage s blk)).smpgend = s.smpgend + 1 := rfl
  constructor
  · rintro v m hv ⟨j, hj, hfit⟩
    obtain hout | ⟨i, hi, w, hw, hfit', hfirst, hin⟩ := hout
    · rw [hout] at hv
      exact absurd hv (cons_ne_self _ _).symm
    · rw [hw] at hv
      cases hv
      have hij : i ≤ j := by
        by_contra hlt
        exact hfirst j (by omega) (by rwa [hbmap j hj])
      have hi : i < s.smpgend := by omega
      rw [hbmap i hi] at hfit'
      rw [haddr i hi] at hin
      exact ⟨i, hi, hfit', fun l hl => by rw [← hbmap l (by omega)]; exact hfirst l hl, hin⟩
  · intro q m j hq hne
    obtain h1 | ⟨rfl, hno⟩ := hcallers q m j hq
    · exact absurd (sptalloc_woken h1) hne
    · exact fun l hl => by rw [← hbmap l hl]; exact hno l (by omega)

omit h in
/-- The callers that `smpgfree` leaves in `sptalloc` were there before. -/
theorem smpgfree_callers {v : ℕ} (hu : smpgfree N s v n = some u) :
    u.out = s.out.erase (v, n) ∧ u.callers = if s.wanted then wakeup s.callers else s.callers := by
  unfold smpgfree at hu
  dsimp only at hu
  split at hu
  next => cases hu
  next i _ =>
    split at hu
    next =>
      split at hu
      next => cases hu; exact ⟨rfl, rfl⟩
      next => cases hu; exact ⟨rfl, rfl⟩
    next => cases hu

/-- **One step** answers with the first page with room. -/
theorem step_firstFit (hl : LockInv N s) {e : Event} (hu : step N s e = some u) :
    FirstFit s u := by
  cases e with
  | call p n =>
    rw [step, Option.ite_none_right_eq_some] at hu
    obtain ⟨⟨-, hn, hn4⟩, hu⟩ := hu
    exact loop_firstFit h hn hn4 hu
  | resume p =>
    rw [step] at hu
    split at hu
    next n hp =>
      obtain ⟨hn, hn4⟩ := hl.size p n (by rw [hp]; rfl)
      exact loop_firstFit h hn hn4 hu
    next => cases hu
  | page p blk =>
    unfold step at hu
    dsimp only at hu
    split at hu
    next n i blk hp =>
      rw [Option.ite_none_right_eq_some] at hu
      exact page_firstFit h hl hp hu.1.1 hu.2
    next n i hp =>
      cases hu
      constructor
      · intro v m hv _
        exact absurd hv (cons_ne_self _ _).symm
      · intro q m j hq hne
        dsimp only at hq
        rcases eq_or_ne q p with rfl | hqp
        · rw [update_self] at hq
          cases hq
        · rw [update_of_ne hqp] at hq
          exact absurd (sptalloc_woken hq) hne
    next => cases hu
  | free v n =>
    rw [step, Option.ite_none_right_eq_some] at hu
    obtain ⟨hr, hu⟩ := hu
    obtain ⟨hout, hcallers⟩ := smpgfree_callers hu
    constructor
    · intro w m hw _
      have hlen := congrArg List.length hw
      rw [hout, length_erase_of_mem hr, length_cons] at hlen
      omega
    · intro q m j hq hne
      rw [hcallers] at hq
      exact absurd (sptalloc_woken hq) hne

/-- **One step** that can happen does, unless the map is full and has no room. -/
theorem step_proceeds (hl : LockInv N s) : Proceeds N s := by
  have hloop {s : Smpg} (h : MapInv N s) {n : ℕ} (hn : 0 < n) (hn4 : n ≤ 4) {p : ℕ}
      (hnone : loop N s p n = none) : s.smpgend = N ∧ ∀ i < N, ¬ Fits (s.smp_bmap i) n := by
    obtain ⟨top, -, -, ⟨i, -, c, k, -, -, heq⟩ | ⟨hno, h1⟩⟩ := h.loop_cases hn hn4 p
    · rw [heq] at hnone
      cases hnone
    · obtain ⟨-, -, heq⟩ | ⟨-, -, heq⟩ | ⟨hN, -⟩ := h1
      · rw [heq] at hnone
        cases hnone
      · rw [heq] at hnone
        cases hnone
      · exact ⟨hN, hN ▸ hno⟩
  intro e he hnone
  cases e with
  | call p n =>
    obtain ⟨hp, hn, hn4⟩ := he
    rw [step, if_pos ⟨hp, hn, hn4⟩] at hnone
    exact hloop h hn hn4 hnone
  | resume p =>
    obtain ⟨n, hp⟩ := he
    obtain ⟨hn, hn4⟩ := hl.size p n (by rw [hp]; rfl)
    simp only [step, hp] at hnone
    have hasks : asks s (.resume p) = n := by rw [asks, hp]; rfl
    rw [hasks]
    exact hloop h hn hn4 hnone
  | page p blk =>
    obtain ⟨⟨n, i, hp⟩, hblk⟩ := he
    cases blk with
    | none => simp only [step, hp, reduceCtorEq] at hnone
    | some blk =>
      obtain ⟨⟨hn, hn4⟩, hi, hmap, -⟩ := page_inv h hl hp (hblk blk rfl)
      simp only [step, hp, if_pos (And.intro (hblk blk rfl) hi)] at hnone
      -- the new page has room
      obtain ⟨hN, hno⟩ := hloop hmap hn hn4 hnone
      have hN : s.smpgend + 1 = N := hN
      have hnew : (unlock (addPage s blk)).smp_bmap s.smpgend = ALLCHKSFREE :=
        update_self ..
      exact absurd (hnew ▸ fits_all hn4) (hno s.smpgend (by omega))
  | free v n =>
    have he : (v, n) ∈ s.out := he
    obtain ⟨u, hu, -⟩ := smpgfree_inv h hl he
    rw [step, if_pos he, hu] at hnone
    cases hnone

end

/-- **No chunk is handed out twice.**  In every state that calls of `smpgalloc` and `smpgfree` in
any interleaving lead to, the runs handed out are apart, the map has exactly the other chunks as
free ones, and all below `smpgtop` is full.  Every step from there answers with the first page with
room; and it does happen, unless the map is full and has no room. -/
theorem smpg_handed_out_once {es : List Event} (h : exec (step N) init es = some t) :
    MapInv N t ∧ (∀ e u, step N t e = some u → FirstFit t u) ∧ Proceeds N t := by
  obtain ⟨hmap, hlock⟩ := run_inv h
  exact ⟨hmap, fun e u hu => step_firstFit hmap hlock hu, step_proceeds hmap hlock⟩

/-- Two callers, one asleep while the other gets a page; the first run freed and handed out again. -/
def trace : List Event :=
  [.call 0 3, .call 1 2, .page 0 (some 4096), .resume 1, .page 1 (some 8192), .free 4096 3,
    .call 0 2]

theorem smpg_handed_out_once_trace : ∃ t, exec (step 8) init trace = some t ∧ MapInv 8 t ∧
    (∀ e u, step 8 t e = some u → FirstFit t u) ∧ Proceeds 8 t := by
  obtain ⟨t, ht⟩ : ∃ t, exec (step 8) init trace = some t :=
    Option.isSome_iff_exists.mp (by decide +kernel)
  exact ⟨t, ht, smpg_handed_out_once ht⟩

end Smpg

end Os
