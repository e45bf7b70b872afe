import OpusSysV.Os.Bio
import Mathlib.Data.List.Nodup

/-!
# The buffer cache is transparent

What a process reads is what the last writer of the block released, whether the bytes come from a
buffer or from the disk.

* `Loc` — who has a buffer.  Nobody, a process or a driver, and never two of them.
* `Bufs`, `Procs`, `Bytes` — the invariant: of the buffers and their lists, of the processes, and
  of the bytes.  Each primitive of the routines keeps them.
* `cache_transparent` — the invariant and what reads returned, in every history from `binit` on.
-/

namespace Os

open Lib Function List Option

/-! ## What a process waits for -/

/-- The buffers that `breada` has collected. -/
def Getter.fresh : Getter → List ℕ
  | .ahead sbp _ bps _ _ => sbp :: bps
  | _ => []

/-- The buffer and the block that `breada` will return. -/
def Getter.reads : Getter → Option (ℕ × Blk)
  | .ahead sbp k _ _ _ => some (sbp, k)
  | _ => none

namespace BioPc

/-- The buffers that a process has collected and not started to read. -/
def fresh : BioPc → List ℕ
  | .getblk _ g => g.fresh
  | .sleepBuf _ _ g => g.fresh
  | .sleepFree _ g => g.fresh
  | .start _ _ bps => bps
  | _ => []

/-- The buffer whose I/O a process waits for. -/
def awaits : BioPc → Option ℕ
  | .start sbp _ _ => some sbp
  | .readWait b _ => some b
  | .writeWait b => some b
  | _ => none

/-- The buffer and the block that a read will return. -/
def reads : BioPc → Option (ℕ × Blk)
  | .getblk _ g => g.reads
  | .sleepBuf _ _ g => g.reads
  | .sleepFree _ g => g.reads
  | .start sbp k _ => some (sbp, k)
  | .readWait b k => some (b, k)
  | _ => none

/-- The buffer that a process sleeps on in `getblk`, and the block it wants. -/
def sleeps : BioPc → Option (ℕ × Blk)
  | .sleepBuf b k _ => some (b, k)
  | _ => none

end BioPc

/-- The bytes of a block that were released last. -/
def last {B : Type*} (disk : Blk → B) : List (Access B) → Blk → B
  | [], k => disk k
  | .write k' bytes :: l, k => if k' = k then bytes else last disk l k
  | .read _ _ :: l, k => last disk l k

/-- Each read returned the bytes of its block that were released last. -/
def Transparent {B : Type*} (disk : Blk → B) : List (Access B) → Prop
  | [] => True
  | .write _ _ :: l => Transparent disk l
  | .read k bytes :: l => bytes = last disk l k ∧ Transparent disk l

/-- Who has a buffer. -/
inductive Loc
  | free
  | proc (p : ℕ)
  | driver
  deriving DecidableEq, Repr

namespace Cache

variable {B : Type*} {c : BioConf} {disk : Blk → B} {loc loc' : ℕ → Loc} {s t : Cache B}
variable {b p : ℕ} {k : Blk} {l : Loc} {x : Buf B}

/-! ## The invariant -/

/-- The buffers: each is hashed under its block, no two carry one block, and those that nobody has
are not busy. -/
structure Bufs (c : BioConf) (loc : ℕ → Loc) (s : Cache B) : Prop where
  stale : ∀ b, (s.buf b).stale = false
  hashed : ∀ b k, (s.buf b).blk = some k → b ∈ s.hash (c.bhash k)
  unique : ∀ b b' k, (s.buf b).blk = some k → (s.buf b').blk = some k → b = b'
  named : ∀ b, loc b ≠ .free ∨ (s.buf b).delwri = true → (s.buf b).blk ≠ none
  busy : ∀ b, (s.buf b).busy = true ↔ loc b ≠ .free
  async : ∀ b, (s.buf b).async = true → loc b = .driver
  nodup : s.free.Nodup
  free : ∀ b ∈ s.free, loc b = .free
  range : ∀ b, b ∈ s.free ∨ (s.buf b).blk ≠ none → b < c.vBuf

/-- The processes: what each has got, and what it waits for. -/
structure Procs (loc : ℕ → Loc) (s : Cache B) : Prop where
  heldNodup : ∀ p, (s.held p).Nodup
  held : ∀ p, ∀ b ∈ s.held p, loc b = .proc p
  ioNodup : s.io.Nodup
  io : ∀ b ∈ s.io, loc b ≠ .free ∧ (s.buf b).done = false
  freshNodup : ∀ p, (s.pc p).fresh.Nodup
  fresh : ∀ p, ∀ b ∈ (s.pc p).fresh, b ∈ s.held p ∧ b ∉ s.io ∧ (s.buf b).done = false
  awaits : ∀ p b, (s.pc p).awaits = some b → b ∈ s.held p ∧ b ∉ (s.pc p).fresh
  idle : ∀ p, ∀ b ∈ s.held p, b ∈ s.io → (s.pc p).awaits = some b
  reads : ∀ p b k, (s.pc p).reads = some (b, k) → b ∈ s.held p ∧ (s.buf b).blk = some k
  sleeps : ∀ p b k, (s.pc p).sleeps = some (b, k) →
    loc b ≠ .free ∧ (s.buf b).wanted = true ∧ (s.buf b).blk = some k

/-- The bytes: a buffer that is done has the last ones, and so has the disk unless a write is
delayed or under way. -/
structure Bytes (disk : Blk → B) (s : Cache B) : Prop where
  done : ∀ b k, (s.buf b).blk = some k → (s.buf b).done = true →
    (s.buf b).bytes = last disk s.trace k
  delwri : ∀ b, (s.buf b).delwri = true → (s.buf b).done = true
  writing : ∀ b k, (s.buf b).blk = some k → b ∈ s.io → (s.buf b).read = false →
    (s.buf b).bytes = last disk s.trace k
  clean : ∀ b k, (s.buf b).blk = some k → (s.buf b).delwri = false →
    (b ∈ s.io → (s.buf b).read = true) → s.disk k = last disk s.trace k
  absent : ∀ k, (∀ b, (s.buf b).blk ≠ some k) → s.disk k = last disk s.trace k
  trace : Transparent disk s.trace

/-- The invariant. -/
structure Sound (c : BioConf) (disk : Blk → B) (loc : ℕ → Loc) (s : Cache B) : Prop where
  bufs : Bufs c loc s
  procs : Procs loc s
  bytes : Bytes disk s

/-! ## What it rests on -/

theorem Bufs.congr (h : Bufs c loc s) (hbuf : t.buf = s.buf) (hhash : t.hash = s.hash)
    (hfree : t.free = s.free) : Bufs c loc t := by
  constructor
  · rw [hbuf]; exact h.stale
  · rw [hbuf, hhash]; exact h.hashed
  · rw [hbuf]; exact h.unique
  · rw [hbuf]; exact h.named
  · rw [hbuf]; exact h.busy
  · rw [hbuf]; exact h.async
  · rw [hfree]; exact h.nodup
  · rw [hfree]; exact h.free
  · rw [hfree, hbuf]; exact h.range

/-- One buffer changes, with its block and its chain as they are. -/
theorem Bufs.set (h : Bufs c loc s) (hbuf : t.buf = update s.buf b x)
    (hhash : t.hash = s.hash) (hblk : x.blk = (s.buf b).blk) (hstale : x.stale = false)
    (hnamed : l ≠ .free ∨ x.delwri = true → x.blk ≠ none) (hbusy : x.busy = true ↔ l ≠ .free)
    (hasync : x.async = true → l = .driver) (hnodup : t.free.Nodup)
    (hfree : ∀ y ∈ t.free, if y = b then l = .free ∧ (y ∈ s.free ∨ x.blk ≠ none)
      else y ∈ s.free) :
    Bufs c (update loc b l) t := by
  have hself : t.buf b = x := by rw [hbuf, update_self]
  have hother : ∀ y, y ≠ b → t.buf y = s.buf y := fun y hy => by
    rw [hbuf, update_of_ne hy]
  have hall : ∀ y, (t.buf y).blk = (s.buf y).blk := fun y => by
    by_cases hy : y = b
    · rw [hy, hself, hblk]
    · rw [hother y hy]
  refine ⟨fun y => ?_, fun y k hy => ?_, fun y y' k hy hy' => ?_, fun y => ?_, fun y => ?_,
    fun y => ?_, hnodup, fun y hy => ?_, fun y hy => ?_⟩
  · by_cases hy : y = b
    · rw [hy, hself, hstale]
    · rw [hother y hy]
      exact h.stale y
  · rw [hall] at hy
    rw [hhash]
    exact h.hashed y k hy
  · rw [hall] at hy hy'
    exact h.unique y y' k hy hy'
  · by_cases hy : y = b
    · rw [hy, hself, update_self]
      exact hnamed
    · rw [hother y hy, update_of_ne hy]
      exact h.named y
  · by_cases hy : y = b
    · rw [hy, hself, update_self]
      exact hbusy
    · rw [hother y hy, update_of_ne hy]
      exact h.busy y
  · by_cases hy : y = b
    · rw [hy, hself, update_self]
      exact hasync
    · rw [hother y hy, update_of_ne hy]
      exact h.async y
  · have hmem := hfree y hy
    split_ifs at hmem with hyb
    · rw [hyb, update_self, hmem.1]
    · rw [update_of_ne hyb]
      exact h.free y hmem
  · rw [hall] at hy
    refine h.range y (hy.elim (fun hy => ?_) .inr)
    have hmem := hfree y hy
    split_ifs at hmem with hyb
    · rw [hblk, ← hyb] at hmem
      exact hmem.2
    · exact .inl hmem

/-- One buffer changes, and who has it stays. -/
theorem Bufs.keep (h : Bufs c loc s) (hbuf : t.buf = update s.buf b x)
    (hhash : t.hash = s.hash) (hfree : t.free = s.free) (hblk : x.blk = (s.buf b).blk)
    (hstale : x.stale = false) (hnamed : loc b ≠ .free ∨ x.delwri = true → x.blk ≠ none)
    (hbusy : x.busy = true ↔ loc b ≠ .free) (hasync : x.async = true → loc b = .driver) :
    Bufs c loc t := by
  have hset := h.set hbuf hhash hblk hstale hnamed hbusy hasync (by rw [hfree]; exact h.nodup)
    fun y hy => by
      rw [hfree] at hy
      by_cases hyb : y = b
      · rw [if_pos hyb, ← hyb]
        exact ⟨h.free y hy, .inl hy⟩
      · rwa [if_neg hyb]
  rwa [show update loc b (loc b) = loc from Function.update_eq_self b loc] at hset

/-- One buffer changes that nobody's lists tell apart from what it was. -/
theorem Procs.set (h : Procs loc s) (hbuf : t.buf = update s.buf b x)
    (hio : t.io = s.io) (hpc : t.pc = s.pc) (hheld : t.held = s.held)
    (hblk : x.blk = (s.buf b).blk ∨ loc b = .free)
    (hdone : x.done = true → b ∉ s.io ∧ ∀ p, b ∉ (s.pc p).fresh)
    (hwanted : ∀ p k, (s.pc p).sleeps = some (b, k) → x.wanted = true) : Procs loc t := by
  have hself : t.buf b = x := by rw [hbuf, update_self]
  have hother : ∀ y, y ≠ b → t.buf y = s.buf y := fun y hy => by
    rw [hbuf, update_of_ne hy]
  have hall : ∀ y, loc y ≠ .free → (t.buf y).blk = (s.buf y).blk := fun y hloc => by
    by_cases hy : y = b
    · rw [hy, hself]
      exact hblk.resolve_right (hy ▸ hloc)
    · rw [hother y hy]
  refine ⟨?_, ?_, ?_, fun y hy => ?_, ?_, fun p y hy => ?_, ?_, ?_, fun p y k hy => ?_,
    fun p y k hy => ?_⟩
  · rw [hheld]; exact h.heldNodup
  · rw [hheld]; exact h.held
  · rw [hio]; exact h.ioNodup
  · rw [hio] at hy
    refine ⟨(h.io y hy).1, ?_⟩
    by_cases hyb : y = b
    · rw [hyb, hself]
      by_contra hd
      exact (hdone (Bool.of_not_eq_false hd)).1 (hyb ▸ hy)
    · rw [hother y hyb]
      exact (h.io y hy).2
  · rw [hpc]; exact h.freshNodup
  · rw [hpc] at hy
    obtain ⟨h1, h2, h3⟩ := h.fresh p y hy
    refine ⟨by rw [hheld]; exact h1, by rw [hio]; exact h2, ?_⟩
    by_cases hyb : y = b
    · rw [hyb, hself]
      by_contra hd
      exact (hdone (Bool.of_not_eq_false hd)).2 p (hyb ▸ hy)
    · rw [hother y hyb, h3]
  · rw [hpc, hheld]; exact h.awaits
  · rw [hpc, hheld, hio]; exact h.idle
  · rw [hpc] at hy
    obtain ⟨h1, h2⟩ := h.reads p y k hy
    rw [hheld, hall y (by rw [h.held p y h1]; simp)]
    exact ⟨h1, h2⟩
  · rw [hpc] at hy
    obtain ⟨h1, h2, h3⟩ := h.sleeps p y k hy
    refine ⟨h1, ?_, by rw [hall y h1]; exact h3⟩
    by_cases hyb : y = b
    · rw [hyb, hself]
      exact hwanted p k (hyb ▸ hy)
    · rw [hother y hyb, h2]

/-- Who has a buffer that no process has and no driver works on does not matter to the
processes. -/
theorem Procs.reloc (h : Procs loc s) (hheld : ∀ p, b ∉ s.held p) (hio : l = .free → b ∉ s.io)
    (hsleeps : l = .free → ∀ p k, (s.pc p).sleeps ≠ some (b, k)) :
    Procs (update loc b l) s := by
  refine ⟨h.heldNodup, fun p y hy => ?_, h.ioNodup, fun y hy => ⟨?_, (h.io y hy).2⟩, h.freshNodup,
    h.fresh, h.awaits, h.idle, h.reads, fun p y k hy => ⟨?_, (h.sleeps p y k hy).2⟩⟩
  · have hyb : y ≠ b := by
      rintro rfl
      exact hheld p hy
    rw [update_of_ne hyb]
    exact h.held p y hy
  · rw [update_apply]
    split_ifs with hyb
    · exact fun hl => hio hl (hyb ▸ hy)
    · exact (h.io y hy).1
  · rw [update_apply]
    split_ifs with hyb
    · exact fun hl => hsleeps hl p k (hyb ▸ hy)
    · exact (h.sleeps p y k hy).1

/-- One buffer changes, and what there is of its block. -/
theorem Bytes.change (h : Bytes disk s) (hbuf : t.buf = update s.buf b x)
    (hio : ∀ y, y ≠ b → (y ∈ t.io ↔ y ∈ s.io))
    (hkeep : ∀ k, x.blk ≠ some k ∨ (∃ y, y ≠ b ∧ (s.buf y).blk = some k) →
      t.disk k = s.disk k ∧ last disk t.trace k = last disk s.trace k)
    (hold : ∀ k, x.blk ≠ some k → (s.buf b).blk = some k → s.disk k = last disk s.trace k)
    (hdone : ∀ k, x.blk = some k → x.done = true → x.bytes = last disk t.trace k)
    (hdelwri : x.delwri = true → x.done = true)
    (hwriting : ∀ k, x.blk = some k → b ∈ t.io → x.read = false → x.bytes = last disk t.trace k)
    (hclean : ∀ k, x.blk = some k → x.delwri = false → (b ∈ t.io → x.read = true) →
      t.disk k = last disk t.trace k) (htrace : Transparent disk t.trace) : Bytes disk t := by
  have hself : t.buf b = x := by rw [hbuf, update_self]
  have hother : ∀ y, y ≠ b → t.buf y = s.buf y := fun y hy => by
    rw [hbuf, update_of_ne hy]
  refine ⟨fun y k hk => ?_, fun y => ?_, fun y k hk => ?_, fun y k hk => ?_, fun k hk => ?_, htrace⟩
  · by_cases hy : y = b
    · rw [hy, hself] at hk ⊢
      exact hdone k hk
    · rw [hother y hy] at hk ⊢
      rw [(hkeep k (.inr ⟨y, hy, hk⟩)).2]
      exact h.done y k hk
  · by_cases hy : y = b
    · rw [hy, hself]
      exact hdelwri
    · rw [hother y hy]
      exact h.delwri y
  · by_cases hy : y = b
    · rw [hy, hself] at hk ⊢
      exact hwriting k hk
    · rw [hother y hy] at hk ⊢
      rw [hio y hy, (hkeep k (.inr ⟨y, hy, hk⟩)).2]
      exact h.writing y k hk
  · by_cases hy : y = b
    · rw [hy, hself] at hk ⊢
      exact hclean k hk
    · rw [hother y hy] at hk ⊢
      obtain ⟨h1, h2⟩ := hkeep k (.inr ⟨y, hy, hk⟩)
      rw [hio y hy, h1, h2]
      exact h.clean y k hk
  · have hx := hk b
    rw [hself] at hx
    obtain ⟨h1, h2⟩ := hkeep k (.inl hx)
    rw [h1, h2]
    by_cases hb : (s.buf b).blk = some k
    · exact hold k hx hb
    · refine h.absent k fun y hy => ?_
      by_cases hyb : y = b
      · exact hb (hyb ▸ hy)
      · exact hk y (by rwa [hother y hyb])

/-- One buffer changes, and the blocks are as they were. -/
theorem Bytes.set (h : Bytes disk s) (hbuf : t.buf = update s.buf b x)
    (hdisk : t.disk = s.disk) (htrace : t.trace = s.trace) (hio : ∀ y, y ≠ b → (y ∈ t.io ↔ y ∈ s.io))
    (hblk : x.blk = (s.buf b).blk)
    (hdone : ∀ k, x.blk = some k → x.done = true → x.bytes = last disk s.trace k)
    (hdelwri : x.delwri = true → x.done = true)
    (hwriting : ∀ k, x.blk = some k → b ∈ t.io → x.read = false → x.bytes = last disk s.trace k)
    (hclean : ∀ k, x.blk = some k → x.delwri = false → (b ∈ t.io → x.read = true) →
      s.disk k = last disk s.trace k) : Bytes disk t := by
  rw [← htrace] at hdone hwriting hclean
  rw [← hdisk] at hclean
  exact h.change hbuf hio (fun _ _ => by rw [hdisk, htrace]; exact ⟨rfl, rfl⟩)
    (fun k hx hb => absurd (hblk.trans hb) hx) hdone hdelwri hwriting hclean
    (by rw [htrace]; exact h.trace)

theorem Bytes.congr (h : Bytes disk s) (hbuf : t.buf = s.buf) (hdisk : t.disk = s.disk)
    (htrace : t.trace = s.trace) (hio : t.io = s.io) : Bytes disk t := by
  constructor
  · rw [hbuf, htrace]; exact h.done
  · rw [hbuf]; exact h.delwri
  · rw [hbuf, htrace, hio]; exact h.writing
  · rw [hbuf, htrace, hio, hdisk]; exact h.clean
  · rw [hbuf, htrace, hdisk]; exact h.absent
  · rw [htrace]; exact h.trace

/-- Where processes are changes, and not what they wait for. -/
theorem Procs.pcs (h : Procs loc s) (hbuf : t.buf = s.buf) (hio : t.io = s.io)
    (hheld : t.held = s.held)
    (hpc : ∀ p, (t.pc p).fresh = (s.pc p).fresh ∧ (t.pc p).awaits = (s.pc p).awaits ∧
      (t.pc p).reads = (s.pc p).reads ∧
      ∀ x, (t.pc p).sleeps = some x → (s.pc p).sleeps = some x) : Procs loc t := by
  refine ⟨?_, ?_, ?_, ?_, fun p => ?_, fun p => ?_, fun p y => ?_, fun p y => ?_, fun p y k => ?_,
    fun p y k hy => ?_⟩
  · rw [hheld]; exact h.heldNodup
  · rw [hheld]; exact h.held
  · rw [hio]; exact h.ioNodup
  · rw [hio, hbuf]; exact h.io
  · rw [(hpc p).1]; exact h.freshNodup p
  · rw [(hpc p).1, hheld, hio, hbuf]; exact h.fresh p
  · rw [(hpc p).1, (hpc p).2.1, hheld]; exact h.awaits p y
  · rw [(hpc p).2.1, hheld, hio]; exact h.idle p y
  · rw [(hpc p).2.2.1, hheld, hbuf]; exact h.reads p y k
  · rw [hbuf]; exact h.sleeps p y k ((hpc p).2.2.2 _ hy)

/-! ## The primitives -/

/-- A buffer that nobody has, or a driver, is no process's. -/
theorem Procs.not_held (h : Procs loc s) (hloc : loc b = .free ∨ loc b = .driver) (p : ℕ) :
    b ∉ s.held p := fun hb => by simp [h.held p b hb] at hloc

/-- No driver works on what a process has and does not wait for. -/
theorem Procs.not_io (h : Procs loc s) (hb : b ∈ s.held p) (ha : (s.pc p).awaits ≠ some b) :
    b ∉ s.io := fun hio => ha (h.idle p b hb hio)

/-- Whoever has a buffer, it is on no free list. -/
theorem Bufs.not_mem_free (h : Bufs c loc s) (hloc : loc b ≠ .free) : b ∉ s.free :=
  fun hmem => hloc (h.free b hmem)

/-- A buffer passes from one to another. -/
theorem Bufs.pass (h : Bufs c loc s) (hloc : loc b ≠ .free) (hl : l ≠ .free)
    (hasync : (s.buf b).async = true → l = .driver) : Bufs c (update loc b l) s :=
  h.set (Function.update_eq_self b s.buf).symm rfl rfl (h.stale b) (fun _ => h.named b (.inl hloc))
    (iff_of_true ((h.busy b).mpr hloc) hl) hasync h.nodup fun y hy => by
    rwa [if_neg fun hyb : y = b => h.not_mem_free hloc (hyb ▸ hy)]

theorem Procs.not_io_of_done (h : Procs loc s) (hd : (s.buf b).done = true) : b ∉ s.io := by
  intro hio
  rw [(h.io b hio).2] at hd
  cases hd

theorem Procs.not_fresh_of_done (h : Procs loc s) (hd : (s.buf b).done = true) (p : ℕ) :
    b ∉ (s.pc p).fresh := by
  intro hp
  rw [(h.fresh p b hp).2.2] at hd
  cases hd

section

variable (h : Sound c disk loc s)

include h

/-- A process goes somewhere else. -/
theorem Sound.setPc {pc : BioPc} (hnodup : pc.fresh.Nodup)
    (hfresh : ∀ b ∈ pc.fresh, b ∈ s.held p ∧ b ∉ s.io ∧ (s.buf b).done = false)
    (hawaits : ∀ b, pc.awaits = some b → b ∈ s.held p ∧ b ∉ pc.fresh)
    (hidle : ∀ b ∈ s.held p, b ∈ s.io → pc.awaits = some b)
    (hreads : ∀ b k, pc.reads = some (b, k) → b ∈ s.held p ∧ (s.buf b).blk = some k)
    (hsleeps : ∀ b k, pc.sleeps = some (b, k) →
      loc b ≠ .free ∧ (s.buf b).wanted = true ∧ (s.buf b).blk = some k) :
    Sound c disk loc (s.setPc p pc) where
  bufs := h.bufs.congr rfl rfl rfl
  bytes := h.bytes.congr rfl rfl rfl rfl
  procs := by
    have hp := h.procs
    have hpc := fun P => forall_update_iff s.pc (a := p) (b := pc) P
    exact ⟨hp.heldNodup, hp.held, hp.ioNodup, hp.io,
      (hpc fun _ pc => pc.fresh.Nodup).mpr ⟨hnodup, fun q _ => hp.freshNodup q⟩,
      (hpc fun q pc => ∀ b ∈ pc.fresh, b ∈ s.held q ∧ b ∉ s.io ∧ (s.buf b).done = false).mpr
        ⟨hfresh, fun q _ => hp.fresh q⟩,
      (hpc fun q pc => ∀ b, pc.awaits = some b → b ∈ s.held q ∧ b ∉ pc.fresh).mpr
        ⟨hawaits, fun q _ => hp.awaits q⟩,
      (hpc fun q pc => ∀ b ∈ s.held q, b ∈ s.io → pc.awaits = some b).mpr
        ⟨hidle, fun q _ => hp.idle q⟩,
      (hpc fun q pc => ∀ b k, pc.reads = some (b, k) → b ∈ s.held q ∧ (s.buf b).blk = some k).mpr
        ⟨hreads, fun q _ => hp.reads q⟩,
      (hpc fun _ pc => ∀ b k, pc.sleeps = some (b, k) →
        loc b ≠ .free ∧ (s.buf b).wanted = true ∧ (s.buf b).blk = some k).mpr
        ⟨hsleeps, fun q _ => hp.sleeps q⟩⟩

omit h in
theorem wakeBuf_pc (s : Cache B) (b p : ℕ) :
    ((s.wakeBuf b).pc p).fresh = (s.pc p).fresh ∧ ((s.wakeBuf b).pc p).awaits = (s.pc p).awaits ∧
      ((s.wakeBuf b).pc p).reads = (s.pc p).reads ∧
      (∀ x, ((s.wakeBuf b).pc p).sleeps = some x → (s.pc p).sleeps = some x) ∧
      ∀ k, ((s.wakeBuf b).pc p).sleeps ≠ some (b, k) := by
  unfold wakeBuf
  dsimp only
  cases hpc : s.pc p with
  | sleepBuf b' k g =>
    dsimp only
    split_ifs with hb
    · exact ⟨rfl, rfl, rfl, fun x hx => (by cases hx), fun k hk => (by cases hk)⟩
    · refine ⟨rfl, rfl, rfl, fun x hx => hx, fun k hk => ?_⟩
      cases hk
      exact hb rfl
  | run | getblk | sleepFree | start | readWait | writeWait =>
    exact ⟨rfl, rfl, rfl, fun x hx => hx, fun k hk => by cases hk⟩

omit h in
theorem wakeFree_pc (s : Cache B) (p : ℕ) :
    ((s.wakeFree).pc p).fresh = (s.pc p).fresh ∧ ((s.wakeFree).pc p).awaits = (s.pc p).awaits ∧
      ((s.wakeFree).pc p).reads = (s.pc p).reads ∧
      ((s.wakeFree).pc p).sleeps = (s.pc p).sleeps := by
  unfold wakeFree
  dsimp only
  cases s.pc p <;> exact ⟨rfl, rfl, rfl, rfl⟩

theorem Sound.wakeBuf : Sound c disk loc (s.wakeBuf b) where
  bufs := h.bufs.congr rfl rfl rfl
  bytes := h.bytes.congr rfl rfl rfl rfl
  procs := h.procs.pcs rfl rfl rfl fun p => by
    obtain ⟨h1, h2, h3, h4, -⟩ := wakeBuf_pc s b p
    exact ⟨h1, h2, h3, h4⟩

theorem Sound.wakeFree (w : Bool) :
    Sound c disk loc { s.wakeFree with freeWanted := w } where
  bufs := h.bufs.congr rfl rfl rfl
  bytes := h.bytes.congr rfl rfl rfl rfl
  procs := h.procs.pcs rfl rfl rfl fun p => by
    obtain ⟨h1, h2, h3, h4⟩ := wakeFree_pc s p
    exact ⟨h1, h2, h3, fun x hx => by rw [← h4]; exact hx⟩

/-- `B_WANTED` and `B_ASYNC` change. -/
theorem Sound.flags {w a : Bool} (ha : a = true → loc b = .driver)
    (hw : ∀ p k, (s.pc p).sleeps = some (b, k) → w = true) :
    Sound c disk loc (s.setBuf b fun x => { x with wanted := w, async := a }) where
  bufs := h.bufs.keep rfl rfl rfl rfl (h.bufs.stale b) (h.bufs.named b) (h.bufs.busy b) ha
  procs := h.procs.set rfl rfl rfl rfl (.inl rfl)
    (fun hd => ⟨h.procs.not_io_of_done hd, h.procs.not_fresh_of_done hd⟩) hw
  bytes := h.bytes.set rfl rfl rfl (fun _ _ => Iff.rfl) rfl (h.bytes.done b) (h.bytes.delwri b)
    (h.bytes.writing b) (h.bytes.clean b)

theorem Sound.wanted (b : ℕ) :
    Sound c disk loc (s.setBuf b fun x => { x with wanted := true }) :=
  h.flags (h.bufs.async b) fun _ _ _ => rfl

/-- A buffer that is not busy is taken off the free list. -/
theorem Sound.notavail (hloc : loc b = .free)
    (hblk : (s.buf b).blk ≠ none) :
    Sound c disk (update loc b .driver) (s.notavail b) where
  bufs := by
    have hb := h.bufs
    refine hb.set rfl rfl rfl (hb.stale b) (fun _ => hblk) (by simp) (fun _ => rfl)
      (hb.nodup.erase b) fun y hy => ?_
    have hne : y ≠ b := by
      rintro rfl
      exact hb.nodup.not_mem_erase hy
    rw [if_neg hne]
    exact mem_of_mem_erase hy
  procs := by
    have hp : Procs loc (s.notavail b) := h.procs.set rfl rfl rfl rfl (.inl rfl)
      (fun hd => ⟨h.procs.not_io_of_done hd, h.procs.not_fresh_of_done hd⟩)
      fun p k hs => (h.procs.sleeps p b k hs).2.1
    exact hp.reloc (h.procs.not_held (.inl hloc)) (fun hl => by cases hl) fun hl => by cases hl
  bytes := h.bytes.set rfl rfl rfl (fun _ _ => Iff.rfl) rfl (h.bytes.done b) (h.bytes.delwri b)
    (h.bytes.writing b) (h.bytes.clean b)

/-- A buffer that no process has is given to one. -/
theorem Sound.give (hloc : loc b = .driver) (hio : b ∉ s.io)
    (hasync : (s.buf b).async = false) :
    Sound c disk (update loc b (.proc p)) (s.give p b) where
  bufs := (h.bufs.pass (by simp [hloc]) (by simp) (by simp [hasync])).congr rfl rfl rfl
  procs := by
    have hp := h.procs
    have hnot : ∀ q, b ∉ s.held q := hp.not_held (.inr hloc)
    have hr := hp.reloc (l := .proc p) hnot (fun hl => by cases hl) (fun hl => by cases hl)
    have hmem : ∀ q y, y ∈ (s.give p b).held q ↔ y ∈ s.held q ∨ (q = p ∧ y = b) := by
      intro q y
      unfold Cache.give
      dsimp only
      rw [update_apply]
      split_ifs with hq
      · rw [hq, mem_cons]
        simp [or_comm]
      · simp [hq]
    refine ⟨fun q => ?_, fun q y hy => ?_, hp.ioNodup, hr.io, hp.freshNodup, fun q y hy => ?_,
      fun q y hy => ?_, fun q y hy hyio => ?_, fun q y k hy => ?_, hr.sleeps⟩
    · unfold Cache.give
      dsimp only
      rw [update_apply]
      split_ifs with hq
      · exact nodup_cons.mpr ⟨hnot p, hp.heldNodup p⟩
      · exact hp.heldNodup q
    · rcases (hmem q y).mp hy with hy | ⟨rfl, rfl⟩
      · exact hr.held q y hy
      · exact update_self ..
    · obtain ⟨h1, h2⟩ := hp.fresh q y hy
      exact ⟨(hmem q y).mpr (.inl h1), h2⟩
    · obtain ⟨h1, h2⟩ := hp.awaits q y hy
      exact ⟨(hmem q y).mpr (.inl h1), h2⟩
    · rcases (hmem q y).mp hy with hy | ⟨rfl, rfl⟩
      · exact hp.idle q y hy hyio
      · exact absurd hyio hio
    · obtain ⟨h1, h2⟩ := hp.reads q y k hy
      exact ⟨(hmem q y).mpr (.inl h1), h2⟩
  bytes := h.bytes.congr rfl rfl rfl rfl

/-- A process gives a buffer up that it does not wait for. -/
theorem Sound.drop (hheld : b ∈ s.held p) (hfresh : b ∉ (s.pc p).fresh)
    (hawaits : (s.pc p).awaits ≠ some b) (hreads : ∀ k, (s.pc p).reads ≠ some (b, k)) :
    Sound c disk (update loc b .driver) (s.drop p b) where
  bufs := (h.bufs.pass (by simp [h.procs.held p b hheld]) (by simp) fun _ => rfl).congr rfl rfl rfl
  procs := by
    have hp := h.procs
    have hloc := hp.held p b hheld
    have hmem : ∀ q y, y ∈ (s.drop p b).held q ↔ y ∈ s.held q ∧ ¬ (q = p ∧ y = b) := by
      intro q y
      unfold Cache.drop
      dsimp only
      rw [update_apply]
      split_ifs with hq
      · rw [hq, (hp.heldNodup p).mem_erase_iff]
        simp [and_comm]
      · simp [hq]
    have hother : ∀ q, q ≠ p → b ∉ s.held q := fun q hq hmem => by
      have := hp.held q b hmem
      rw [hloc] at this
      cases this
      exact hq rfl
    refine ⟨fun q => ?_, fun q y hy => ?_, hp.ioNodup, fun y hy => ⟨?_, (hp.io y hy).2⟩,
      hp.freshNodup, fun q y hy => ?_, fun q y hy => ?_, fun q y hy hyio => ?_, fun q y k hy => ?_,
      fun q y k hy => ⟨?_, (hp.sleeps q y k hy).2⟩⟩
    · unfold Cache.drop
      dsimp only
      rw [update_apply]
      split_ifs with hq
      · exact (hp.heldNodup p).erase b
      · exact hp.heldNodup q
    · obtain ⟨h1, h2⟩ := (hmem q y).mp hy
      have hyb : y ≠ b := by
        rintro rfl
        by_cases hq : q = p
        · exact h2 ⟨hq, rfl⟩
        · exact hother q hq h1
      rw [update_of_ne hyb]
      exact hp.held q y h1
    · rw [update_apply]
      split_ifs with hyb
      · simp
      · exact (hp.io y hy).1
    · obtain ⟨h1, h2⟩ := hp.fresh q y hy
      refine ⟨(hmem q y).mpr ⟨h1, ?_⟩, h2⟩
      rintro ⟨rfl, rfl⟩
      exact hfresh hy
    · obtain ⟨h1, h2⟩ := hp.awaits q y hy
      refine ⟨(hmem q y).mpr ⟨h1, ?_⟩, h2⟩
      rintro ⟨rfl, rfl⟩
      exact hawaits hy
    · exact hp.idle q y ((hmem q y).mp hy).1 hyio
    · obtain ⟨h1, h2⟩ := hp.reads q y k hy
      refine ⟨(hmem q y).mpr ⟨h1, ?_⟩, h2⟩
      rintro ⟨rfl, rfl⟩
      exact hreads k hy
    · rw [update_apply]
      split_ifs with hyb
      · simp
      · exact (hp.sleeps q y k hy).1
  bytes := h.bytes.congr rfl rfl rfl rfl

omit h in
/-- A block that the buffer does not carry, or that another one does, is not its block. -/
theorem Bufs.other {k' : Blk} (h : Bufs c loc s) (hk : (s.buf b).blk = some k)
    (hk' : (s.buf b).blk ≠ some k' ∨ ∃ y, y ≠ b ∧ (s.buf y).blk = some k') : k' ≠ k := by
  rintro rfl
  rcases hk' with hne | ⟨y, hy, hyk⟩
  · exact hne hk
  · exact hy (h.unique y b k' hyk hk)

omit h in
/-- What `brelse` leaves alone. -/
theorem brelse_frame (s : Cache B) (b : ℕ) : (s.brelse b).held = s.held ∧
    (s.brelse b).io = s.io ∧ (s.brelse b).hash = s.hash ∧ (s.brelse b).disk = s.disk ∧
      (s.brelse b).trace = s.trace ∧ (s.brelse b).buf = update s.buf b { s.buf b with
        wanted := false, busy := false, async := false, age := false } := by
  unfold Cache.brelse
  dsimp only
  split
  · exact ⟨rfl, rfl, rfl, rfl, rfl, rfl⟩
  · by_cases hf : s.freeWanted = true
    · rw [if_pos hf]
      exact ⟨rfl, rfl, rfl, rfl, rfl, rfl⟩
    · rw [if_neg hf]
      exact ⟨rfl, rfl, rfl, rfl, rfl, rfl⟩

/-- A buffer that no process has and no driver works on is released. -/
theorem Sound.brelse (hloc : loc b = .driver) (hio : b ∉ s.io) :
    Sound c disk (update loc b .free) (s.brelse b) := by
  obtain ⟨u, hu, hbuf, huio, hnone, heq⟩ : ∃ u, Sound c disk loc u ∧ u.buf = s.buf ∧ u.io = s.io ∧
      (∀ p k, (u.pc p).sleeps ≠ some (b, k)) ∧ s.brelse b =
        { u.setBuf b fun x =>
            { x with wanted := false, busy := false, async := false, age := false } with
          free := if (u.buf b).age then b :: u.free else u.free ++ [b]
          bcount := u.bcount + 1 } := by
    by_cases hw : (s.buf b).wanted = true
    · refine ⟨s.wakeBuf b, h.wakeBuf, rfl, rfl, fun p => (wakeBuf_pc s b p).2.2.2.2, ?_⟩
      unfold Cache.brelse
      rw [if_pos hw]
    · have hnone : ∀ p k, (s.pc p).sleeps ≠ some (b, k) := fun p k hs =>
        hw (h.procs.sleeps p b k hs).2.1
      by_cases hf : s.freeWanted = true
      · refine ⟨_, h.wakeFree false, rfl, rfl, fun p k => ?_, ?_⟩
        · show ((s.wakeFree).pc p).sleeps ≠ _
          rw [(wakeFree_pc s p).2.2.2]
          exact hnone p k
        · unfold Cache.brelse
          rw [if_neg hw, if_pos hf]
      · refine ⟨s, h, rfl, rfl, hnone, ?_⟩
        unfold Cache.brelse
        rw [if_neg hw, if_neg hf]
  rw [heq]
  have hb := hu.bufs
  have hnot : b ∉ u.free := hb.not_mem_free (by rw [hloc]; simp)
  have hnot' : ∀ p, b ∉ u.held p := hu.procs.not_held (.inr hloc)
  refine ⟨?_, ?_, ?_⟩
  · refine hb.set rfl rfl rfl (hb.stale b) (fun hn => hb.named b (.inl (by rw [hloc]; simp)))
      (by simp) (fun ha => by cases ha) ?_ fun y hy => ?_
    · dsimp only
      split_ifs
      · exact nodup_cons.mpr ⟨hnot, hb.nodup⟩
      · refine nodup_append.mpr ⟨hb.nodup, nodup_singleton b, fun y hy y' hy' => ?_⟩
        rw [mem_singleton.mp hy']
        rintro rfl
        exact hnot hy
    · split_ifs with hyb
      · exact ⟨rfl, .inr (hb.named b (.inl (by rw [hloc]; simp)))⟩
      · dsimp only at hy
        split at hy
        · exact (mem_cons.mp hy).resolve_left hyb
        · exact (mem_append.mp hy).resolve_right fun hy => hyb (mem_singleton.mp hy)
  · have hset := hu.procs.set (t := { u.setBuf b fun x =>
          { x with wanted := false, busy := false, async := false, age := false } with
        free := if (u.buf b).age then b :: u.free else u.free ++ [b]
        bcount := u.bcount + 1 }) rfl rfl rfl rfl (.inl rfl)
      (fun hd => ⟨hu.procs.not_io_of_done hd, hu.procs.not_fresh_of_done hd⟩)
      fun p k hs => absurd hs (hnone p k)
    exact hset.reloc hnot' (fun _ => by rw [← huio] at hio; exact hio) fun _ => hnone
  · exact hu.bytes.set rfl rfl rfl (fun _ _ => Iff.rfl) rfl (hu.bytes.done b) (hu.bytes.delwri b)
      (hu.bytes.writing b) (hu.bytes.clean b)

omit h in
/-- A driver is given a buffer. -/
theorem Procs.strategy (h : Procs loc s) (hloc : loc b ≠ .free) (hio : b ∉ s.io)
    (hdone : (s.buf b).done = false) (hfresh : ∀ p, b ∉ (s.pc p).fresh)
    (hidle : ∀ p, b ∈ s.held p → (s.pc p).awaits = some b) : Procs loc (s.strategy b) := by
  have hmem : ∀ y, y ∈ (s.strategy b).io ↔ y ∈ s.io ∨ y = b := fun y => by
    show y ∈ s.io ++ [b] ↔ _
    rw [mem_append, mem_singleton]
  refine ⟨h.heldNodup, h.held, ?_, fun y hy => ?_, h.freshNodup, fun p y hy => ?_, h.awaits,
    fun p y hy hyio => ?_, h.reads, h.sleeps⟩
  · refine nodup_append.mpr ⟨h.ioNodup, nodup_singleton b, fun y hy y' hy' => ?_⟩
    rw [mem_singleton.mp hy']
    rintro rfl
    exact hio hy
  · rcases (hmem y).mp hy with hy | rfl
    · exact h.io y hy
    · exact ⟨hloc, hdone⟩
  · obtain ⟨h1, h2, h3⟩ := h.fresh p y hy
    refine ⟨h1, fun hy' => ?_, h3⟩
    rcases (hmem y).mp hy' with hy' | rfl
    · exact h2 hy'
    · exact hfresh p hy
  · rcases (hmem y).mp hyio with hyio | rfl
    · exact h.idle p y hy hyio
    · exact hidle p hy

/-- The block of the buffer is written: it is given to a driver. -/
theorem Sound.bwrite (hloc : loc b ≠ .free) (hdone : (s.buf b).done = true)
    (hidle : ∀ p, b ∈ s.held p → (s.pc p).awaits = some b) : Sound c disk loc (s.bwrite b) where
  bufs := h.bufs.keep rfl rfl rfl rfl (h.bufs.stale b) (fun _ => h.bufs.named b (.inl hloc))
    (h.bufs.busy b) (h.bufs.async b)
  procs := by
    have hio := h.procs.not_io_of_done hdone
    have hp := h.procs.set (b := b) (t := s.setBuf b fun x =>
      { x with read := false, done := false, delwri := false }) rfl rfl rfl rfl (.inl rfl)
      (fun hd => by cases hd) fun p k hs => (h.procs.sleeps p b k hs).2.1
    refine hp.strategy hloc hio ?_ (h.procs.not_fresh_of_done hdone) hidle
    show (update s.buf b _ b).done = false
    rw [update_self]
  bytes := h.bytes.set rfl rfl rfl
    (fun y hy => by
      show y ∈ s.io ++ [b] ↔ y ∈ s.io
      simp [hy]) rfl (fun k _ hd => by cases hd) (fun hd => by cases hd)
    (fun k hk _ _ => h.bytes.done b k hk hdone) fun k _ _ hr => by
      have := hr (mem_append_right _ (mem_singleton_self b))
      cases this

/-- The block of the buffer is read. -/
theorem Sound.startRead (hloc : loc b ≠ .free) (hio : b ∉ s.io)
    (hdone : (s.buf b).done = false) (hfresh : ∀ p, b ∉ (s.pc p).fresh)
    (hidle : ∀ p, b ∈ s.held p → (s.pc p).awaits = some b) {a : Bool}
    (ha : a = true → loc b = .driver) :
    Sound c disk loc ((s.setBuf b fun x => { x with read := true, async := a }).strategy b) where
  bufs := h.bufs.keep rfl rfl rfl rfl (h.bufs.stale b) (fun _ => h.bufs.named b (.inl hloc))
    (h.bufs.busy b) ha
  procs := by
    have hp := h.procs.set (b := b) (t := s.setBuf b fun x => { x with read := true, async := a })
      rfl rfl rfl rfl (.inl rfl) (fun hd => ⟨hio, hfresh⟩)
      fun p k hs => (h.procs.sleeps p b k hs).2.1
    refine hp.strategy hloc hio ?_ hfresh hidle
    show (update s.buf b _ b).done = false
    rw [update_self]
    exact hdone
  bytes := h.bytes.set rfl rfl rfl
    (fun y hy => by
      show y ∈ s.io ++ [b] ↔ y ∈ s.io
      simp [hy]) rfl (h.bytes.done b) (h.bytes.delwri b) (fun k _ _ hr => by cases hr)
    fun k hk hd _ => h.bytes.clean b k hk hd fun hmem => absurd hmem hio

/-- A free buffer without a delayed write is given a block that no buffer carries. -/
theorem Sound.assign (hmem : b ∈ s.free) (hloc : loc b = .free)
    (hdelwri : (s.buf b).delwri = false) (hfind : ∀ y, (s.buf y).blk ≠ some k) :
    Sound c disk (update loc b .driver) ((s.notavail b).assign c b k) := by
  have hbuf : ((s.notavail b).assign c b k).buf = update s.buf b
      { blk := some k, busy := true, done := false, read := false, delwri := false,
        async := false, wanted := false, stale := false, age := false,
        bytes := (s.buf b).bytes } := by
    have hbytes : ((s.notavail b).buf b).bytes = (s.buf b).bytes := by
      show (update s.buf b _ b).bytes = _
      rw [update_self]
    show update (update s.buf b _) b _ = _
    rw [update_idem]
    dsimp only
    rw [hbytes]
  have hself := congrFun hbuf b
  rw [update_self] at hself
  have hother : ∀ y, y ≠ b → ((s.notavail b).assign c b k).buf y = s.buf y := fun y hy => by
    rw [hbuf, update_of_ne hy]
  have hio : b ∉ s.io := fun hmem => (h.procs.io b hmem).1 hloc
  refine ⟨?_, ?_, ?_⟩
  · have hb := h.bufs
    refine ⟨fun y => ?_, fun y k' hy => ?_, fun y y' k' hy hy' => ?_, fun y => ?_, fun y => ?_,
      fun y => ?_, hb.nodup.erase b, fun y hy => ?_, fun y hy => ?_⟩
    · by_cases hyb : y = b
      · rw [hyb, hself]
      · rw [hother y hyb]
        exact hb.stale y
    · show y ∈ update (fun h => (s.hash h).erase b) (c.bhash k)
        (b :: (s.hash (c.bhash k)).erase b) (c.bhash k')
      by_cases hyb : y = b
      · rw [hyb, hself] at hy
        cases hy
        rw [hyb, update_self]
        exact mem_cons_self
      · rw [hother y hyb] at hy
        have hmem := (mem_erase_of_ne hyb).mpr (hb.hashed y k' hy)
        by_cases hk : c.bhash k' = c.bhash k
        · rw [hk] at hmem ⊢
          rw [update_self]
          exact mem_cons_of_mem _ hmem
        · rw [update_of_ne hk]
          exact hmem
    · by_cases hyb : y = b
      · by_cases hyb' : y' = b
        · rw [hyb, hyb']
        · rw [hyb, hself] at hy
          rw [hother y' hyb'] at hy'
          cases hy
          exact absurd hy' (hfind y')
      · rw [hother y hyb] at hy
        by_cases hyb' : y' = b
        · rw [hyb', hself] at hy'
          cases hy'
          exact absurd hy (hfind y)
        · rw [hother y' hyb'] at hy'
          exact hb.unique y y' k' hy hy'
    · by_cases hyb : y = b
      · rw [hyb, hself]
        exact fun _ => by simp
      · rw [hother y hyb, update_of_ne hyb]
        exact hb.named y
    · by_cases hyb : y = b
      · rw [hyb, hself, update_self]
        simp
      · rw [hother y hyb, update_of_ne hyb]
        exact hb.busy y
    · by_cases hyb : y = b
      · rw [hyb, hself]
        exact fun ha => by cases ha
      · rw [hother y hyb, update_of_ne hyb]
        exact hb.async y
    · have hyb : y ≠ b := by
        rintro rfl
        exact hb.nodup.not_mem_erase hy
      rw [update_of_ne hyb]
      exact hb.free y (mem_of_mem_erase hy)
    · by_cases hyb : y = b
      · rw [hyb]
        exact hb.range b (.inl hmem)
      · rw [hother y hyb] at hy
        exact hb.range y (hy.imp_left fun hy => mem_of_mem_erase hy)
  · have hp : Procs loc ((s.notavail b).assign c b k) := by
      exact h.procs.set hbuf rfl rfl rfl (.inr hloc) (fun hd => by cases hd)
        fun p k' hs => absurd hloc (h.procs.sleeps p b k' hs).1
    exact hp.reloc (h.procs.not_held (.inl hloc)) (fun hl => by cases hl) fun hl => by cases hl
  · have hb := h.bytes
    -- the disk has the bytes of the block that the buffer carried before
    refine hb.change hbuf (fun _ _ => Iff.rfl) (fun _ _ => ⟨rfl, rfl⟩)
      (fun k' _ hk' => hb.clean b k' hk' hdelwri fun hmem => absurd hmem hio) (fun _ _ hd => ?_)
      (fun hd => ?_) (fun _ _ hmem => absurd hmem hio) (fun k' hk' _ _ => ?_) hb.trace
    · cases hd
    · cases hd
    · cases hk'
      exact hb.absent k hfind

/-- A write releases other bytes. -/
theorem Sound.dirty (hloc : loc b ≠ .free) (hio : b ∉ s.io)
    (hfresh : ∀ p, b ∉ (s.pc p).fresh) (bytes : B) :
    Sound c disk loc ((s.store b bytes).setBuf b fun x =>
      { x with delwri := true, done := true }) := by
  obtain ⟨k, hk⟩ := Option.ne_none_iff_exists'.mp (h.bufs.named b (.inl hloc))
  have hbuf : ((s.store b bytes).setBuf b fun x => { x with delwri := true, done := true }).buf =
      update s.buf b { s.buf b with delwri := true, done := true, bytes := bytes } := by
    show update (update s.buf b _) b _ = _
    rw [update_idem]
    congr 1
    show (fun x : Buf B => { x with delwri := true, done := true })
      (update s.buf b _ b) = _
    rw [update_self]
  have htrace : ((s.store b bytes).setBuf b fun x =>
      { x with delwri := true, done := true }).trace = .write k bytes :: s.trace := by
    simp only [setBuf, store, hk]
  generalize hu : (s.store b bytes).setBuf b (fun x => { x with delwri := true, done := true }) = u
    at hbuf htrace ⊢
  have hhash : u.hash = s.hash := by rw [← hu]; rfl
  have hfree : u.free = s.free := by rw [← hu]; rfl
  have huio : u.io = s.io := by rw [← hu]; rfl
  have hdisk : u.disk = s.disk := by rw [← hu]; rfl
  refine ⟨?_, ?_, ?_⟩
  · exact h.bufs.keep hbuf hhash hfree rfl (h.bufs.stale b) (fun _ => h.bufs.named b (.inl hloc))
      (h.bufs.busy b) (h.bufs.async b)
  · exact h.procs.set hbuf huio (by rw [← hu]; rfl) (by rw [← hu]; rfl) (.inl rfl)
      (fun _ => ⟨hio, hfresh⟩) fun p k hs => (h.procs.sleeps p b k hs).2.1
  · refine h.bytes.change hbuf (fun _ _ => by rw [huio]) (fun k' hk' => ?_)
      (fun k' hne hk' => absurd hk' hne) (fun k' hk' _ => ?_) (fun _ => rfl)
      (fun _ _ hmem => absurd (huio ▸ hmem) hio) (fun _ _ hd => ?_) (by rw [htrace]; exact h.bytes.trace)
    · rw [hdisk, htrace, last, if_neg fun he => (h.bufs.other hk hk') he.symm]
      exact ⟨rfl, rfl⟩
    · obtain rfl : k = k' := Option.some.inj (hk.symm.trans hk')
      rw [htrace, last, if_pos rfl]
    · cases hd

/-- The transfer and `B_DONE`. -/
def transfer (s : Cache B) (b : ℕ) (k : Blk) : Cache B :=
  { s with
    buf := update s.buf b { s.buf b with
      done := true
      bytes := if (s.buf b).read then s.disk k else (s.buf b).bytes }
    disk := if (s.buf b).read then s.disk else update s.disk k (s.buf b).bytes
    io := s.io.erase b }

theorem Sound.transfer (hio : b ∈ s.io) (hk : (s.buf b).blk = some k) :
    Sound c disk loc (s.transfer b k) := by
  have hloc := (h.procs.io b hio).1
  have hdelwri : (s.buf b).delwri = false := by
    by_contra hd
    have := h.bytes.delwri b (Bool.of_not_eq_false hd)
    rw [(h.procs.io b hio).2] at this
    cases this
  have hself : (s.transfer b k).buf b = { s.buf b with
      done := true
      bytes := if (s.buf b).read then s.disk k else (s.buf b).bytes } := update_self ..
  have hother : ∀ y, y ≠ b → (s.transfer b k).buf y = s.buf y := fun y hy =>
    update_of_ne hy ..
  have hmem : ∀ y, y ∈ (s.transfer b k).io ↔ y ≠ b ∧ y ∈ s.io := fun y =>
    h.procs.ioNodup.mem_erase_iff
  have hdisk : ∀ k', k' ≠ k → (s.transfer b k).disk k' = s.disk k' := fun k' hk' => by
    unfold Cache.transfer
    dsimp only
    split_ifs
    · rfl
    · rw [update_of_ne hk']
  refine ⟨h.bufs.keep rfl rfl rfl rfl (h.bufs.stale b) (fun _ => h.bufs.named b (.inl hloc))
    (h.bufs.busy b) (h.bufs.async b), ?_, ?_⟩
  · have hp := h.procs
    have hblk : ∀ y, ((s.transfer b k).buf y).blk = (s.buf y).blk := fun y => by
      by_cases hyb : y = b
      · rw [hyb, hself]
      · rw [hother y hyb]
    refine ⟨hp.heldNodup, hp.held, hp.ioNodup.erase b, fun y hy => ?_, hp.freshNodup,
      fun p y hy => ?_, hp.awaits, fun p y hy hyio => hp.idle p y hy ((hmem y).mp hyio).2,
      fun p y k' hy => ?_, fun p y k' hy => ?_⟩
    · obtain ⟨hyb, hy⟩ := (hmem y).mp hy
      rw [hother y hyb]
      exact hp.io y hy
    · obtain ⟨h1, h2, h3⟩ := hp.fresh p y hy
      have hyb : y ≠ b := by
        rintro rfl
        exact h2 hio
      rw [hother y hyb]
      exact ⟨h1, fun hy => h2 ((hmem y).mp hy).2, h3⟩
    · rw [hblk]
      exact hp.reads p y k' hy
    · obtain ⟨h1, h2, h3⟩ := hp.sleeps p y k' hy
      refine ⟨h1, ?_, by rw [hblk]; exact h3⟩
      by_cases hyb : y = b
      · rw [hyb] at h2
        rw [hyb, hself]
        exact h2
      · rw [hother y hyb]
        exact h2
  · have hb := h.bytes
    -- what the buffer and the disk have after the transfer
    have hbytes : (if (s.buf b).read = true then s.disk k else (s.buf b).bytes) =
        last disk s.trace k := by
      split_ifs with hr
      · exact hb.clean b k hk hdelwri fun _ => hr
      · exact hb.writing b k hk hio (Bool.of_not_eq_true hr)
    have hclean : (s.transfer b k).disk k = last disk s.trace k := by
      unfold Cache.transfer
      dsimp only
      split_ifs with hr
      · exact hb.clean b k hk hdelwri fun _ => hr
      · rw [update_self]
        exact hb.writing b k hk hio (Bool.of_not_eq_true hr)
    refine hb.change rfl (fun y hy => (hmem y).trans (and_iff_right hy))
      (fun k' hk' => ⟨hdisk k' (h.bufs.other hk hk'), rfl⟩) (fun k' hne hk' => absurd hk' hne)
      (fun k' hk' _ => ?_) (fun _ => rfl) (fun _ _ hmem' => absurd rfl ((hmem b).mp hmem').1)
      (fun k' hk' _ _ => ?_) hb.trace
    · obtain rfl : k = k' := Option.some.inj (hk.symm.trans hk')
      exact hbytes
    · obtain rfl : k = k' := Option.some.inj (hk.symm.trans hk')
      exact hclean

/-- Nobody sleeps on a buffer after the wakeup. -/
theorem Sound.unwanted (b : ℕ) :
    Sound c disk loc ((s.wakeBuf b).setBuf b fun x => { x with wanted := false }) :=
  h.wakeBuf.flags (h.bufs.async b) fun p k hs => absurd hs ((wakeBuf_pc s b p).2.2.2.2 k)

omit h in
theorem iodone_eq (s : Cache B) (hk : (s.buf b).blk = some k) : s.iodone b =
    if (s.buf b).async then (s.transfer b k).brelse b
    else ((s.transfer b k).wakeBuf b).setBuf b fun x => { x with wanted := false } := by
  by_cases hr : (s.buf b).read = true
  · simp [Cache.iodone, Cache.transfer, Cache.setBuf, hk, hr]
  · simp [Cache.iodone, Cache.transfer, Cache.setBuf, hk, hr]

/-! ## The routines -/

/-- A process that has only idle buffers goes out of the cache. -/
theorem Sound.run (hidle : ∀ b ∈ s.held p, b ∉ s.io) :
    Sound c disk loc (s.setPc p .run) :=
  h.setPc nodup_nil (fun _ hb => by cases hb) (fun _ hb => by cases hb)
    (fun b hb hio => absurd hio (hidle b hb)) (fun _ _ hb => by cases hb) fun _ _ hb => by cases hb

theorem Sound.readDone (hidle : ∀ b ∈ s.held p, b ∉ s.io)
    (hk : (s.buf b).blk = some k) (hdone : (s.buf b).done = true) :
    Sound c disk loc (s.readDone p b k) := by
  have hrun := h.run hidle
  refine ⟨hrun.bufs.congr rfl rfl rfl, ?_, ?_⟩
  · exact hrun.procs.pcs rfl rfl rfl fun _ => ⟨rfl, rfl, rfl, fun _ hx => hx⟩
  · have hb := hrun.bytes
    exact ⟨hb.done, hb.delwri, hb.writing, hb.clean, hb.absent, hb.done b k hk hdone, hb.trace⟩

/-- The buffers that `breada` has collected. -/
structure Collected (s : Cache B) (p sbp : ℕ) (k : Blk) (bps : List ℕ) : Prop where
  nodup : (sbp :: bps).Nodup
  fresh : ∀ b ∈ sbp :: bps, b ∈ s.held p ∧ b ∉ s.io ∧ (s.buf b).done = false
  blk : (s.buf sbp).blk = some k
  idle : ∀ b ∈ s.held p, b ∉ s.io

omit h in
theorem setPc_pc (s : Cache B) (p : ℕ) (pc : BioPc) : (s.setPc p pc).pc p = pc :=
  update_self ..

theorem Sound.awaited {q : ℕ} (hb : b ∈ s.held p) (hq : b ∈ s.held q)
    {o : Option ℕ} (ho : (s.pc p).awaits = o) : (s.pc q).awaits = o := by
  have h1 := h.procs.held p b hb
  have h2 := h.procs.held q b hq
  rw [h1] at h2
  cases h2
  exact ho

/-- A buffer of a process that is not fresh there is fresh nowhere. -/
theorem Sound.not_fresh (hb : b ∈ s.held p)
    (hfresh : b ∉ (s.pc p).fresh) (q : ℕ) : b ∉ (s.pc q).fresh := by
  intro hq
  have h1 := h.procs.held p b hb
  have h2 := h.procs.held q b (h.procs.fresh q b hq).1
  rw [h1] at h2
  cases h2
  exact hfresh hq

theorem Sound.startReads {sbp : ℕ} {bps : List ℕ}
    (hc : Collected s p sbp k bps) : Sound c disk loc (s.startReads p sbp k bps) := by
  obtain ⟨hheld, hio, hdone⟩ := hc.fresh sbp mem_cons_self
  obtain ⟨hnot, hnodup⟩ := nodup_cons.mp hc.nodup
  have hloc : loc sbp ≠ .free := by rw [h.procs.held p sbp hheld]; simp
  have hpc : Sound c disk loc (s.setPc p (.start sbp k bps)) := by
    refine h.setPc hnodup (fun b hb => hc.fresh b (mem_cons_of_mem _ hb)) (fun b hb => ?_)
      (fun b hb hio => absurd hio (hc.idle b hb)) (fun b k' hb => ?_) fun _ _ hb => by cases hb
    · cases hb
      exact ⟨hheld, hnot⟩
    · cases hb
      exact ⟨hheld, hc.blk⟩
  have hself := setPc_pc s p (.start sbp k bps)
  refine hpc.startRead hloc hio hdone (hpc.not_fresh hheld ?_) (fun q hq => ?_) fun ha => by cases ha
  · rw [hself]
    exact hnot
  · exact hpc.awaited hheld hq (by rw [hself]; rfl)

theorem Sound.collect {sbp : ℕ} {bps : List ℕ}
    (hc : Collected s p sbp k bps) (rablkno left : ℕ) :
    Sound c disk loc (s.collect c p sbp k bps rablkno left) := by
  cases left with
  | zero => exact h.startReads hc
  | succ left =>
    refine h.setPc hc.nodup hc.fresh (fun _ hb => by cases hb)
      (fun b hb hio => absurd hio (hc.idle b hb)) (fun b k' hb => ?_) fun _ _ hb => by cases hb
    cases hb
    exact ⟨(hc.fresh sbp mem_cons_self).1, hc.blk⟩

/-- `getblk` returns to the one who called it. -/
theorem Sound.got {g : Getter} (hpc : s.pc p = .getblk k g)
    (hheld : b ∈ s.held p) (hio : b ∉ s.io) (hk : (s.buf b).blk = some k)
    (hfresh : b ∉ g.fresh) (hasync : (s.buf b).async = false) :
    ∃ loc', Sound c disk loc' (s.got c p b k g) := by
  have hidle : ∀ b ∈ s.held p, b ∉ s.io := fun y hy =>
    h.procs.not_io hy (by simp [hpc, BioPc.awaits])
  have hone : (s.buf b).done = false → Collected s p b k [] := fun hd =>
    ⟨nodup_singleton b, fun y hy => by
      rw [mem_singleton.mp hy]
      exact ⟨hheld, hio, hd⟩, hk, hidle⟩
  cases g with
  | getblk => exact ⟨loc, h.run hidle⟩
  | bread =>
    unfold Cache.got
    dsimp only
    by_cases hd : (s.buf b).done = true
    · rw [if_pos hd]
      exact ⟨loc, h.readDone hidle hk hd⟩
    · rw [if_neg hd]
      have hd := Bool.of_not_eq_true hd
      have hpc' : Sound c disk loc (s.setPc p (.readWait b k)) := by
        refine h.setPc nodup_nil (fun _ hy => by cases hy) (fun y hy => ?_)
          (fun y hy hyio => absurd hyio (hidle y hy)) (fun y k' hy => ?_) fun _ _ hy => by cases hy
        · cases hy
          exact ⟨hheld, by simp [BioPc.fresh]⟩
        · cases hy
          exact ⟨hheld, hk⟩
      have hself := setPc_pc s p (.readWait b k)
      have hloc : loc b ≠ .free := by rw [h.procs.held p b hheld]; simp
      refine ⟨loc, hpc'.startRead hloc hio hd (hpc'.not_fresh hheld ?_) (fun q hq => ?_)
        fun ha => ?_⟩
      · rw [hself]
        simp [BioPc.fresh]
      · exact hpc'.awaited hheld hq (by rw [hself]; rfl)
      · rw [show (s.setPc p (.readWait b k)).buf b = s.buf b from rfl, hasync] at ha
        cases ha
  | breada rablkno blkno =>
    unfold Cache.got
    dsimp only
    by_cases hd : (s.buf b).done = true
    · rw [if_pos hd]
      exact ⟨loc, h.readDone hidle hk hd⟩
    · rw [if_neg hd]
      have hc := hone (Bool.of_not_eq_true hd)
      by_cases hcount : rablkno.testBit 31 = true
      · rw [if_pos hcount]
        exact ⟨loc, h.collect hc _ _⟩
      · rw [if_neg hcount]
        exact ⟨loc, h.collect hc _ _⟩
  | ahead sbp k' bps rablkno left =>
    have hp := h.procs
    have hbps : ∀ y ∈ sbp :: bps, y ∈ s.held p ∧ y ∉ s.io ∧ (s.buf y).done = false := fun y hy =>
      hp.fresh p y (by rw [hpc]; exact hy)
    have hnodup : (sbp :: bps).Nodup := by
      have := hp.freshNodup p
      rwa [hpc] at this
    have hreads : (s.buf sbp).blk = some k' := (hp.reads p sbp k' (by rw [hpc]; rfl)).2
    have hb : b ∉ sbp :: bps := hfresh
    unfold Cache.got
    dsimp only
    split_ifs with hd
    · -- the block is in core: the buffer is put back
      have hdrop := h.drop hheld (by rw [hpc]; exact hb) (by rw [hpc]; simp [BioPc.awaits])
        fun k'' => by
          rw [hpc]
          intro hr
          cases hr
          exact hb mem_cons_self
      have hrel := hdrop.brelse (update_self ..) hio
      obtain ⟨hheld', hio', -, -, -, hbuf'⟩ := brelse_frame (s.drop p b) b
      have hmem : ∀ y, y ∈ ((s.drop p b).brelse b).held p ↔ y ≠ b ∧ y ∈ s.held p := fun y => by
        rw [hheld']
        show y ∈ update s.held p ((s.held p).erase b) p ↔ _
        rw [update_self]
        exact (hp.heldNodup p).mem_erase_iff
      have hother : ∀ y ∈ sbp :: bps, y ≠ b ∧ ((s.drop p b).brelse b).buf y = s.buf y :=
        fun y hy => by
          have hyb : y ≠ b := by
            rintro rfl
            exact hb hy
          rw [hbuf', update_of_ne hyb]
          exact ⟨hyb, rfl⟩
      refine ⟨_, hrel.collect ⟨hnodup, fun y hy => ?_, ?_, fun y hy => ?_⟩ _ _⟩
      · obtain ⟨hyb, heq⟩ := hother y hy
        obtain ⟨h1, h2, h3⟩ := hbps y hy
        refine ⟨(hmem y).mpr ⟨hyb, h1⟩, by rw [hio']; exact h2, by rw [heq]; exact h3⟩
      · rw [(hother sbp mem_cons_self).2]
        exact hreads
      · rw [hio']
        exact hidle y ((hmem y).mp hy).2
    · refine ⟨loc, h.collect ⟨?_, fun y hy => ?_, hreads, hidle⟩ _ _⟩
      · rw [← cons_append]
        refine nodup_append.mpr ⟨hnodup, nodup_singleton b, fun y hy y' hy' => ?_⟩
        rw [mem_singleton.mp hy']
        rintro rfl
        exact hb hy
      · rw [← cons_append] at hy
        rcases mem_append.mp hy with hy | hy
        · exact hbps y hy
        · rw [mem_singleton.mp hy]
          exact ⟨hheld, hio, Bool.of_not_eq_true hd⟩

omit h in
theorem find_some (h : s.find c k = some b) : (s.buf b).blk = some k := by
  have := List.find?_some h
  exact (of_decide_eq_true this).1

omit h in
theorem Bufs.find_none (hb : Bufs c loc s) (h : s.find c k = none) (y : ℕ) :
    (s.buf y).blk ≠ some k := by
  intro hy
  have := List.find?_eq_none.mp h y (hb.hashed y k hy)
  exact this (decide_eq_true ⟨hy, hb.stale y⟩)

/-- `B_ASYNC` is set on a buffer that no process has. -/
theorem Sound.setAsync (hloc : loc b = .driver) :
    Sound c disk loc (s.setBuf b fun x => { x with async := true }) :=
  h.flags (fun _ => hloc) fun p k hs => (h.procs.sleeps p b k hs).2.1

/-- A process in `getblk` goes to sleep. -/
theorem Sound.sleep {g : Getter} (hpc : s.pc p = .getblk k g) {pc : BioPc}
    (hfresh : pc.fresh = g.fresh) (hawaits : pc.awaits = none) (hreads : pc.reads = g.reads)
    (hsleeps : ∀ b k, pc.sleeps = some (b, k) →
      loc b ≠ .free ∧ (s.buf b).wanted = true ∧ (s.buf b).blk = some k) :
    Sound c disk loc (s.setPc p pc) := by
  have hp := h.procs
  refine h.setPc ?_ (fun b hb => ?_) (fun b hb => ?_) (fun b hb hio => ?_) (fun b k hb => ?_) hsleeps
  · have := hp.freshNodup p
    rw [hpc] at this
    rw [hfresh]
    exact this
  · rw [hfresh] at hb
    exact hp.fresh p b (by rw [hpc]; exact hb)
  · rw [hawaits] at hb
    cases hb
  · have := hp.idle p b hb hio
    rw [hpc] at this
    cases this
  · rw [hreads] at hb
    exact hp.reads p b k (by rw [hpc]; exact hb)

/-- `getblk` from `loop` on. -/
theorem Sound.getblk {g : Getter} (hpc : s.pc p = .getblk k g) :
    ∃ loc', Sound c disk loc' (s.getblk c p k g) := by
  have hfreeBuf : ∀ b, loc b = .free → b ∉ s.io ∧ b ∉ g.fresh ∧ (s.buf b).async = false := by
    intro b hloc
    refine ⟨fun hio => (h.procs.io b hio).1 hloc, fun hb => ?_, ?_⟩
    · exact h.procs.not_held (.inl hloc) p (h.procs.fresh p b (by rw [hpc]; exact hb)).1
    · by_contra ha
      have := h.bufs.async b (Bool.of_not_eq_false ha)
      rw [hloc] at this
      cases this
  unfold Cache.getblk
  cases hf : s.find c k with
  | some b =>
    have hk := find_some hf
    dsimp only
    split_ifs with hbusy
    · have hw := h.wanted b
      have hself : (s.setBuf b fun x => { x with wanted := true }).buf b =
          { s.buf b with wanted := true } := update_self ..
      refine ⟨loc, hw.sleep (g := g) hpc rfl rfl rfl fun b' k' hs => ?_⟩
      cases hs
      exact ⟨(h.bufs.busy b).mp hbusy, by rw [hself], by rw [hself]; exact hk⟩
    · have hloc : loc b = .free := by
        by_contra hne
        exact hbusy ((h.bufs.busy b).mpr hne)
      obtain ⟨hio, hfresh, hasync⟩ := hfreeBuf b hloc
      have hself : (s.notavail b).buf b = { s.buf b with busy := true } := update_self ..
      have htake := h.notavail hloc (by rw [hk]; simp)
      have hgive := htake.give (p := p) (update_self ..) hio (by rw [hself]; exact hasync)
      refine hgive.got hpc ?_ hio (by
        show ((s.notavail b).buf b).blk = some k
        rw [hself]
        exact hk) hfresh (by
        show ((s.notavail b).buf b).async = false
        rw [hself]
        exact hasync)
      show b ∈ update s.held p (b :: s.held p) p
      rw [update_self]
      exact mem_cons_self
  | none =>
    have hnone := h.bufs.find_none hf
    dsimp only
    cases hfree : s.free with
    | nil =>
      dsimp only
      have hsleep : Sound c disk loc (s.setPc p (.sleepFree k g)) :=
        h.sleep hpc rfl rfl rfl fun _ _ hs => by cases hs
      exact ⟨loc, hsleep.bufs.congr rfl rfl rfl,
        hsleep.procs.pcs rfl rfl rfl fun _ => ⟨rfl, rfl, rfl, fun _ hx => hx⟩,
        hsleep.bytes.congr rfl rfl rfl rfl⟩
    | cons b rest =>
      dsimp only
      have hloc : loc b = .free := h.bufs.free b (by rw [hfree]; exact mem_cons_self)
      obtain ⟨hio, hfresh, hasync⟩ := hfreeBuf b hloc
      split_ifs with hd
      · -- the delayed write is started
        have htake := h.notavail hloc (h.bufs.named b (.inr hd))
        have hdriver : update loc b .driver b = .driver := update_self ..
        have hset := htake.setAsync hdriver
        refine ⟨_, hset.bwrite (by rw [hdriver]; simp) ?_ fun q hq =>
          absurd hq (htake.procs.not_held (.inr hdriver) q)⟩
        show (update (update s.buf b _) b _ b).done = true
        rw [update_self]
        show (update s.buf b _ b).done = true
        rw [update_self]
        exact h.bytes.delwri b hd
      · have hassign := h.assign (by rw [hfree]; exact mem_cons_self) hloc
          (Bool.of_not_eq_true hd) hnone
        have hself : ((s.notavail b).assign c b k).buf b =
            { blk := some k, busy := true, done := false, read := false, delwri := false,
              async := false, wanted := false, stale := false, age := false,
              bytes := ((s.notavail b).buf b).bytes } := update_self ..
        have hgive := hassign.give (p := p) (update_self ..) hio (by rw [hself])
        refine hgive.got hpc ?_ hio (by
          show (((s.notavail b).assign c b k).buf b).blk = some k
          rw [hself]) hfresh (by
          show (((s.notavail b).assign c b k).buf b).async = false
          rw [hself])
        show b ∈ update s.held p (b :: s.held p) p
        rw [update_self]
        exact mem_cons_self

/-- A process goes on. -/
theorem Sound.go (ht : s.go c p = some t) :
    ∃ loc', Sound c disk loc' t := by
  have hp := h.procs
  unfold Cache.go at ht
  cases hpc : s.pc p with
  | run | sleepBuf | sleepFree =>
    rw [hpc] at ht
    cases ht
  | getblk k g =>
    rw [hpc] at ht
    cases ht
    exact h.getblk hpc
  | start sbp k bps =>
    rw [hpc] at ht
    have hreads : sbp ∈ s.held p ∧ (s.buf sbp).blk = some k := hp.reads p sbp k (by rw [hpc]; rfl)
    have hidle : ∀ b ∈ s.held p, b ∈ s.io → some sbp = some b := fun b hb hio => by
      have := hp.idle p b hb hio
      rwa [hpc] at this
    have hnot : sbp ∉ bps := by
      have := (hp.awaits p sbp (by rw [hpc]; rfl)).2
      rwa [hpc] at this
    have hnodup : bps.Nodup := by
      have := hp.freshNodup p
      rwa [hpc] at this
    have hfresh : ∀ b ∈ bps, b ∈ s.held p ∧ b ∉ s.io ∧ (s.buf b).done = false := fun b hb =>
      hp.fresh p b (by rw [hpc]; exact hb)
    cases bps with
    | nil =>
      cases ht
      refine ⟨loc, h.setPc nodup_nil (fun _ hb => by cases hb) (fun b hb => ?_) hidle
        (fun b k' hb => ?_) fun _ _ hb => by cases hb⟩
      · cases hb
        exact ⟨hreads.1, by simp [BioPc.fresh]⟩
      · cases hb
        exact hreads
    | cons b bps =>
      cases ht
      obtain ⟨hb, hnodup⟩ := nodup_cons.mp hnodup
      rw [mem_cons, not_or] at hnot
      obtain ⟨hheld, hio, hdone⟩ := hfresh b mem_cons_self
      have hself := setPc_pc s p (.start sbp k bps)
      have hset : Sound c disk loc (s.setPc p (.start sbp k bps)) := by
        refine h.setPc hnodup (fun y hy => hfresh y (mem_cons_of_mem _ hy)) (fun y hy => ?_)
          hidle (fun y k' hy => ?_) fun _ _ hy => by cases hy
        · cases hy
          exact ⟨hreads.1, hnot.2⟩
        · cases hy
          exact hreads
      have hdrop := hset.drop hheld (by rw [hself]; exact hb)
        (by rw [hself]; exact fun hy => hnot.1 (Option.some.inj hy))
        fun k' hy => by
          rw [hself] at hy
          exact hnot.1 (Prod.mk.inj (Option.some.inj hy)).1
      have hdriver : update loc b .driver b = .driver := update_self ..
      have hnone : ∀ q, b ∉ ((s.setPc p (.start sbp k bps)).drop p b).held q :=
        hdrop.procs.not_held (.inr hdriver)
      exact ⟨_, hdrop.startRead (by rw [hdriver]; simp) hio hdone
        (fun q hq => hnone q (hdrop.procs.fresh q b hq).1) (fun q hq => absurd hq (hnone q))
        fun _ => hdriver⟩
  | readWait b k =>
    rw [hpc] at ht
    dsimp only at ht
    obtain ⟨hd, ht⟩ := ite_none_right_eq_some.mp ht
    cases ht
    refine ⟨loc, h.readDone (fun y hy hyio => ?_) (hp.reads p b k (by rw [hpc]; rfl)).2 hd⟩
    have := hp.idle p y hy hyio
    rw [hpc] at this
    cases this
    exact hp.not_io_of_done hd hyio
  | writeWait b =>
    rw [hpc] at ht
    dsimp only at ht
    obtain ⟨hd, ht⟩ := ite_none_right_eq_some.mp ht
    cases ht
    have hrun : Sound c disk loc (s.setPc p .run) := h.run fun y hy hyio => by
      have := hp.idle p y hy hyio
      rw [hpc] at this
      cases this
      exact hp.not_io_of_done hd hyio
    have hself := setPc_pc s p .run
    have hdrop := hrun.drop (hp.awaits p b (by rw [hpc]; rfl)).1 (by rw [hself]; simp [BioPc.fresh])
      (by rw [hself]; simp [BioPc.awaits]) fun k' => by rw [hself]; simp [BioPc.reads]
    exact ⟨_, hdrop.brelse (update_self ..) (hp.not_io_of_done hd)⟩

omit h in
theorem bwrite_dirty (s : Cache B) (b : ℕ) :
    (s.setBuf b fun x => { x with delwri := true, done := true }).bwrite b = s.bwrite b := by
  simp [Cache.bwrite, Cache.setBuf]

omit h in
theorem bwrite_dirty_async (s : Cache B) (b : ℕ) :
    ((s.setBuf b fun x => { x with delwri := true, done := true }).setBuf b
        fun x => { x with async := true }).bwrite b =
      (s.setBuf b fun x => { x with async := true }).bwrite b := by
  simp [Cache.bwrite, Cache.setBuf]

/-- A buffer that a process has that is in no routine. -/
theorem Sound.own (hpc : s.pc p = .run) (hb : b ∈ s.held p) :
    b ∉ s.io ∧ loc b ≠ .free ∧ (∀ q, b ∉ (s.pc q).fresh) ∧ b ∉ (s.pc p).fresh ∧
      (s.pc p).awaits ≠ some b ∧ ∀ k, (s.pc p).reads ≠ some (b, k) := by
  have hnot : b ∉ (s.pc p).fresh := by rw [hpc]; simp [BioPc.fresh]
  have ha : (s.pc p).awaits ≠ some b := by rw [hpc]; simp [BioPc.awaits]
  exact ⟨h.procs.not_io hb ha, by rw [h.procs.held p b hb]; simp, h.not_fresh hb hnot, hnot, ha,
    fun k => by rw [hpc]; simp [BioPc.reads]⟩

/-- A process writes a buffer that it has, and waits. -/
theorem Sound.writeSync (hpc : s.pc p = .run) (hb : b ∈ s.held p)
    (bytes : B) :
    Sound c disk loc (((s.store b bytes).setPc p (.writeWait b)).bwrite b) := by
  obtain ⟨hio, hloc, hfresh, -, -, -⟩ := h.own hpc hb
  have hdirty := h.dirty hloc hio hfresh bytes
  have hset : Sound c disk loc (((s.store b bytes).setBuf b fun x =>
      { x with delwri := true, done := true }).setPc p (.writeWait b)) := by
    refine hdirty.setPc nodup_nil (fun _ hy => by cases hy) (fun y hy => ?_)
      (fun y hy hyio => absurd hyio (h.own hpc hy).1) (fun _ _ hy => by cases hy)
      fun _ _ hy => by cases hy
    cases hy
    exact ⟨hb, by simp [BioPc.fresh]⟩
  rw [← bwrite_dirty]
  refine hset.bwrite hloc ?_ fun q hq => hset.awaited hb hq (by rw [setPc_pc]; rfl)
  show (update (s.store b bytes).buf b _ b).done = true
  rw [update_self]

/-- A process writes a buffer that it has, and does not wait. -/
theorem Sound.writeAsync (hpc : s.pc p = .run) (hb : b ∈ s.held p)
    (bytes : B) : ∃ loc', Sound c disk loc' ((((s.store b bytes).setBuf b fun x =>
      { x with async := true }).drop p b).bwrite b) := by
  obtain ⟨hio, hloc, hfresh, hf, ha, hr⟩ := h.own hpc hb
  have hdrop := (h.dirty hloc hio hfresh bytes).drop hb hf ha hr
  have hdriver : update loc b .driver b = .driver := update_self ..
  have hset := hdrop.setAsync hdriver
  refine ⟨update loc b .driver, ?_⟩
  show Sound c disk _ ((((s.store b bytes).drop p b).setBuf b fun x =>
    { x with async := true }).bwrite b)
  rw [← bwrite_dirty_async]
  refine hset.bwrite (by rw [hdriver]; simp) ?_ fun q hq =>
    absurd hq (hdrop.procs.not_held (.inr hdriver) q)
  show (update (update (s.store b bytes).buf b _) b _ b).done = true
  rw [update_self]
  show (update (s.store b bytes).buf b _ b).done = true
  rw [update_self]

/-- **One step keeps the invariant.** -/
theorem Sound.step {e : BioEvent B} (ht : s.step c e = some t) :
    ∃ loc', Sound c disk loc' t := by
  have hp := h.procs
  have hcall : ∀ p k g, s.pc p = .run → g.fresh = [] → g.reads = none →
      Sound c disk loc (s.setPc p (.getblk k g)) := fun p k g hpc hfresh hreads => by
    refine h.setPc (by rw [BioPc.fresh, hfresh]; exact nodup_nil) (fun b hb => ?_)
      (fun _ hb => by cases hb) (fun b hb hio => absurd hio (h.own hpc hb).1) (fun b k hb => ?_)
      fun _ _ hb => by cases hb
    · rw [BioPc.fresh, hfresh] at hb
      cases hb
    · rw [BioPc.reads, hreads] at hb
      cases hb
  have hsync : ∀ p b bytes, s.pc p = .run → b ∈ s.held p →
      Sound c disk loc ((s.store b bytes).procWrite p b) := fun p b bytes hpc hb => by
    unfold Cache.procWrite
    have ha : ((s.store b bytes).buf b).async = false := by
      show (update s.buf b _ b).async = false
      rw [update_self]
      by_contra ha
      have := h.bufs.async b (Bool.of_not_eq_false ha)
      rw [hp.held p b hb] at this
      cases this
    rw [ha, if_neg Bool.false_ne_true]
    exact h.writeSync hpc hb bytes
  cases e with
  | getblk p dev blkno | bread p dev blkno | breada p dev blkno rablkno =>
    obtain ⟨hpc, ht⟩ := ite_none_right_eq_some.mp ht
    cases ht
    exact ⟨loc, hcall p _ _ hpc rfl rfl⟩
  | bwrite p b bytes =>
    obtain ⟨⟨hpc, hb⟩, ht⟩ := ite_none_right_eq_some.mp ht
    cases ht
    exact ⟨loc, hsync p b bytes hpc hb⟩
  | bdwrite p b bytes =>
    obtain ⟨⟨hpc, hb⟩, ht⟩ := ite_none_right_eq_some.mp ht
    cases ht
    obtain ⟨hio, hloc, hfresh, hf, ha, hr⟩ := h.own hpc hb
    exact ⟨_, ((h.dirty hloc hio hfresh bytes).drop hb hf ha hr).brelse (update_self ..) hio⟩
  | bawrite p b bytes =>
    obtain ⟨⟨hpc, hb⟩, ht⟩ := ite_none_right_eq_some.mp ht
    cases ht
    by_cases hcount : s.bcount > 4
    · have hfun : (fun x : Buf B => { x with async := if s.bcount > 4 then true else x.async }) =
          fun x => { x with async := true } := by
        funext x
        rw [if_pos hcount]
      rw [hfun]
      unfold Cache.procWrite
      have hself : ((s.store b bytes).setBuf b fun x => { x with async := true }).buf b =
          { (s.store b bytes).buf b with async := true } := update_self ..
      rw [hself, if_pos rfl]
      exact h.writeAsync hpc hb bytes
    · have hfun : (fun x : Buf B => { x with async := if s.bcount > 4 then true else x.async }) =
          fun x => x := by
        funext x
        rw [if_neg hcount]
      have hid : (s.store b bytes).setBuf b (fun x => x) = s.store b bytes := by
        unfold Cache.setBuf
        rw [Function.update_eq_self]
      rw [hfun, hid]
      exact ⟨loc, hsync p b bytes hpc hb⟩
  | brelse p b =>
    obtain ⟨⟨hpc, hb⟩, ht⟩ := ite_none_right_eq_some.mp ht
    cases ht
    obtain ⟨hio, hloc, hfresh, hf, ha, hr⟩ := h.own hpc hb
    exact ⟨_, (h.drop hb hf ha hr).brelse (update_self ..) hio⟩
  | go p => exact h.go ht
  | iodone b =>
    obtain ⟨hio, ht⟩ := ite_none_right_eq_some.mp ht
    cases ht
    obtain ⟨k, hk⟩ := Option.ne_none_iff_exists'.mp (h.bufs.named b (.inl (hp.io b hio).1))
    rw [iodone_eq s hk]
    have htransfer := h.transfer hio hk
    split_ifs with ha
    · exact ⟨_, htransfer.brelse (h.bufs.async b ha) hp.ioNodup.not_mem_erase⟩
    · exact ⟨loc, htransfer.unwanted b⟩

end

/-! ## Reassignment -/

/-- The buffers carry the blocks that they carried. -/
def Carries (s t : Cache B) : Prop := ∀ y, (t.buf y).blk = (s.buf y).blk

theorem Carries.of_buf (h : t.buf = s.buf) : Carries s t := fun _ => by rw [h]

theorem Carries.trans {u : Cache B} (h : Carries s t) (h' : Carries t u) : Carries s u :=
  fun y => (h' y).trans (h y)

theorem Carries.update (h : t.buf = Function.update s.buf b x) (hx : x.blk = (s.buf b).blk) :
    Carries s t := fun y => by
  rw [h]
  rw [update_apply]
  split_ifs with hy
  · rw [hy, hx]
  · rfl

theorem carries_collect (sbp : ℕ) (bps : List ℕ) (rablkno left : ℕ) :
    Carries s (s.collect c p sbp k bps rablkno left) := by
  cases left with
  | zero => exact Carries.update rfl rfl
  | succ left => exact Carries.of_buf rfl

theorem carries_brelse : Carries s (s.brelse b) :=
  Carries.update (brelse_frame s b).2.2.2.2.2 rfl

theorem carries_got (g : Getter) : Carries s (s.got c p b k g) := by
  cases g with
  | getblk => exact Carries.of_buf rfl
  | bread =>
    unfold Cache.got
    dsimp only
    split
    · exact Carries.of_buf rfl
    · exact Carries.update rfl rfl
  | breada rablkno blkno =>
    unfold Cache.got
    dsimp only
    split
    · exact Carries.of_buf rfl
    · by_cases hcount : rablkno.testBit 31 = true
      · rw [if_pos hcount]
        exact carries_collect _ _ _ _
      · rw [if_neg hcount]
        exact carries_collect _ _ _ _
  | ahead sbp k' bps rablkno left =>
    unfold Cache.got
    dsimp only
    split_ifs
    · have hdrop : Carries s (s.drop p b) := Carries.of_buf rfl
      exact (hdrop.trans carries_brelse).trans (carries_collect _ _ _ _)
    · exact carries_collect _ _ _ _

theorem carries_procWrite : Carries s (s.procWrite p b) := by
  unfold Cache.procWrite
  split_ifs
  · exact Carries.update rfl rfl
  · exact Carries.update rfl rfl

theorem carries_store (bytes : B) : Carries s (s.store b bytes) := Carries.update rfl rfl

/-- Only a free buffer without a delayed write comes to carry another block. -/
theorem step_carries (h : Sound c disk loc s) {e : BioEvent B} (ht : s.step c e = some t) :
    Carries s t ∨ ∃ b ∈ s.free, (s.buf b).delwri = false ∧
      ∀ y, y ≠ b → (t.buf y).blk = (s.buf y).blk := by
  cases e with
  | getblk p dev blkno | bread p dev blkno | breada p dev blkno rablkno =>
    obtain ⟨-, ht⟩ := ite_none_right_eq_some.mp ht
    cases ht
    exact .inl (Carries.of_buf rfl)
  | bwrite p b bytes =>
    obtain ⟨-, ht⟩ := ite_none_right_eq_some.mp ht
    cases ht
    exact .inl ((carries_store bytes).trans carries_procWrite)
  | bdwrite p b bytes =>
    obtain ⟨-, ht⟩ := ite_none_right_eq_some.mp ht
    cases ht
    have hset : Carries (s.store b bytes) (((s.store b bytes).setBuf b fun x =>
      { x with delwri := true, done := true }).drop p b) := Carries.update rfl rfl
    exact .inl (((carries_store bytes).trans hset).trans carries_brelse)
  | bawrite p b bytes =>
    obtain ⟨-, ht⟩ := ite_none_right_eq_some.mp ht
    cases ht
    have hset : Carries (s.store b bytes) ((s.store b bytes).setBuf b fun x =>
      { x with async := if s.bcount > 4 then true else x.async }) := Carries.update rfl rfl
    exact .inl (((carries_store bytes).trans hset).trans carries_procWrite)
  | brelse p b =>
    obtain ⟨-, ht⟩ := ite_none_right_eq_some.mp ht
    cases ht
    have hdrop : Carries s (s.drop p b) := Carries.of_buf rfl
    exact .inl (hdrop.trans carries_brelse)
  | iodone b =>
    obtain ⟨hio, ht⟩ := ite_none_right_eq_some.mp ht
    cases ht
    obtain ⟨k, hk⟩ := Option.ne_none_iff_exists'.mp (h.bufs.named b (.inl (h.procs.io b hio).1))
    have htransfer : Carries s (s.transfer b k) := Carries.update rfl rfl
    left
    rw [iodone_eq s hk]
    split_ifs
    · exact htransfer.trans carries_brelse
    · exact htransfer.trans (Carries.update rfl rfl)
  | go p =>
    have ht : s.go c p = some t := ht
    unfold Cache.go at ht
    cases hpc : s.pc p with
    | run | sleepBuf | sleepFree =>
      rw [hpc] at ht
      cases ht
    | start sbp k bps =>
      rw [hpc] at ht
      left
      cases bps with
      | nil =>
        cases ht
        exact Carries.of_buf rfl
      | cons b bps =>
        cases ht
        exact Carries.update rfl rfl
    | readWait b k =>
      rw [hpc] at ht
      obtain ⟨-, ht⟩ := ite_none_right_eq_some.mp ht
      cases ht
      exact .inl (Carries.of_buf rfl)
    | writeWait b =>
      rw [hpc] at ht
      obtain ⟨-, ht⟩ := ite_none_right_eq_some.mp ht
      cases ht
      have hdrop : Carries s ((s.setPc p .run).drop p b) := Carries.of_buf rfl
      exact .inl (hdrop.trans carries_brelse)
    | getblk k g =>
      rw [hpc] at ht
      cases ht
      unfold Cache.getblk
      cases hf : s.find c k with
      | some b =>
        left
        dsimp only
        split_ifs
        · exact Carries.update rfl rfl
        · have hgive : Carries s ((s.notavail b).give p b) := Carries.update rfl rfl
          exact hgive.trans (carries_got g)
      | none =>
        dsimp only
        cases hfree : s.free with
        | nil => exact .inl (Carries.of_buf rfl)
        | cons b rest =>
          dsimp only
          split_ifs with hd
          · have htake : Carries s (s.notavail b) := Carries.update rfl rfl
            have hset : Carries (s.notavail b) ((s.notavail b).setBuf b fun x =>
              { x with async := true }) := Carries.update rfl rfl
            exact .inl ((htake.trans hset).trans (Carries.update rfl rfl))
          · refine .inr ⟨b, mem_cons_self, Bool.of_not_eq_true hd, fun y hyb => ?_⟩
            refine (carries_got (s := ((s.notavail b).assign c b k).give p b) g y).trans ?_
            show (update (update s.buf b _) b _ y).blk = _
            rw [update_of_ne hyb, update_of_ne hyb]

/-! ## Every history -/

theorem sound_boot (c : BioConf) (disk : Blk → B) (bytes : ℕ → B) :
    Sound c disk (fun _ => .free) (boot c disk bytes) where
  bufs := by
    refine ⟨fun _ => rfl, fun b k hb => ?_, fun b b' k hb => ?_, fun b hb => ?_, fun b => ?_,
      fun b hb => ?_, nodup_range, fun _ _ => rfl, fun b hb => ?_⟩
    · cases hb
    · cases hb
    · rcases hb with hb | hb
      · exact absurd rfl hb
      · cases hb
    · simp [boot]
    · cases hb
    · rcases hb with hb | hb
      · exact mem_range.mp hb
      · exact absurd rfl hb
  procs := by
    refine ⟨fun _ => nodup_nil, fun p b hb => ?_, nodup_nil, fun b hb => ?_,
      fun _ => nodup_nil, fun p b hb => ?_, fun p b hb => ?_, fun p b hb => ?_,
      fun p b k hb => ?_, fun p b k hb => ?_⟩
    all_goals cases hb
  bytes := by
    refine ⟨fun b k hb => ?_, fun b hb => ?_, fun b k hb => ?_, fun b k hb => ?_, fun _ _ => rfl,
      trivial⟩
    all_goals cases hb

theorem exec_sound {bytes : ℕ → B} {es : List (BioEvent B)}
    (ht : exec (step c) (boot c disk bytes) es = some t) : ∃ loc, Sound c disk loc t :=
  exec_invariant' (P := fun t => ∃ loc, Sound c disk loc t)
    (fun _ _ _ ⟨_, h⟩ hst => h.step hst) ⟨_, sound_boot c disk bytes⟩ ht

/-- **The buffer cache is transparent.**  After any calls by any processes, interleaved in any way,
from `binit` on: no two buffers that are not stale carry one block; a buffer on the free list
is not busy, and one that a process has is busy and no other's; a buffer comes to carry
another block only if no write of it is delayed and the disk has what was released last; and
every read has returned the bytes of the block that were released last. -/
theorem cache_transparent (c : BioConf) (disk : Blk → B) (bytes : ℕ → B) {es : List (BioEvent B)}
    (ht : exec (step c) (boot c disk bytes) es = some t) :
    (∀ b b' k, (t.buf b).stale = false → (t.buf b').stale = false → (t.buf b).blk = some k →
      (t.buf b').blk = some k → b = b') ∧
    (t.free.Nodup ∧ ∀ b ∈ t.free, (t.buf b).busy = false) ∧
    (∀ p, (t.held p).Nodup ∧ ∀ b ∈ t.held p, (t.buf b).busy = true ∧
      ∀ q, b ∈ t.held q → q = p) ∧
    (∀ e u b, t.step c e = some u → (u.buf b).blk ≠ (t.buf b).blk →
      (t.buf b).delwri = false ∧
        ∀ k, (t.buf b).blk = some k → t.disk k = last disk t.trace k) ∧
    Transparent disk t.trace := by
  obtain ⟨loc, h⟩ := exec_sound ht
  have hp := h.procs
  refine ⟨fun b b' k _ _ => h.bufs.unique b b' k, ⟨h.bufs.nodup, fun b hb => ?_⟩,
    fun p => ⟨hp.heldNodup p, fun b hb => ⟨(h.bufs.busy b).mpr ?_, fun q hq => ?_⟩⟩,
    fun e u b hu hne => ?_, h.bytes.trace⟩
  · by_contra hbusy
    exact (h.bufs.busy b).mp (Bool.of_not_eq_false hbusy) (h.bufs.free b hb)
  · rw [hp.held p b hb]
    simp
  · have h1 := hp.held p b hb
    rw [hp.held q b hq] at h1
    cases h1
    rfl
  · obtain ⟨y, hfree, hd, hother⟩ := (step_carries h hu).resolve_left fun hc => hne (hc b)
    obtain rfl : b = y := by
      by_contra hby
      exact hne (hother b hby)
    refine ⟨hd, fun k hk => h.bytes.clean b k hk hd fun hio => ?_⟩
    exact absurd (h.bufs.free b hfree) (hp.io b hio).1

/-- Two buffers of 1024 bytes. -/
def twoBuffers : BioConf := ⟨2, 0, 1024, by decide⟩

/-- A block is written with delay, three others push it out, and it is read again. -/
def pushedOut : List (BioEvent ℕ) :=
  [.bread 0 0 1, .go 0, .iodone 0, .go 0, .bdwrite 0 0 7,
    .bread 0 0 2, .go 0, .iodone 1, .go 0, .brelse 0 1,
    .bread 0 0 3, .go 0, .iodone 0, .go 0, .iodone 1, .go 0, .brelse 0 1,
    .bread 0 0 4, .go 0, .iodone 0, .go 0, .brelse 0 0,
    .bread 0 0 1, .go 0, .iodone 1, .go 0]

theorem cache_transparent_pushedOut : ∃ t, exec (step twoBuffers)
    (boot twoBuffers (fun _ => 0) fun _ => 0) pushedOut = some t ∧
      Transparent (fun _ => 0) t.trace ∧ t.trace.head? = some (.read ⟨0, 2⟩ 7) := by
  have hrun : exec (step twoBuffers) (boot twoBuffers (fun _ => 0) fun _ => 0) pushedOut =
      some _ := rfl
  exact ⟨_, hrun, (cache_transparent twoBuffers _ _ hrun).2.2.2.2, rfl⟩

end Cache

end Os
