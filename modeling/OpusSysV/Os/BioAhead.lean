import OpusSysV.Os.BioCache
import Mathlib.Data.Finset.Max
import Mathlib.Data.Set.Basic

/-!
# Reading ahead and deadlock

`breada` collects the buffers of all its blocks before it starts any read, so that it may sleep in
`getblk` while it has some.

* `Deadlocked` — processes that all sleep in `getblk` for buffers that only they have.
* `InOrder` — a process that reads ahead sleeps only for a block above all it has.
* `step_frame` — what a step does to the processes.
* `breada_no_deadlock` — with every step in order there is no deadlock; `crossed` is two calls that
  read each other's block ahead.
-/

namespace Os

open Lib Function Option

/-- Asleep in `getblk`. -/
def BioPc.asleep : BioPc → Bool
  | .sleepBuf _ _ _ => true
  | .sleepFree _ _ => true
  | _ => false

namespace BioPc

/-- Woken in `getblk`, to look again. -/
def woken : BioPc → BioPc
  | .sleepBuf _ k g => .getblk k g
  | .sleepFree k g => .getblk k g
  | pc => pc

theorem woken_woken (pc : BioPc) : pc.woken.woken = pc.woken := by
  cases pc <;> rfl

theorem asleep_woken {pc : BioPc} (h : pc.woken.asleep = true) : pc.woken = pc := by
  cases pc with
  | sleepBuf | sleepFree => cases h
  | run | getblk | start | readWait | writeWait => rfl

/-- Who called `getblk`, where a process is in there. -/
def getter : BioPc → Option Getter
  | .getblk _ g => some g
  | .sleepBuf _ _ g => some g
  | .sleepFree _ g => some g
  | _ => none

theorem getter_woken (pc : BioPc) : pc.woken.getter = pc.getter := by
  cases pc <;> rfl

/-- Not asleep, and in `getblk` only to read ahead. -/
def Quiet (pc : BioPc) : Prop := pc.asleep = false ∧ ∀ g, pc.getter = some g → g.fresh ≠ []

end BioPc

namespace Cache

variable {B : Type*} {c : BioConf} {disk : Blk → B} {loc : ℕ → Loc} {s t : Cache B}
variable {b p : ℕ} {k : Blk}

/-- A set of processes that are all asleep in `getblk`, while what each waits for, one buffer or
any, is in the hands of processes of the set and no driver works on it. -/
def Deadlocked (c : BioConf) (s : Cache B) (D : Set ℕ) : Prop :=
  D.Nonempty ∧ ∀ p ∈ D,
    (∃ b k g, s.pc p = .sleepBuf b k g ∧ ∃ q ∈ D, b ∈ s.held q ∧ b ∉ s.io) ∨
    (∃ k g, s.pc p = .sleepFree k g ∧ ∀ b < c.vBuf, ∃ q ∈ D, b ∈ s.held q ∧ b ∉ s.io)

/-- In the loop of `breada`, when `getblk` has to sleep for a busy buffer, the process has only
buffers of lower blocks, and it does not have to sleep for want of a free one. -/
def AheadInOrder (c : BioConf) (s : Cache B) (p : ℕ) : Prop :=
  ∀ k g, s.pc p = .getblk k g → g.fresh ≠ [] →
    (∀ b, s.find c k = some b → (s.buf b).busy = true →
      ∀ x ∈ s.held p, ∀ kx, (s.buf x).blk = some kx → kx.blkno < k.blkno) ∧
    (s.find c k = none → s.free ≠ [])

/-- A process that calls has no buffer, and `breada` reads ahead in order. -/
def InOrder (c : BioConf) (s : Cache B) : BioEvent B → Prop
  | .getblk p _ _ => s.held p = []
  | .bread p _ _ => s.held p = []
  | .breada p _ _ _ => s.held p = []
  | .go p => AheadInOrder c s p
  | _ => True

/-! ## What a step does to the processes -/

/-- All but one of the processes are where they were, or woken there, and have what they had. -/
def Frame (o : Option ℕ) (s t : Cache B) : Prop :=
  ∀ q, o ≠ some q → t.held q = s.held q ∧ (t.pc q = s.pc q ∨ t.pc q = (s.pc q).woken)

variable {o : Option ℕ}

theorem Frame.trans {u : Cache B} (h : Frame o s t) (h' : Frame o t u) : Frame o s u :=
  fun q hq => by
    obtain ⟨h1, h2⟩ := h q hq
    obtain ⟨h3, h4⟩ := h' q hq
    refine ⟨h3.trans h1, ?_⟩
    rcases h2 with h2 | h2 <;> rcases h4 with h4 | h4 <;> rw [h2] at h4
    · exact .inl h4
    · exact .inr h4
    · exact .inr h4
    · exact .inr (h4.trans (BioPc.woken_woken _))

theorem Frame.of_eq (hpc : t.pc = s.pc) (hheld : t.held = s.held) : Frame o s t := fun q _ => by
  rw [hpc, hheld]
  exact ⟨rfl, .inl rfl⟩

theorem frame_setPc (p : ℕ) (pc : BioPc) : Frame (some p) s (s.setPc p pc) := fun q hq =>
  ⟨rfl, .inl (update_of_ne (fun h => hq (by rw [h])) ..)⟩

theorem frame_give : Frame (some p) s (s.give p b) := fun q hq =>
  ⟨update_of_ne (fun h => hq (by rw [h])) .., .inl rfl⟩

theorem frame_drop : Frame (some p) s (s.drop p b) := fun q hq =>
  ⟨update_of_ne (fun h => hq (by rw [h])) .., .inl rfl⟩

theorem frame_wakeBuf : Frame o s (s.wakeBuf b) := fun q _ => by
  refine ⟨rfl, ?_⟩
  unfold Cache.wakeBuf
  dsimp only
  cases s.pc q with
  | sleepBuf b' k g =>
    dsimp only
    split_ifs
    · exact .inr rfl
    · exact .inl rfl
  | run | getblk | sleepFree | start | readWait | writeWait => exact .inl rfl

theorem frame_wakeFree : Frame o s s.wakeFree := fun q _ => by
  refine ⟨rfl, ?_⟩
  unfold Cache.wakeFree
  dsimp only
  cases s.pc q with
  | sleepFree k g => exact .inr rfl
  | run | getblk | sleepBuf | start | readWait | writeWait => exact .inl rfl

theorem frame_brelse : Frame o s (s.brelse b) := by
  unfold Cache.brelse
  dsimp only
  split
  · exact frame_wakeBuf.trans (Frame.of_eq rfl rfl)
  · by_cases hf : s.freeWanted = true
    · rw [if_pos hf]
      exact frame_wakeFree.trans (Frame.of_eq rfl rfl)
    · rw [if_neg hf]
      exact Frame.of_eq rfl rfl

theorem brelse_run (h : s.pc p = .run) : (s.brelse b).pc p = .run := by
  rcases ((frame_brelse (s := s) (b := b) (o := none)) p (by simp)).2 with hpc | hpc
  · rw [hpc, h]
  · rw [hpc, h]
    rfl

/-- The process that goes on in `getblk` is not left there, unless it reads ahead. -/
theorem collect_frame (sbp : ℕ) (bps : List ℕ) (rablkno left : ℕ) :
    Frame (some p) s (s.collect c p sbp k bps rablkno left) ∧
      ((s.collect c p sbp k bps rablkno left).pc p).Quiet := by
  cases left with
  | zero =>
    refine ⟨(frame_setPc p (.start sbp k bps)).trans (Frame.of_eq rfl rfl), ?_⟩
    have hpc : (s.collect c p sbp k bps rablkno 0).pc p = .start sbp k bps :=
      update_self ..
    rw [hpc]
    exact ⟨rfl, fun g hg => by cases hg⟩
  | succ left =>
    refine ⟨frame_setPc _ _, ?_⟩
    unfold Cache.collect
    rw [setPc_pc]
    refine ⟨rfl, fun g hg => ?_⟩
    cases hg
    exact List.cons_ne_nil _ _

theorem readDone_frame :
    Frame (some p) s (s.readDone p b k) ∧ ((s.readDone p b k).pc p).Quiet := by
  refine ⟨(frame_setPc p .run).trans (Frame.of_eq rfl rfl), ?_⟩
  have hpc : (s.readDone p b k).pc p = .run := update_self ..
  rw [hpc]
  exact ⟨rfl, fun g hg => by cases hg⟩

theorem got_frame (g : Getter) :
    Frame (some p) s (s.got c p b k g) ∧ ((s.got c p b k g).pc p).Quiet := by
  cases g with
  | getblk =>
    refine ⟨frame_setPc _ _, ?_⟩
    unfold Cache.got
    rw [setPc_pc]
    exact ⟨rfl, fun g hg => by cases hg⟩
  | bread =>
    unfold Cache.got
    dsimp only
    split
    · exact readDone_frame
    · refine ⟨(frame_setPc p (.readWait b k)).trans (Frame.of_eq rfl rfl), ?_⟩
      show BioPc.Quiet ((s.setPc p (.readWait b k)).pc p)
      rw [setPc_pc]
      exact ⟨rfl, fun g hg => by cases hg⟩
  | breada rablkno blkno =>
    unfold Cache.got
    dsimp only
    split
    · exact readDone_frame
    · by_cases hcount : rablkno.testBit 31 = true
      · rw [if_pos hcount]
        exact collect_frame _ _ _ _
      · rw [if_neg hcount]
        exact collect_frame _ _ _ _
  | ahead sbp k' bps rablkno left =>
    unfold Cache.got
    dsimp only
    split_ifs
    · have hrel : Frame (some p) s ((s.drop p b).brelse b) := frame_drop.trans frame_brelse
      obtain ⟨h1, h2⟩ := collect_frame (c := c) (s := (s.drop p b).brelse b) (p := p) (k := k') sbp
        bps rablkno left
      exact ⟨hrel.trans h1, h2⟩
    · exact collect_frame _ _ _ _

theorem procWrite_frame (hpc : s.pc p = .run) :
    Frame (some p) s (s.procWrite p b) ∧ ((s.procWrite p b).pc p).Quiet := by
  unfold Cache.procWrite
  split_ifs
  · refine ⟨frame_drop.trans (Frame.of_eq rfl rfl), ?_⟩
    show (s.pc p).Quiet
    rw [hpc]
    exact ⟨rfl, fun g hg => by cases hg⟩
  · refine ⟨(frame_setPc p (.writeWait b)).trans (Frame.of_eq rfl rfl), ?_⟩
    show BioPc.Quiet ((s.setPc p (.writeWait b)).pc p)
    rw [setPc_pc]
    exact ⟨rfl, fun g hg => by cases hg⟩

/-- A process that falls asleep in `getblk`, with what it finds there. -/
def FallsAsleep (c : BioConf) (s t : Cache B) (p : ℕ) : Prop :=
  ∃ k g, s.pc p = .getblk k g ∧ t.held p = s.held p ∧
    ((∃ b, s.find c k = some b ∧ (s.buf b).busy = true ∧ t.pc p = .sleepBuf b k g) ∨
      (s.find c k = none ∧ s.free = [] ∧ t.pc p = .sleepFree k g))

/-- The process of a step, if it has one: it leaves `getblk` or reads ahead, it calls, or it falls
asleep. -/
theorem step_frame (h : Sound c disk loc s) {e : BioEvent B} (ht : s.step c e = some t) :
    ∃ o, Frame o s t ∧ ∀ p, o = some p → (t.pc p).Quiet ∨
      (t.held p = s.held p ∧ (t.pc p).asleep = false ∧ (InOrder c s e → s.held p = [])) ∨
      (e = .go p ∧ FallsAsleep c s t p) := by
  have hquiet : ∀ {p : ℕ}, Frame (some p) s t → (t.pc p).Quiet → ∃ o, Frame o s t ∧ ∀ p,
      o = some p → (t.pc p).Quiet ∨
        (t.held p = s.held p ∧ (t.pc p).asleep = false ∧ (InOrder c s e → s.held p = [])) ∨
        (e = .go p ∧ FallsAsleep c s t p) := fun {p} hf hq =>
    ⟨some p, hf, fun q hpq => by cases hpq; exact .inl hq⟩
  have hrun : ∀ {u : Cache B} {p : ℕ}, u.pc p = .run → (u.pc p).Quiet := fun {u p} hpc => by
    rw [hpc]
    exact ⟨rfl, fun g hg => by cases hg⟩
  cases e with
  | getblk p dev blkno | bread p dev blkno | breada p dev blkno rablkno =>
    obtain ⟨-, ht⟩ := ite_none_right_eq_some.mp ht
    cases ht
    refine ⟨some p, frame_setPc _ _, fun q hq => ?_⟩
    cases hq
    rw [setPc_pc]
    exact .inr (.inl ⟨rfl, rfl, id⟩)
  | bwrite p b bytes =>
    obtain ⟨⟨hpc, -⟩, ht⟩ := ite_none_right_eq_some.mp ht
    cases ht
    have hset : Frame (some p) s (s.store b bytes) := Frame.of_eq rfl rfl
    obtain ⟨h1, h2⟩ := procWrite_frame (s := s.store b bytes) (p := p) (b := b) hpc
    exact hquiet (hset.trans h1) h2
  | bdwrite p b bytes =>
    obtain ⟨⟨hpc, -⟩, ht⟩ := ite_none_right_eq_some.mp ht
    cases ht
    have hset : Frame (some p) s ((s.store b bytes).setBuf b fun x =>
      { x with delwri := true, done := true }) := Frame.of_eq rfl rfl
    have hall := (hset.trans (frame_drop (b := b))).trans (frame_brelse (b := b))
    refine hquiet hall (hrun (brelse_run ?_))
    exact hpc
  | bawrite p b bytes =>
    obtain ⟨⟨hpc, -⟩, ht⟩ := ite_none_right_eq_some.mp ht
    cases ht
    have hset : Frame (some p) s ((s.store b bytes).setBuf b fun x =>
      { x with async := if s.bcount > 4 then true else x.async }) := Frame.of_eq rfl rfl
    obtain ⟨h1, h2⟩ := procWrite_frame (s := (s.store b bytes).setBuf b fun x =>
      { x with async := if s.bcount > 4 then true else x.async }) (p := p) (b := b) hpc
    exact hquiet (hset.trans h1) h2
  | brelse p b =>
    obtain ⟨⟨hpc, -⟩, ht⟩ := ite_none_right_eq_some.mp ht
    cases ht
    exact hquiet (frame_drop.trans frame_brelse) (hrun (brelse_run hpc))
  | iodone b =>
    obtain ⟨hio, ht⟩ := ite_none_right_eq_some.mp ht
    cases ht
    obtain ⟨k, hk⟩ := Option.ne_none_iff_exists'.mp (h.bufs.named b (.inl (h.procs.io b hio).1))
    have htransfer : Frame none s (s.transfer b k) := Frame.of_eq rfl rfl
    refine ⟨none, ?_, fun q hq => by cases hq⟩
    rw [iodone_eq s hk]
    split_ifs
    · exact htransfer.trans frame_brelse
    · exact (htransfer.trans frame_wakeBuf).trans (Frame.of_eq rfl rfl)
  | go p =>
    have ht : s.go c p = some t := ht
    unfold Cache.go at ht
    cases hpc : s.pc p with
    | run | sleepBuf | sleepFree =>
      rw [hpc] at ht
      cases ht
    | start sbp k bps =>
      rw [hpc] at ht
      cases bps with
      | nil =>
        cases ht
        refine hquiet (frame_setPc _ _) ?_
        rw [setPc_pc]
        exact ⟨rfl, fun g hg => by cases hg⟩
      | cons b bps =>
        cases ht
        have hset := (frame_setPc (s := s) p (.start sbp k bps)).trans (frame_drop (b := b))
        refine hquiet (hset.trans (Frame.of_eq rfl rfl)) ?_
        show BioPc.Quiet ((s.setPc p (.start sbp k bps)).pc p)
        rw [setPc_pc]
        exact ⟨rfl, fun g hg => by cases hg⟩
    | readWait b k =>
      rw [hpc] at ht
      obtain ⟨-, ht⟩ := ite_none_right_eq_some.mp ht
      cases ht
      exact hquiet readDone_frame.1 readDone_frame.2
    | writeWait b =>
      rw [hpc] at ht
      obtain ⟨-, ht⟩ := ite_none_right_eq_some.mp ht
      cases ht
      exact hquiet (((frame_setPc p .run).trans frame_drop).trans frame_brelse)
        (hrun (brelse_run (setPc_pc s p .run)))
    | getblk k g =>
      rw [hpc] at ht
      cases ht
      unfold Cache.getblk at hquiet ⊢
      cases hf : s.find c k with
      | some b =>
        rw [hf] at hquiet
        dsimp only at hquiet ⊢
        split_ifs at hquiet ⊢ with hbusy
        · have hset : Frame (some p) s (s.setBuf b fun x => { x with wanted := true }) :=
            Frame.of_eq rfl rfl
          refine ⟨some p, hset.trans (frame_setPc _ _), fun q hq => ?_⟩
          cases hq
          exact .inr (.inr ⟨rfl, k, g, hpc, rfl, .inl ⟨b, hf, hbusy, update_self ..⟩⟩)
        · have htake : Frame (some p) s ((s.notavail b).give p b) :=
            (Frame.of_eq (t := s.notavail b) rfl rfl).trans frame_give
          obtain ⟨h1, h2⟩ := got_frame (c := c) (s := (s.notavail b).give p b) (p := p) (b := b)
            (k := k) g
          exact hquiet (htake.trans h1) h2
      | none =>
        rw [hf] at hquiet
        dsimp only at hquiet ⊢
        cases hfree : s.free with
        | nil =>
          refine ⟨some p, (frame_setPc p (.sleepFree k g)).trans (Frame.of_eq rfl rfl),
            fun q hq => ?_⟩
          cases hq
          exact .inr (.inr ⟨rfl, k, g, hpc, rfl, .inr ⟨hf, hfree, update_self ..⟩⟩)
        | cons b rest =>
          rw [hfree] at hquiet
          dsimp only at hquiet ⊢
          by_cases hd : (s.buf b).delwri = true
          · rw [if_pos hd]
            exact ⟨none, Frame.of_eq rfl rfl, fun q hq => by cases hq⟩
          · rw [if_neg hd] at hquiet ⊢
            have htake : Frame (some p) s (((s.notavail b).assign c b k).give p b) :=
              (Frame.of_eq (t := (s.notavail b).assign c b k) rfl rfl).trans frame_give
            obtain ⟨h1, h2⟩ := got_frame (c := c) (s := ((s.notavail b).assign c b k).give p b)
              (p := p) (b := b) (k := k) g
            exact hquiet (htake.trans h1) h2

/-! ## In order -/

/-- What those in `getblk` have: asleep on a buffer, only lower blocks; asleep for any buffer,
nothing; and nothing but to read ahead. -/
structure Ordered (s : Cache B) : Prop where
  buf : ∀ p b k g, s.pc p = .sleepBuf b k g → ∀ x ∈ s.held p, ∀ kx, (s.buf x).blk = some kx →
    kx.blkno < k.blkno
  free : ∀ p k g, s.pc p = .sleepFree k g → s.held p = []
  alone : ∀ p g, (s.pc p).getter = some g → g.fresh = [] → s.held p = []

/-- A step in order keeps the order. -/
theorem Ordered.step (ho : Ordered s) (h : Sound c disk loc s) {e : BioEvent B}
    (he : InOrder c s e) (ht : s.step c e = some t) : Ordered t := by
  have hcarry : ∀ p, ∀ x ∈ s.held p, (t.buf x).blk = (s.buf x).blk := fun p x hx => by
    rcases step_carries h ht with hc | ⟨y, hy, -, hother⟩
    · exact hc x
    · refine hother x ?_
      rintro rfl
      have h1 := h.procs.held p x hx
      rw [h.bufs.free x hy] at h1
      cases h1
  obtain ⟨o, hframe, hact⟩ := step_frame h ht
  -- those who do not act and sleep, slept
  have hrest : ∀ q, o ≠ some q → (t.pc q).asleep = true → t.pc q = s.pc q := fun q hq hsleep => by
    rcases (hframe q hq).2 with hpc | hpc
    · exact hpc
    · rw [hpc] at hsleep ⊢
      exact BioPc.asleep_woken hsleep
  refine ⟨fun q b k g hq x hx kx hkx => ?_, fun q k g hq => ?_, fun q g hq hfresh => ?_⟩
  · by_cases hoq : o = some q
    · rcases hact q hoq with hquiet | ⟨-, hawake, -⟩ | ⟨rfl, k', g', hpc, hheld, hsleep⟩
      · rw [hq] at hquiet
        exact absurd hquiet.1 (by simp [BioPc.asleep])
      · rw [hq] at hawake
        cases hawake
      · rw [hheld] at hx
        rw [hcarry q x hx] at hkx
        by_cases hg : g'.fresh = []
        · rw [ho.alone q g' (by rw [hpc]; rfl) hg] at hx
          cases hx
        · rcases hsleep with ⟨b', hf, hbusy, hpc'⟩ | ⟨-, -, hpc'⟩
          · rw [hpc'] at hq
            cases hq
            exact (he k g hpc hg).1 b hf hbusy x hx kx hkx
          · rw [hpc'] at hq
            cases hq
    · have hpc := hrest q hoq (by rw [hq]; rfl)
      rw [hpc] at hq
      rw [(hframe q hoq).1] at hx
      rw [hcarry q x hx] at hkx
      exact ho.buf q b k g hq x hx kx hkx
  · by_cases hoq : o = some q
    · rcases hact q hoq with hquiet | ⟨-, hawake, -⟩ | ⟨rfl, k', g', hpc, hheld, hsleep⟩
      · rw [hq] at hquiet
        exact absurd hquiet.1 (by simp [BioPc.asleep])
      · rw [hq] at hawake
        cases hawake
      · rw [hheld]
        by_cases hg : g'.fresh = []
        · exact ho.alone q g' (by rw [hpc]; rfl) hg
        · rcases hsleep with ⟨b', hf, hbusy, hpc'⟩ | ⟨hf, hnil, -⟩
          · rw [hpc'] at hq
            cases hq
          · exact absurd hnil ((he k' g' hpc hg).2 hf)
    · have hpc := hrest q hoq (by rw [hq]; rfl)
      rw [hpc] at hq
      rw [(hframe q hoq).1]
      exact ho.free q k g hq
  · by_cases hoq : o = some q
    · rcases hact q hoq with hquiet | ⟨hheld, -, hcall⟩ | ⟨rfl, k', g', hpc, hheld, hsleep⟩
      · exact absurd hfresh (hquiet.2 g hq)
      · rw [hheld]
        exact hcall he
      · rw [hheld]
        rcases hsleep with ⟨b', -, -, hpc'⟩ | ⟨-, -, hpc'⟩
        · rw [hpc'] at hq
          cases hq
          exact ho.alone q g (by rw [hpc]; rfl) hfresh
        · rw [hpc'] at hq
          cases hq
          exact ho.alone q g (by rw [hpc]; rfl) hfresh
    · obtain ⟨hheld, hpc⟩ := hframe q hoq
      rw [hheld]
      refine ho.alone q g ?_ hfresh
      rcases hpc with hpc | hpc
      · rw [← hpc]
        exact hq
      · rw [← BioPc.getter_woken, ← hpc]
        exact hq

/-- In order, the highest block that is waited for is held by no one who sleeps. -/
theorem Ordered.not_deadlocked (ho : Ordered s) (h : Sound c disk loc s) (hbuf : 0 < c.vBuf)
    (D : Set ℕ) : ¬ Deadlocked c s D := by
  classical
  rintro ⟨⟨p₀, hp₀⟩, hD⟩
  -- who has a buffer sleeps on another one
  have hon : ∀ q ∈ D, ∀ x ∈ s.held q, ∃ b k g, s.pc q = .sleepBuf b k g ∧
      ∃ r ∈ D, b ∈ s.held r := fun q hq x hx => by
    rcases hD q hq with ⟨b, k, g, hpc, r, hr, hb, -⟩ | ⟨k, g, hpc, -⟩
    · exact ⟨b, k, g, hpc, r, hr, hb⟩
    · rw [ho.free q k g hpc] at hx
      cases hx
  have hblk : ∀ q b k g, s.pc q = .sleepBuf b k g → (s.buf b).blk = some k := fun q b k g hpc =>
    (h.procs.sleeps q b k (by rw [hpc]; rfl)).2.2
  obtain ⟨q, hq, x, hx⟩ : ∃ q ∈ D, ∃ x, x ∈ s.held q := by
    rcases hD p₀ hp₀ with ⟨b, k, g, -, q, hq, hb, -⟩ | ⟨k, g, -, hall⟩
    · exact ⟨q, hq, b, hb⟩
    · obtain ⟨q, hq, hb, -⟩ := hall 0 hbuf
      exact ⟨q, hq, 0, hb⟩
  obtain ⟨b₁, k₁, g₁, hpc₁, -, -, -⟩ := hon q hq x hx
  let waited := (Finset.range c.vBuf).filter fun b => ∃ q ∈ D, ∃ k g, s.pc q = .sleepBuf b k g
  have hmem : ∀ q ∈ D, ∀ b k g, s.pc q = .sleepBuf b k g → b ∈ waited := fun q hq b k g hpc => by
    refine Finset.mem_filter.mpr ⟨Finset.mem_range.mpr ?_, q, hq, k, g, hpc⟩
    exact h.bufs.range b (.inr (by rw [hblk q b k g hpc]; simp))
  obtain ⟨b, hb, hmax⟩ := waited.exists_max_image
    (fun b => ((s.buf b).blk.map Blk.blkno).getD 0) ⟨b₁, hmem q hq b₁ k₁ g₁ hpc₁⟩
  obtain ⟨r, hr, k, g, hpc⟩ := (Finset.mem_filter.mp hb).2
  rcases hD r hr with ⟨b', k', g', hpc', r', hr', hb', -⟩ | ⟨k', g', hpc', -⟩
  · rw [hpc] at hpc'
    cases hpc'
    obtain ⟨b₂, k₂, g₂, hpc₂, -, -, -⟩ := hon r' hr' b hb'
    have hlt := ho.buf r' b₂ k₂ g₂ hpc₂ b hb' k (hblk r b k g hpc)
    have hle := hmax b₂ (hmem r' hr' b₂ k₂ g₂ hpc₂)
    rw [hblk r b k g hpc, hblk r' b₂ k₂ g₂ hpc₂] at hle
    exact absurd hlt (Nat.not_lt.mpr hle)
  · rw [hpc] at hpc'
    cases hpc'

/-- **Reading ahead in order does not deadlock.**  With at least two buffers, in every history in
which processes call with no buffer, and a `breada` that has to sleep for a busy read-ahead
block has only lower ones and never has to sleep for want of a free buffer, no processes ever
all sleep for buffers that only they have. -/
theorem breada_no_deadlock (c : BioConf) (disk : Blk → B) (bytes : ℕ → B) (hbuf : 2 ≤ c.vBuf)
    {es : List (BioEvent B)}
    (hC : StepsMeet (InOrder c) (step c) (boot c disk bytes) es)
    (ht : exec (step c) (boot c disk bytes) es = some t) (D : Set ℕ) : ¬ Deadlocked c t D := by
  have hinv : (∃ loc, Sound c disk loc t) ∧ Ordered t := by
    refine exec_invariant (P := fun t => (∃ loc, Sound c disk loc t) ∧ Ordered t) ?_ ?_ hC ht
    · rintro s e u ⟨⟨loc, h⟩, ho⟩ he hu
      exact ⟨h.step hu, ho.step h he hu⟩
    · refine ⟨⟨_, sound_boot c disk bytes⟩, fun p b k g hp => ?_, fun p k g hp => ?_,
        fun p g hp => ?_⟩
      all_goals cases hp
  obtain ⟨⟨loc, h⟩, ho⟩ := hinv
  exact ho.not_deadlocked h (by omega) D

/-- Two calls, each of which reads ahead the block that the other requests. -/
def crossed : List (BioEvent ℕ) :=
  [.breada 0 0 1 2, .go 0, .breada 1 0 2 1, .go 1, .go 0, .go 1]

/-- Whoever calls `breada` has no buffer. -/
def callsAlone (s : Cache B) : BioEvent B → Bool
  | .breada p _ _ _ => s.held p = []
  | _ => true

/-- Each of two processes sleeps for the buffer that the other has. -/
theorem crossed_deadlock : ∃ t, exec (step twoBuffers)
    (boot twoBuffers (fun _ => 0) fun _ => 0) crossed = some t ∧
      allSteps callsAlone (step twoBuffers) (boot twoBuffers (fun _ => 0) fun _ => 0) crossed ∧
      Deadlocked twoBuffers t {0, 1} := by
  refine ⟨_, rfl, by decide, ⟨0, .inl rfl⟩, fun p hp => .inl ?_⟩
  rcases hp with rfl | hp
  · exact ⟨1, ⟨0, 4⟩, .ahead 0 ⟨0, 2⟩ [] 3 0, rfl, 1, .inr rfl, by decide, by decide⟩
  · obtain rfl : p = 1 := hp
    exact ⟨0, ⟨0, 2⟩, .ahead 1 ⟨0, 4⟩ [] 2 0, rfl, 0, .inl rfl, by decide, by decide⟩

/-- A test that a step is in order: nobody falls asleep who reads ahead. -/
def wakeful (c : BioConf) (s : Cache B) : BioEvent B → Bool
  | .getblk p _ _ => s.held p = []
  | .bread p _ _ => s.held p = []
  | .breada p _ _ _ => s.held p = []
  | .go p =>
    match s.pc p with
    | .getblk k g => g.fresh = [] ∨ ((s.getblk c p k g).pc p).asleep = false
    | _ => true
  | _ => true

theorem inOrder_of_wakeful (s : Cache B) (e : BioEvent B) (h : s.wakeful c e = true) :
    InOrder c s e := by
  cases e with
  | getblk p dev blkno | bread p dev blkno | breada p dev blkno rablkno =>
    have hnone : s.held p = [] := of_decide_eq_true h
    exact hnone
  | go p =>
    intro k g hpc hg
    unfold wakeful at h
    dsimp only at h
    rw [hpc] at h
    have hawake := (of_decide_eq_true h).resolve_left hg
    unfold Cache.getblk at hawake
    refine ⟨fun b hf hbusy => ?_, fun hf hnil => ?_⟩
    · rw [hf] at hawake
      dsimp only at hawake
      rw [if_pos hbusy, setPc_pc] at hawake
      cases hawake
    · rw [hf, hnil] at hawake
      have hpc' : (s.setPc p (.sleepFree k g)).pc p = .sleepFree k g := setPc_pc ..
      dsimp only at hawake
      rw [hpc'] at hawake
      cases hawake
  | bwrite | bdwrite | bawrite | brelse | iodone => trivial

/-- Two calls for one block, of which one reads the next ahead. -/
def oneAhead : List (BioEvent ℕ) := [.breada 0 0 1 2, .go 0, .bread 1 0 1, .go 1, .go 0]

theorem breada_no_deadlock_oneAhead : ∃ t, exec (step twoBuffers)
    (boot twoBuffers (fun _ => 0) fun _ => 0) oneAhead = some t ∧
      t.pc 1 = .sleepBuf 0 ⟨0, 2⟩ .bread ∧ ¬ Deadlocked twoBuffers t {1} := by
  have hrun : exec (step twoBuffers) (boot twoBuffers (fun _ => 0) fun _ => 0) oneAhead =
      some _ := rfl
  have hC : StepsMeet (InOrder twoBuffers) (step twoBuffers)
      (boot twoBuffers (fun _ => 0) fun _ => 0) oneAhead :=
    stepsMeet_of_allSteps inOrder_of_wakeful (by decide)
  exact ⟨_, hrun, rfl, breada_no_deadlock twoBuffers _ _ (by decide) hC hrun {1}⟩

end Cache

end Os
