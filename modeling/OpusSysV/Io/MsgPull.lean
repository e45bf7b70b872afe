import OpusSysV.Io.MsgTrim
import OpusSysV.Io.StreamRef

/-!
# Pulling up a message: `pullupmsg` of `io/stream.c`

`pullupmsg(mp, len)` copies the first `len` bytes of the leading blocks of one type into a
new block, frees the blocks it has emptied, and interchanges the new block with the head.

* `Pool.pullLoop`, `Pool.interchange`, `Pool.pullupmsg` — the routine; `none` is a null
  pointer that was followed, a `bcopy` of a negative count, or a loop that needs more turns
  than `fuel`.
* `Pulled`, `pullLoop_spec` — what the loop has copied and what is left to link.
* `Pool.Keeps` — the message is kept; `pullupmsg_keeps` says exactly when.
* With nothing to pull up and an empty head the loop does not move `bp` from the head, which
  is then linked to itself (`head_cycle`).
-/

namespace Io

open Lib Function List Option

namespace Pool

variable {M D : Type} [DecidableEq M] [DecidableEq D]

/-! ## The routine -/

/-- `bcopy(bp->b_rptr, new_bp->b_wptr, n)`, and `n` added to both pointers. -/
def pull (s : Pool M D) (bp nbp : M) (n : ℕ) : Option (Pool M D) :=
  (s.datap bp).bind fun d => (s.datap nbp).map fun nd =>
    { s with
      data := update s.data nd fun i =>
        if s.wptr nbp ≤ i ∧ i < s.wptr nbp + n then s.data d (s.rptr bp + (i - s.wptr nbp))
        else s.data nd i
      wptr := update s.wptr nbp (s.wptr nbp + n)
      rptr := update s.rptr bp (s.rptr bp + n) }

/-- The loop of `pullupmsg`: the `bp` it ends with, and the blocks. -/
def pullLoop (mp nbp : M) : ℕ → Option M → ℤ → Pool M D → Option (Option M × Pool M D)
  | 0, bp, len, s => if len = 0 then some (bp, s) else none
  | fuel + 1, bp, len, s =>
    if len = 0 then some (bp, s)
    else bp.bind fun bp =>
      (mathMin (s.blk bp) len).bind fun n =>
        -- `bcopy` takes the count as unsigned
        if n < 0 then none
        else (s.pull bp nbp n.toNat).bind fun t =>
          if t.rptr bp ≠ t.wptr bp then some (some bp, t)
          else pullLoop mp nbp fuel (t.cont bp) (len - n) (if bp ≠ mp then t.freeb bp else t)

/-- `*tmp = *mp; *mp = *new_bp; new_bp->b_datap = NULL;` -/
def exchange (s : Pool M D) (mp tmp nbp : M) : Pool M D :=
  { s with
    cont := update (update s.cont tmp (s.cont mp)) mp (s.cont nbp)
    datap := update (update (update s.datap tmp (s.datap mp)) mp
      (s.datap nbp)) nbp none
    rptr := update (update s.rptr tmp (s.rptr mp)) mp (s.rptr nbp)
    wptr := update (update s.wptr tmp (s.wptr mp)) mp (s.wptr nbp) }

/-- From the exchange to the end: the rest is linked to `mp`, and `new_bp` goes back. -/
def interchange (s : Pool M D) (mp tmp nbp : M) (bp : Option M) : Pool M D :=
  let t := s.exchange mp tmp nbp
  let u :=
    if t.rptr tmp ≠ t.wptr tmp then { t with cont := update t.cont mp (some tmp) }
    else { t with cont := update t.cont mp bp }.freeb tmp
  { u with mbfreelist := nbp :: u.mbfreelist }

/-- `pullupmsg` from the allocation of the header on, where `len` bytes are to be copied. -/
def pullup (s : Pool M D) (fuel : ℕ) (mp : M) (len : ℤ) : Option (ℤ × Pool M D) :=
  match s.mbfreelist with
  | [] => some (0, s)
  | tmp :: rest =>
    let t := { s with mbfreelist := rest }
    match t.allocb len BPRI_MED with
    | none => some (0, { t with mbfreelist := tmp :: t.mbfreelist })
    | some (nbp, u) =>
      (u.datap mp).bind fun d => (u.datap nbp).bind fun nd =>
        (pullLoop mp nbp fuel (some mp) len
          { u with dbType := update u.dbType nd (u.dbType d) }).map fun r =>
            (1, r.2.interchange mp tmp nbp r.1)

/-- `str_aligned(mp->b_rptr)`; data blocks start at even addresses. -/
def strAligned (s : Pool M D) (mp : M) : Prop := s.rptr mp % 2 = 0

instance (s : Pool M D) (mp : M) : Decidable (s.strAligned mp) :=
  inferInstanceAs (Decidable (_ = _))

/-- `pullupmsg(mp, len)`: what it returns, and the blocks. -/
def pullupmsg (s : Pool M D) (fuel : ℕ) (mp : M) (len : ℤ) : Option (ℤ × Pool M D) :=
  if len = -1 then
    if s.cont mp = none ∧ s.strAligned mp then some (1, s)
    else (s.xmsgsize fuel mp).bind fun size => s.pullup fuel mp size
  else if s.blk mp ≥ len ∧ s.strAligned mp then some (1, s)
  else (s.xmsgsize fuel mp).bind fun size =>
    if size < len then some (0, s) else s.pullup fuel mp len

/-! ## The purpose -/

/-- A block with its link, its pointers, its type and its data is as it was. -/
structure SameBlock (s t : Pool M D) (b : M) : Prop where
  cont : t.cont b = s.cont b
  typeOf : t.typeOf b = s.typeOf b
  rptr : t.rptr b = s.rptr b
  wptr : t.wptr b = s.wptr b
  bytes : t.bytes b = s.bytes b

/-- The message is a list of blocks again: the leading ones of one type have the data they
had, and the others are the same. -/
def Whole (s t : Pool M D) (mp : M) (l : List M) : Prop :=
  ∃ l', Lib.Linked t.cont (some mp) l' ∧ t.content (t.lead l') = s.content (s.lead l) ∧
    ∃ rest, l = s.lead l ++ rest ∧ l' = t.lead l' ++ rest ∧ ∀ b ∈ rest, s.SameBlock t b

/-- **What `pullupmsg` is for**: it ends within as many turns as there are blocks.  If it
returns 1, the message is whole, and its first block has `len` bytes or, for -1, all of the
type; if it returns 0, nothing has changed. -/
def Keeps (s : Pool M D) (mp : M) (l : List M) (len : ℤ) : Prop :=
  ∃ r t, (∀ fuel, l.length ≤ fuel → s.pullupmsg fuel mp len = some (r, t)) ∧
    (r = 1 ∧ s.Whole t mp l ∧
        (if len = -1 then t.bytes mp = s.content (s.lead l) else len ≤ (t.bytes mp).length) ∨
      r = 0 ∧ t = s)

/-- A message in a pool whose free lists hold other blocks: no block of it is free, and
neither is the data block of one. -/
structure Live (s : Pool M D) (mp : M) (l : List M) : Prop extends s.Message mp l where
  mb_nodup : s.mbfreelist.Nodup
  not_free : ∀ b ∈ l, b ∉ s.mbfreelist
  data_not_free : ∀ b ∈ l, ∀ d, s.datap b = some d → ∀ c, d ∉ s.dbfreelist c

/-- The number of bytes that are copied if the first checks do not decide. -/
def wanted (s : Pool M D) (l : List M) (len : ℤ) : ℤ :=
  if len = -1 then long (s.content (s.lead l)).length else len

/-- The first checks do not decide. -/
def Undecided (s : Pool M D) (mp : M) (l : List M) (len : ℤ) : Prop :=
  if len = -1 then ¬ (s.cont mp = none ∧ s.strAligned mp)
  else ¬ (s.blk mp ≥ len ∧ s.strAligned mp) ∧ len ≤ long (s.content (s.lead l)).length

/-- The routine gets past its first checks, and both allocations succeed. -/
def Reaches (s : Pool M D) (mp : M) (l : List M) (len : ℤ) : Prop :=
  s.Undecided mp l len ∧ ∃ tmp rest, s.mbfreelist = tmp :: rest ∧
    ({ s with mbfreelist := rest }.allocb (s.wanted l len) BPRI_MED).isSome

/-- Where the routine copies, there is something to copy or the head is not empty, and for -1
the size of the leading blocks is not lost in an `int`. -/
def Pullable (s : Pool M D) (mp : M) (l : List M) (len : ℤ) : Prop :=
  s.Reaches mp l len → (s.wanted l len ≠ 0 ∨ s.blk mp ≠ 0) ∧
    (len = -1 → s.wanted l len = (s.content (s.lead l)).length)

/-! ## One turn of the loop -/

section turn

variable {s t u : Pool M D} {b bp mp nbp tmp : M} {d nd : D} {n : ℕ} {l bs rest : List M}

omit [DecidableEq M] [DecidableEq D] in
theorem length_bytes (hd : s.datap b = some d) : (s.bytes b).length = s.wptr b - s.rptr b := by
  rw [bytes, hd]
  simp only [length_map, length_range']

/-- A block to copy from: not the new one, and with a data block that is not the new one. -/
def Ready (s : Pool M D) (nbp : M) (nd : D) (b : M) : Prop :=
  b ≠ nbp ∧ ∃ d, s.datap b = some d ∧ d ≠ nd ∧ s.rptr b ≤ s.wptr b ∧ s.blk b < 2 ^ 31

/-- `n` bytes have been copied from `b` to the new block. -/
structure Copied (b nbp : M) (nd : D) (n : ℕ) (s t : Pool M D) : Prop where
  cont : t.cont = s.cont
  datap : t.datap = s.datap
  dbType : t.dbType = s.dbType
  rptr : t.rptr = update s.rptr b (s.rptr b + n)
  wptr : t.wptr = update s.wptr nbp (s.wptr nbp + n)
  data : ∀ d ≠ nd, t.data d = s.data d
  new : t.bytes nbp = s.bytes nbp ++ (s.bytes b).take n
  left : t.bytes b = (s.bytes b).drop n

theorem copied_pull (hb : s.Ready nbp nd b) (hnd : s.datap nbp = some nd)
    (hle : s.rptr nbp ≤ s.wptr nbp) (hn : (n : ℤ) ≤ s.blk b) :
    ∃ t, s.pull b nbp n = some t ∧ Copied b nbp nd n s t := by
  obtain ⟨hbn, d, hd, hdn, hrw, -⟩ := hb
  unfold blk at hn
  have hpull : ∃ t, s.pull b nbp n = some t := by
    rw [pull, hd, hnd]
    exact ⟨_, rfl⟩
  obtain ⟨t, ht⟩ := hpull
  refine ⟨t, ht, ?_⟩
  rw [pull, hd, hnd] at ht
  obtain rfl := Option.some.inj ht
  refine ⟨rfl, rfl, rfl, rfl, rfl, fun d' hd' => ?_, ?_, ?_⟩
  · exact update_of_ne hd' _ _
  · have hsplit : List.range' (s.rptr nbp) (s.wptr nbp + n - s.rptr nbp) =
        List.range' (s.rptr nbp) (s.wptr nbp - s.rptr nbp) ++ List.range' (s.wptr nbp) n := by
      obtain ⟨k, hk⟩ := Nat.exists_eq_add_of_le hle
      rw [hk, Nat.add_sub_cancel_left, List.range'_append_1]
      congr 1
      omega
    simp only [bytes, hd, hnd, update_self, update_of_ne hbn.symm]
    rw [hsplit, map_append]
    congr 1
    · refine map_congr_left fun i hi => ?_
      rw [mem_range'_1] at hi
      exact if_neg (by omega)
    · rw [← map_take, take_range'_of_length_ge (by omega), List.range'_eq_map_range,
        List.range'_eq_map_range, List.map_map, List.map_map]
      refine map_congr_left fun i hi => ?_
      rw [mem_range] at hi
      simp only [Function.comp]
      rw [if_pos (by omega), Nat.add_sub_cancel_left]
  · simp only [bytes, hd, update_self, update_of_ne hbn,
      update_of_ne hdn, ← map_drop, drop_range', Nat.sub_add_eq, mul_one]

/-- The fields that `freeb(b)` leaves alone are the same. -/
structure SameBut (b : M) (s t : Pool M D) : Prop where
  cont : t.cont = s.cont
  dbType : t.dbType = s.dbType
  datap : ∀ c ≠ b, t.datap c = s.datap c
  rptr : t.rptr = s.rptr
  wptr : t.wptr = s.wptr
  data : t.data = s.data

theorem sameBut_freeb (s : Pool M D) (b : M) : SameBut b s (s.freeb b) := by
  unfold freeb
  split
  · exact ⟨rfl, rfl, fun _ _ => rfl, rfl, rfl, rfl⟩
  · have hup : ∀ c ≠ b, update s.datap b none c = s.datap c :=
      fun c hc => update_of_ne hc _ _
    dsimp only
    split <;> exact ⟨rfl, rfl, hup, rfl, rfl, rfl⟩

omit [DecidableEq M] [DecidableEq D] in
theorem bytes_same (hdatap : t.datap b = s.datap b)
    (hdata : ∀ d, s.datap b = some d → t.data d = s.data d) (hr : t.rptr b = s.rptr b)
    (hw : t.wptr b = s.wptr b) : t.bytes b = s.bytes b := by
  rw [bytes, bytes, hdatap, hr, hw]
  cases hd : s.datap b with
  | none => rfl
  | some d =>
    dsimp only
    rw [hdata d hd]

omit [DecidableEq D] in
/-- What a turn does not touch is as before. -/
theorem Copied.bytes_eq (h : Copied b nbp nd n s t) (hu : SameBut b t u) {c : M} (hcb : c ≠ b)
    (hcn : c ≠ nbp) (hc : ∀ d, s.datap c = some d → d ≠ nd) : u.bytes c = s.bytes c := by
  refine bytes_same ?_ (fun d hd => ?_) ?_ ?_
  · rw [hu.datap c hcb, h.datap]
  · rw [hu.data, h.data d (hc d hd)]
  · rw [hu.rptr, h.rptr, update_of_ne hcb]
  · rw [hu.wptr, h.wptr, update_of_ne hcn]

omit [DecidableEq D] in
theorem Copied.content_eq (h : Copied b nbp nd n s t) (hu : SameBut b t u) (hnot : b ∉ bs)
    (hbs : ∀ c ∈ bs, s.Ready nbp nd c) : u.content bs = s.content bs := by
  refine flatMap_congr fun c hc => ?_
  obtain ⟨hcn, d, hd, hdn, -⟩ := hbs c hc
  refine h.bytes_eq hu (ne_of_mem_of_not_mem hc hnot) hcn fun e he => ?_
  rw [hd] at he
  exact Option.some.inj he ▸ hdn

omit [DecidableEq D] in
/-- A block that is not touched stays ready. -/
theorem Copied.ready (h : Copied b nbp nd n s t) (hu : SameBut b t u) {c : M} (hcb : c ≠ b)
    (hc : s.Ready nbp nd c) : u.Ready nbp nd c := by
  obtain ⟨hcn, d, hd, hdn, hle, hsize⟩ := hc
  have hr : u.rptr c = s.rptr c := by rw [hu.rptr, h.rptr, update_of_ne hcb]
  have hw : u.wptr c = s.wptr c := by rw [hu.wptr, h.wptr, update_of_ne hcn]
  refine ⟨hcn, d, by rw [hu.datap c hcb, h.datap, hd], hdn, by rw [hr, hw]; exact hle, ?_⟩
  rw [blk, hr, hw]
  exact hsize

end turn

/-! ## The loop -/

section loop

variable {s t u v : Pool M D} {b mp nbp : M} {d nd : D} {fuel : ℕ} {len : ℤ}
variable {l bs left rest : List M} {first bp : Option M}

/-- `len` bytes have been copied from the blocks `bs` to the new block, and what is left is in
the blocks `left` of them. -/
structure Pulled (nbp : M) (nd : D) (bs left : List M) (len : ℤ) (s u : Pool M D) : Prop where
  cont : u.cont = s.cont
  dbType : u.dbType = s.dbType
  datap : ∀ b, b ∉ bs ∨ b ∈ left → u.datap b = s.datap b
  rptr : ∀ b ∉ bs, u.rptr b = s.rptr b
  wptr : ∀ b ≠ nbp, u.wptr b = s.wptr b
  data : ∀ d ≠ nd, u.data d = s.data d
  new : u.bytes nbp = s.bytes nbp ++ (s.content bs).take len.toNat
  left : u.content left = (s.content bs).drop len.toNat

omit [DecidableEq M] [DecidableEq D] in
theorem Pulled.zero (nbp : M) (nd : D) (bs : List M) (s : Pool M D) : Pulled nbp nd bs bs 0 s s :=
  ⟨rfl, rfl, fun _ _ => rfl, fun _ _ => rfl, fun _ _ => rfl, fun _ _ => rfl,
    (append_nil _).symm, rfl⟩

theorem pullLoop_zero (mp nbp : M) (fuel : ℕ) (bp : Option M) (s : Pool M D) :
    pullLoop mp nbp fuel bp 0 s = some (bp, s) := by
  cases fuel <;> simp [pullLoop]

theorem pullLoop_mono {r : Option M × Pool M D} (h : pullLoop mp nbp fuel bp len s = some r)
    {fuel' : ℕ} (hf : fuel ≤ fuel') : pullLoop mp nbp fuel' bp len s = some r := by
  induction fuel generalizing bp len s fuel' with
  | zero =>
    by_cases hz : len = 0
    · subst hz
      rw [pullLoop_zero] at h ⊢
      exact h
    · rw [pullLoop, if_neg hz] at h
      cases h
  | succ fuel ih =>
    obtain ⟨fuel', rfl⟩ : ∃ k, fuel' = k + 1 := ⟨fuel' - 1, by omega⟩
    by_cases hz : len = 0
    · subst hz
      rw [pullLoop_zero] at h ⊢
      exact h
    rw [pullLoop, if_neg hz] at h ⊢
    cases bp with
    | none => cases h
    | some b =>
      rw [bind_some] at h ⊢
      cases hn : mathMin (s.blk b) len with
      | none =>
        rw [hn] at h
        cases h
      | some n =>
        rw [hn, bind_some] at h
        rw [bind_some]
        by_cases hneg : n < 0
        · rw [if_pos hneg] at h
          cases h
        rw [if_neg hneg] at h ⊢
        obtain ⟨t, ht, h⟩ := bind_eq_some_iff.1 h
        rw [ht, bind_some]
        by_cases hptr : t.rptr b ≠ t.wptr b
        · rwa [if_pos hptr] at h ⊢
        · rw [if_neg hptr] at h ⊢
          exact ih h (Nat.le_of_succ_le_succ hf)

/-- A turn on a block that is ready. -/
theorem pullLoop_turn (mp : M) (hb : s.Ready nbp nd b) (hnd : s.datap nbp = some nd)
    (hle : s.rptr nbp ≤ s.wptr nbp) (h0 : 0 < len) (hint : len < 2 ^ 31) (fuel : ℕ) :
    ∃ n : ℕ, (n : ℤ) = min (s.blk b) len ∧ ∃ t, Copied b nbp nd n s t ∧
      pullLoop mp nbp (fuel + 1) (some b) len s =
        if (n : ℤ) < s.blk b then some (some b, t)
        else pullLoop mp nbp fuel (s.cont b) (len - n) (if b ≠ mp then t.freeb b else t) := by
  obtain ⟨hbn, d, hd, hdn, hrw, hsize⟩ := id hb
  have hblk : 0 ≤ s.blk b := by unfold blk; omega
  obtain ⟨n, hn⟩ : ∃ n : ℕ, (n : ℤ) = min (s.blk b) len :=
    ⟨(min (s.blk b) len).toNat, by omega⟩
  obtain ⟨t, ht, hcopied⟩ := copied_pull hb hnd hle (n := n) (by omega)
  refine ⟨n, hn, t, hcopied, ?_⟩
  have hptr : t.rptr b ≠ t.wptr b ↔ (n : ℤ) < s.blk b := by
    rw [hcopied.rptr, hcopied.wptr, update_self, update_of_ne hbn]
    unfold blk at hn ⊢
    omega
  rw [pullLoop, if_neg (by omega), bind_some, mathMin_eq hblk hsize (by omega) hint, ← hn,
    bind_some, if_neg (by omega), Int.toNat_natCast, ht, bind_some, hcopied.cont]
  simp only [hptr]

omit [DecidableEq D] in
/-- A block whose bytes were all copied, and what is pulled from the blocks behind it. -/
theorem Pulled.cons {n : ℕ} (hb : s.Ready nbp nd b) (hbs : ∀ c ∈ bs, s.Ready nbp nd c)
    (hnot : b ∉ bs) (hc : Copied b nbp nd n s t) (hu : SameBut b t u) (hn : (n : ℤ) = s.blk b)
    (hlen : s.blk b ≤ len) (h : Pulled nbp nd bs left (len - n) u v) (hleft : ∀ c ∈ left, c ∈ bs) :
    Pulled nbp nd (b :: bs) left len s v := by
  obtain ⟨hbn, d, hd, hdn, hle, -⟩ := id hb
  have hlb := length_bytes hd
  have hbs' := hc.content_eq hu hnot hbs
  have hub : u.bytes nbp = t.bytes nbp := by
    refine bytes_same (hu.datap nbp hbn.symm) (fun d _ => by rw [hu.data]) (by rw [hu.rptr])
      (by rw [hu.wptr])
  unfold blk at hn hlen
  refine ⟨by rw [h.cont, hu.cont, hc.cont], by rw [h.dbType, hu.dbType, hc.dbType],
    fun c hcm => ?_, fun c hcm => ?_, fun c hcm => ?_, fun d' hd' => ?_, ?_, ?_⟩
  · have hcb : c ≠ b := by
      rintro rfl
      rcases hcm with hcm | hcm
      · exact hcm mem_cons_self
      · exact hnot (hleft c hcm)
    rw [h.datap c (hcm.imp_left fun hm hc => hm (mem_cons_of_mem _ hc)), hu.datap c hcb,
      hc.datap]
  · have hcb : c ≠ b := fun e => hcm (e ▸ mem_cons_self)
    rw [h.rptr c fun hm => hcm (mem_cons_of_mem _ hm), hu.rptr, hc.rptr,
      update_of_ne hcb]
  · rw [h.wptr c hcm, hu.wptr, hc.wptr, update_of_ne hcm]
  · rw [h.data d' hd', hu.data, hc.data d' hd']
  · rw [h.new, hub, hc.new, hbs', content_cons, append_assoc, take_append,
      take_of_length_le (l := s.bytes b) (i := n) (by omega),
      take_of_length_le (l := s.bytes b) (by omega),
      show (len - n).toNat = len.toNat - (s.bytes b).length by omega]
  · rw [h.left, hbs', content_cons, drop_append,
      drop_eq_nil_of_le (show (s.bytes b).length ≤ len.toNat by omega),
      nil_append, show (len - n).toNat = len.toNat - (s.bytes b).length by omega]

omit [DecidableEq D] in
/-- A block of which a part was copied. -/
theorem Pulled.part {n : ℕ} (hb : s.Ready nbp nd b) (hbs : ∀ c ∈ bs, s.Ready nbp nd c)
    (hnot : b ∉ bs) (hc : Copied b nbp nd n s t) (hn : (n : ℤ) = len) (hlt : len < s.blk b) :
    Pulled nbp nd (b :: bs) (b :: bs) len s t := by
  obtain ⟨hbn, d, hd, hdn, hle, -⟩ := id hb
  have hlb := length_bytes hd
  have hself : SameBut b t t := ⟨rfl, rfl, fun _ _ => rfl, rfl, rfl, rfl⟩
  have hbs' := hc.content_eq hself hnot hbs
  unfold blk at hlt
  refine ⟨hc.cont, hc.dbType, fun c _ => by rw [hc.datap], fun c hcm => ?_, fun c hcm => ?_,
    hc.data, ?_, ?_⟩
  · rw [hc.rptr, update_of_ne (ne_of_not_mem_cons hcm)]
  · rw [hc.wptr, update_of_ne hcm]
  · rw [hc.new, content_cons, take_append_of_le_length (by omega), ← hn, Int.toNat_natCast]
  · rw [content_cons, content_cons, hc.left, hbs', drop_append_of_le_length (by omega), ← hn,
      Int.toNat_natCast]

/-- **The loop** over blocks behind the head. -/
theorem pullLoop_spec (hl : Lib.Linked s.cont first (bs ++ rest)) (hnd : bs.Nodup)
    (hmp : mp ∉ bs) (hbs : ∀ b ∈ bs, s.Ready nbp nd b) (hnew : s.datap nbp = some nd)
    (hle : s.rptr nbp ≤ s.wptr nbp) (h0 : 0 ≤ len) (hint : len < 2 ^ 31)
    (hlen : len ≤ (s.content bs).length) (hf : bs.length ≤ fuel) :
    ∃ bp u done left, pullLoop mp nbp fuel first len s = some (bp, u) ∧ bs = done ++ left ∧
      Lib.Linked s.cont bp (left ++ rest) ∧ Pulled nbp nd bs left len s u := by
  induction bs generalizing s first len fuel with
  | nil =>
    obtain rfl : len = 0 := by
      simp only [content, flatMap_nil, length_nil] at hlen
      omega
    exact ⟨first, s, [], [], pullLoop_zero .., rfl, hl, Pulled.zero ..⟩
  | cons b bs ih =>
    by_cases hz : len = 0
    · subst hz
      exact ⟨first, s, [], b :: bs, pullLoop_zero .., rfl, hl, Pulled.zero ..⟩
    obtain ⟨rfl, hl⟩ := hl
    obtain ⟨hnot, hnd⟩ := nodup_cons.1 hnd
    obtain ⟨hmb, hmp⟩ := not_or.1 (fun h => hmp (mem_cons.2 h))
    obtain ⟨hb, hbs⟩ := forall_mem_cons.1 hbs
    obtain ⟨fuel, rfl⟩ : ∃ k, fuel = k + 1 := ⟨fuel - 1, by simp at hf; omega⟩
    obtain ⟨n, hn, t, hc, hturn⟩ := pullLoop_turn mp hb hnew hle (by omega) hint fuel
    split at hturn
    · exact ⟨some b, t, [], b :: bs, hturn, rfl, ⟨rfl, hl⟩,
        Pulled.part hb hbs hnot hc (by omega) (by omega)⟩
    · rw [if_pos (Ne.symm hmb)] at hturn
      have hu := sameBut_freeb t b
      obtain ⟨hbn, d, hd, hdn, hrw, -⟩ := id hb
      have hlb := length_bytes hd
      have hbs' := hc.content_eq hu hnot hbs
      have hwn : (t.freeb b).wptr nbp = s.wptr nbp + n := by
        rw [hu.wptr, hc.wptr, update_self]
      have hrn : (t.freeb b).rptr nbp = s.rptr nbp := by
        rw [hu.rptr, hc.rptr, update_of_ne hbn.symm]
      rw [content_cons, length_append] at hlen
      have hcont : (t.freeb b).cont = s.cont := by rw [hu.cont, hc.cont]
      have hblk : s.blk b = (s.bytes b).length := by unfold blk; omega
      have hl' : Lib.Linked (t.freeb b).cont (s.cont b) (bs ++ rest) := by rwa [hcont]
      obtain ⟨bp, u, done, left, hrun, rfl, hlink, hpulled⟩ := ih hl' hnd hmp
        (fun c hcm => hc.ready hu (ne_of_mem_of_not_mem hcm hnot) (hbs c hcm))
        (by rw [hu.datap nbp hbn.symm, hc.datap, hnew]) (by omega) (by omega : 0 ≤ len - n)
        (by omega) (by rw [hbs']; push_cast at hlen; omega) (Nat.le_of_succ_le_succ hf)
      refine ⟨bp, u, b :: done, left, by rw [hturn, hrun], rfl, by rwa [hcont] at hlink, ?_⟩
      exact hpulled.cons hb hbs hnot hc hu (by omega) (by omega)
        fun c hcm => mem_append_right _ hcm

/-- **The loop** from the head on: it stops in the head, which has data left, or behind it. -/
theorem pullLoop_head (hl : Lib.Linked s.cont (some mp) (mp :: bs ++ rest))
    (hnd : (mp :: bs).Nodup) (hbs : ∀ b ∈ mp :: bs, s.Ready nbp nd b) (hnew : s.datap nbp = some nd)
    (hle : s.rptr nbp ≤ s.wptr nbp) (h0 : 0 ≤ len) (hint : len < 2 ^ 31)
    (hlen : len ≤ (s.content (mp :: bs)).length) (hsome : len ≠ 0 ∨ s.blk mp ≠ 0)
    (hf : (mp :: bs).length ≤ fuel) :
    ∃ bp u, pullLoop mp nbp fuel (some mp) len s = some (bp, u) ∧
      (u.rptr mp ≠ u.wptr mp ∧ Pulled nbp nd (mp :: bs) (mp :: bs) len s u ∨
        u.rptr mp = u.wptr mp ∧ ∃ done left, bs = done ++ left ∧
          Lib.Linked s.cont bp (left ++ rest) ∧ Pulled nbp nd (mp :: bs) left len s u) := by
  obtain ⟨-, hl⟩ := hl
  obtain ⟨hnot, hnd⟩ := nodup_cons.1 hnd
  obtain ⟨hb, hbs⟩ := forall_mem_cons.1 hbs
  by_cases hz : len = 0
  · subst hz
    refine ⟨some mp, s, pullLoop_zero .., .inl ⟨fun he => ?_, Pulled.zero ..⟩⟩
    unfold blk at hsome
    omega
  obtain ⟨fuel, rfl⟩ : ∃ k, fuel = k + 1 := ⟨fuel - 1, by simp at hf; omega⟩
  obtain ⟨n, hn, t, hc, hturn⟩ := pullLoop_turn mp hb hnew hle (by omega) hint fuel
  obtain ⟨hbn, d, hd, hdn, hrw, -⟩ := id hb
  have hlb := length_bytes hd
  have hblk : s.blk mp = (s.bytes mp).length := by unfold blk; omega
  have hr : t.rptr mp = s.rptr mp + n := by rw [hc.rptr, update_self]
  have hw : t.wptr mp = s.wptr mp := by rw [hc.wptr, update_of_ne hbn]
  split at hturn
  · refine ⟨some mp, t, hturn, .inl ⟨?_, Pulled.part hb hbs hnot hc (by omega) (by omega)⟩⟩
    omega
  · rw [if_neg (not_not.2 rfl)] at hturn
    have hu : SameBut mp t t := ⟨rfl, rfl, fun _ _ => rfl, rfl, rfl, rfl⟩
    have hbs' := hc.content_eq hu hnot hbs
    have hwn : t.wptr nbp = s.wptr nbp + n := by rw [hc.wptr, update_self]
    have hrn : t.rptr nbp = s.rptr nbp := by rw [hc.rptr, update_of_ne hbn.symm]
    rw [content_cons, length_append] at hlen
    have hl' : Lib.Linked t.cont (s.cont mp) (bs ++ rest) := by rwa [hc.cont]
    obtain ⟨bp, u, done, left, hrun, rfl, hlink, hpulled⟩ := pullLoop_spec hl' hnd hnot
      (fun c hcm => hc.ready hu (ne_of_mem_of_not_mem hcm hnot) (hbs c hcm))
      (by rw [hc.datap, hnew]) (by omega) (by omega : 0 ≤ len - n)
      (by omega) (by rw [hbs']; push_cast at hlen; omega) (Nat.le_of_succ_le_succ hf)
    have hru : u.rptr mp = t.rptr mp := hpulled.rptr mp hnot
    have hwu : u.wptr mp = t.wptr mp := hpulled.wptr mp hbn
    refine ⟨bp, u, by rw [hturn, hrun], .inr ⟨by omega, done, left, rfl, ?_, ?_⟩⟩
    · rwa [hc.cont] at hlink
    · exact hpulled.cons hb hbs hnot hc hu (by omega) (by omega)
        fun c hcm => mem_append_right _ hcm

end loop

/-! ## The allocation and the exchange -/

section exchange

variable {s t u v : Pool M D} {b mp nbp tmp : M} {d nd : D} {fuel : ℕ} {len : ℤ}
variable {l bs left rest : List M} {first bp : Option M}

/-- A new block, the first of the free list, with a free data block. -/
structure Fresh (nbp : M) (nd : D) (s u : Pool M D) : Prop where
  free : s.mbfreelist = nbp :: u.mbfreelist
  data_free : ∃ c, nd ∈ s.dbfreelist c
  cont : u.cont = update s.cont nbp none
  datap : u.datap = update s.datap nbp (some nd)
  rptr : u.rptr = update s.rptr nbp 0
  wptr : u.wptr = update s.wptr nbp 0
  dbType : u.dbType = update s.dbType nd M_DATA
  data : u.data = s.data

theorem fresh_allocb {size : ℤ} {pri : ℕ} (h : s.allocb size pri = some (nbp, u)) :
    ∃ nd, Fresh nbp nd s u := by
  have hgot : ∀ c d, s.offer pri c = some d → s.gotdp c d = some (nbp, u) → Fresh nbp d s u := by
    intro c d hd hg
    obtain ⟨tail, hlist⟩ := List.head?_eq_some_iff.1 (head_of_offer hd)
    unfold gotdp at hg
    split at hg
    · cases hg
    · next hmb =>
      cases hg
      exact ⟨hmb, ⟨c, by rw [hlist]; exact mem_cons_self⟩, rfl, rfl, rfl, rfl, rfl, rfl⟩
  unfold allocb at h
  obtain ⟨c, -, h⟩ := bind_eq_some_iff.1 h
  split at h
  · next d hd => exact ⟨d, hgot c d hd h⟩
  · split at h
    · obtain ⟨d, hd, h⟩ := bind_eq_some_iff.1 h
      exact ⟨d, hgot _ d hd h⟩
    · cases h

omit [DecidableEq M] [DecidableEq D] in
/-- The leading blocks of a list. -/
theorem lead_eq (hbs : ∀ b ∈ bs, s.typeOf b = s.typeOf mp)
    (hrest : ∀ b, rest.head? = some b → s.typeOf b ≠ s.typeOf mp) :
    s.lead (mp :: bs ++ rest) = mp :: bs := by
  unfold lead
  rw [cons_append, List.head?_cons, bind_some, ← cons_append,
    takeWhile_append_of_pos fun b hb => ?_]
  · cases rest with
    | nil => simp
    | cons b rest => rw [takeWhile_cons_of_neg (by simpa using hrest b rfl), append_nil]
  · rcases mem_cons.1 hb with rfl | hb
    · exact decide_eq_true rfl
    · exact decide_eq_true (hbs b hb)

omit [DecidableEq M] [DecidableEq D] in
/-- A message is its leading blocks and the rest. -/
theorem lead_split (mp : M) (l : List M) : ∃ bs rest, mp :: l = mp :: bs ++ rest ∧
    s.lead (mp :: l) = mp :: bs ∧ (∀ b ∈ bs, s.typeOf b = s.typeOf mp) ∧
    ∀ b, rest.head? = some b → s.typeOf b ≠ s.typeOf mp := by
  refine ⟨l.takeWhile fun b => s.typeOf b = s.typeOf mp,
    l.dropWhile fun b => s.typeOf b = s.typeOf mp, ?_, ?_, fun b hb => ?_, fun b hb => ?_⟩
  · rw [cons_append, takeWhile_append_dropWhile]
  · unfold lead
    rw [List.head?_cons, bind_some, takeWhile_cons_of_pos (by simp)]
  · simpa using mem_takeWhile_imp hb
  · have := List.head?_dropWhile_not (fun b => decide (s.typeOf b = s.typeOf mp)) l
    rw [hb] at this
    simpa using this

/-- The head is the new block, and `tmp` is the old head where that has data left. -/
structure Exchanged (mp tmp nbp : M) (bp : Option M) (v t : Pool M D) : Prop where
  rptr_mp : t.rptr mp = v.rptr nbp
  wptr_mp : t.wptr mp = v.wptr nbp
  datap_mp : t.datap mp = v.datap nbp
  cont_mp : t.cont mp = if v.rptr mp ≠ v.wptr mp then some tmp else bp
  rptr_tmp : t.rptr tmp = v.rptr mp
  wptr_tmp : t.wptr tmp = v.wptr mp
  datap_tmp : v.rptr mp ≠ v.wptr mp → t.datap tmp = v.datap mp
  cont_tmp : t.cont tmp = v.cont mp
  data : t.data = v.data
  dbType : t.dbType = v.dbType
  rest : ∀ b, b ≠ mp → b ≠ tmp → b ≠ nbp → t.cont b = v.cont b ∧ t.datap b = v.datap b ∧
    t.rptr b = v.rptr b ∧ t.wptr b = v.wptr b

theorem exchanged_interchange (hmt : mp ≠ tmp) (hmn : mp ≠ nbp) (htn : tmp ≠ nbp) (bp : Option M)
    (v : Pool M D) : Exchanged mp tmp nbp bp v (v.interchange mp tmp nbp bp) := by
  by_cases h : v.rptr mp ≠ v.wptr mp
  · have hif : (v.exchange mp tmp nbp).rptr tmp ≠ (v.exchange mp tmp nbp).wptr tmp := by
      simpa [exchange, update_of_ne hmt.symm] using h
    simp only [interchange, if_pos hif]
    refine ⟨?_, ?_, ?_, ?_, ?_, ?_, fun _ => ?_, ?_, rfl, rfl, fun b hbm hbt hbn => ?_⟩ <;>
      simp [exchange, *, Ne.symm hmt, update_of_ne]
  · have hif : ¬ (v.exchange mp tmp nbp).rptr tmp ≠ (v.exchange mp tmp nbp).wptr tmp := by
      simpa [exchange, update_of_ne hmt.symm] using h
    simp only [interchange, if_neg hif]
    obtain ⟨w, hw⟩ : ∃ w : Pool M D, w = { v.exchange mp tmp nbp with
      cont := update (v.exchange mp tmp nbp).cont mp bp } := ⟨_, rfl⟩
    rw [← hw]
    have hs := sameBut_freeb w tmp
    refine ⟨?_, ?_, ?_, ?_, ?_, ?_, fun h' => absurd h' h, ?_, hs.data.trans (by rw [hw]; rfl),
      hs.dbType.trans (by rw [hw]; rfl), fun b hbm hbt hbn => ?_⟩
    · exact (congrFun hs.rptr mp).trans (by simp [hw, exchange])
    · exact (congrFun hs.wptr mp).trans (by simp [hw, exchange])
    · exact (hs.datap mp hmt).trans (by simp [hw, exchange, update_of_ne hmn])
    · exact (congrFun hs.cont mp).trans (by simp [hw, h])
    · exact (congrFun hs.rptr tmp).trans (by simp [hw, exchange, update_of_ne hmt.symm])
    · exact (congrFun hs.wptr tmp).trans (by simp [hw, exchange, update_of_ne hmt.symm])
    · exact (congrFun hs.cont tmp).trans (by simp [hw, exchange, update_of_ne hmt.symm])
    · refine ⟨(congrFun hs.cont b).trans ?_, (hs.datap b hbt).trans ?_,
        (congrFun hs.rptr b).trans ?_, (congrFun hs.wptr b).trans ?_⟩ <;>
        simp [exchange, update_of_ne, *]

omit [DecidableEq M] [DecidableEq D] in
/-- A block with the pointers and the data block of another. -/
theorem bytes_moved {c : M} (hdatap : t.datap c = s.datap b) (hdata : t.data = s.data)
    (hr : t.rptr c = s.rptr b) (hw : t.wptr c = s.wptr b) : t.bytes c = s.bytes b := by
  rw [bytes, bytes, hdatap, hdata, hr, hw]

/-- The pool with the new block, before the loop. -/
structure Prepared (mp nbp : M) (nd : D) (l : List M) (s w : Pool M D) : Prop where
  linked : Lib.Linked w.cont (some mp) l
  ready : ∀ b ∈ l, w.Ready nbp nd b
  new : w.datap nbp = some nd
  rptr_new : w.rptr nbp = 0
  wptr_new : w.wptr nbp = 0
  typeOf : ∀ b ∈ l, w.typeOf b = s.typeOf b
  type_new : some (w.dbType nd) = s.typeOf mp
  bytes : ∀ b ∈ l, w.bytes b = s.bytes b
  datap : ∀ b ∈ l, w.datap b = s.datap b
  rptr : ∀ b ∈ l, w.rptr b = s.rptr b
  wptr : ∀ b ∈ l, w.wptr b = s.wptr b
  cont : ∀ b ∈ l, w.cont b = s.cont b

theorem prepared (h : s.Live mp l) {free : List M} (hmb : s.mbfreelist = tmp :: free)
    (hf : Fresh nbp nd { s with mbfreelist := free } u) (hd : s.datap mp = some d) :
    Prepared mp nbp nd l s { u with dbType := update u.dbType nd (u.dbType d) } := by
  have hnbp : nbp ∈ s.mbfreelist := by
    have hfree : free = nbp :: u.mbfreelist := hf.free
    rw [hmb, hfree]
    simp
  have hne : ∀ b ∈ l, b ≠ nbp := fun b hb he => h.not_free b hb (he ▸ hnbp)
  obtain ⟨c, hc⟩ := hf.data_free
  have hdn : ∀ b ∈ l, ∀ e, s.datap b = some e → e ≠ nd :=
    fun b hb e he hen => h.data_not_free b hb e he c (hen ▸ hc)
  have hmp : mp ∈ l := by
    obtain ⟨l', rfl, -⟩ := h.linked.pop
    exact mem_cons_self
  have hdatap : ∀ b ∈ l, u.datap b = s.datap b := fun b hb => by
    rw [hf.datap, update_of_ne (hne b hb)]
  have hrptr : ∀ b ∈ l, u.rptr b = s.rptr b := fun b hb => by
    rw [hf.rptr, update_of_ne (hne b hb)]
  have hwptr : ∀ b ∈ l, u.wptr b = s.wptr b := fun b hb => by
    rw [hf.wptr, update_of_ne (hne b hb)]
  have hcont : ∀ b ∈ l, u.cont b = s.cont b := fun b hb => by
    rw [hf.cont, update_of_ne (hne b hb)]
  have htype : ∀ e, e ≠ nd → u.dbType e = s.dbType e := fun e he => by
    rw [hf.dbType, update_of_ne he]
  refine ⟨h.linked.congr hcont, fun b hb => ?_, by rw [hf.datap, update_self],
    by rw [hf.rptr, update_self], by rw [hf.wptr, update_self],
    fun b hb => ?_, ?_, fun b hb => ?_, hdatap, hrptr, hwptr, hcont⟩
  · have hblk := (h.sound b hb).blk_bounds
    obtain ⟨e, he, hle, -⟩ := h.sound b hb
    refine ⟨hne b hb, e, (hdatap b hb).trans he, hdn b hb e he, ?_, ?_⟩
    · show u.rptr b ≤ u.wptr b
      rw [hrptr b hb, hwptr b hb]
      exact hle
    · show (u.wptr b : ℤ) - u.rptr b < 2 ^ 31
      rw [hrptr b hb, hwptr b hb]
      exact hblk.2
  · obtain ⟨e, he, -⟩ := h.sound b hb
    have hen := hdn b hb e he
    rw [Pool.typeOf, Pool.typeOf, hdatap b hb, he]
    simp only [map_some, update_of_ne hen, htype e hen]
  · rw [Pool.typeOf, hd]
    simp only [map_some, update_self, htype d (hdn mp hmp d hd)]
  · exact bytes_same (hdatap b hb) (fun e _ => by rw [hf.data]) (hrptr b hb) (hwptr b hb)

omit [DecidableEq M] [DecidableEq D] in
/-- What the exchange makes of the blocks the loop has left. -/
theorem whole_exchange {w : Pool M D} {m : List M} (hw : Prepared mp nbp nd (mp :: bs ++ rest) s w)
    (hnd : (mp :: bs ++ rest).Nodup) (hlead : s.lead (mp :: bs ++ rest) = mp :: bs)
    (hrest : ∀ b, rest.head? = some b → s.typeOf b ≠ s.typeOf mp)
    (hcont : w.content (mp :: bs) = s.content (mp :: bs))
    (hpulled : Pulled nbp nd (mp :: bs) left len w v)
    (ht : Exchanged mp tmp nbp bp v t) (hlink : Lib.Linked t.cont (some mp) (mp :: m ++ rest))
    (htype : ∀ b ∈ m, t.typeOf b = s.typeOf mp) (hm : t.content m = v.content left)
    (htmp : tmp ∉ rest) :
    s.Whole t mp (mp :: bs ++ rest) ∧
      t.bytes mp = (s.content (mp :: bs)).take len.toNat := by
  have hbm : t.bytes mp = (s.content (mp :: bs)).take len.toNat := by
    have hzero : w.bytes nbp = [] := by
      rw [bytes, hw.new, hw.rptr_new, hw.wptr_new]
      rfl
    rw [bytes_moved ht.datap_mp ht.data ht.rptr_mp ht.wptr_mp, hpulled.new, hzero, nil_append,
      hcont]
  have htm : t.typeOf mp = s.typeOf mp := by
    have hnew : v.datap nbp = some nd := by
      rw [hpulled.datap nbp (.inl fun hm => (hw.ready nbp (mem_append_left _ hm)).1 rfl)]
      exact hw.new
    rw [Pool.typeOf, ht.datap_mp, hnew, ht.dbType, hpulled.dbType]
    exact hw.type_new
  have hsame : ∀ b ∈ rest, s.SameBlock t b := fun b hb => by
    have hbl : b ∈ mp :: bs ++ rest := mem_append_right _ hb
    have hbs : b ∉ mp :: bs := fun hm => (nodup_append.1 hnd).2.2 b hm b hb rfl
    obtain ⟨hbn, d, hd, hdn, -⟩ := hw.ready b hbl
    obtain ⟨h1, h2, h3, h4⟩ := ht.rest b (ne_of_not_mem_cons hbs)
      (ne_of_mem_of_not_mem hb htmp) hbn
    have hdatap : t.datap b = w.datap b := by rw [h2, hpulled.datap b (.inl hbs)]
    refine ⟨by rw [h1, hpulled.cont, hw.cont b hbl], ?_,
      by rw [h3, hpulled.rptr b hbs, hw.rptr b hbl],
      by rw [h4, hpulled.wptr b hbn, hw.wptr b hbl], ?_⟩
    · rw [← hw.typeOf b hbl, Pool.typeOf, Pool.typeOf, hdatap, ht.dbType, hpulled.dbType]
    · rw [← hw.bytes b hbl]
      refine bytes_same hdatap (fun e he => ?_) (by rw [h3, hpulled.rptr b hbs])
        (by rw [h4, hpulled.wptr b hbn])
      rw [hd] at he
      rw [ht.data, hpulled.data e (Option.some.inj he ▸ hdn)]
  have hlead' : t.lead (mp :: m ++ rest) = mp :: m := by
    refine lead_eq (fun b hb => (htype b hb).trans htm.symm) fun b hb => ?_
    rw [(hsame b (mem_of_head? hb)).typeOf, htm]
    exact hrest b hb
  refine ⟨⟨_, hlink, ?_, rest, by rw [hlead], by rw [hlead'], hsame⟩, hbm⟩
  rw [hlead', hlead, content_cons, hbm, hm, hpulled.left, hcont, take_append_drop]

end exchange

/-! ## `pullupmsg` -/

section pullup

variable {s t u : Pool M D} {b mp nbp tmp : M} {d nd : D} {fuel : ℕ} {len : ℤ} {l free : List M}

theorem long_le (n : ℕ) : long n ≤ n := by
  unfold long
  rw [Int.bmod_def]
  split <;> omega

theorem pullup_eq (h : s.Live mp l) (hmb : s.mbfreelist = tmp :: free)
    (halloc : { s with mbfreelist := free }.allocb len BPRI_MED = some (nbp, u)) :
    ∃ nd w, Prepared mp nbp nd l s w ∧ mp ≠ tmp ∧ tmp ≠ nbp ∧ ∀ fuel, s.pullup fuel mp len =
      (pullLoop mp nbp fuel (some mp) len w).map fun r => (1, r.2.interchange mp tmp nbp r.1) := by
  obtain ⟨nd, hf⟩ := fresh_allocb halloc
  have hmp : mp ∈ l := by
    obtain ⟨l', rfl, -⟩ := h.linked.pop
    exact mem_cons_self
  obtain ⟨d, hd, -⟩ := h.sound mp hmp
  have hw := prepared h hmb hf hd
  have hfree : free = nbp :: u.mbfreelist := hf.free
  have hnodup := h.mb_nodup
  rw [hmb, hfree] at hnodup
  have hnot := h.not_free mp hmp
  rw [hmb] at hnot
  refine ⟨nd, _, hw, ne_of_not_mem_cons hnot,
    ne_of_not_mem_cons (nodup_cons.1 hnodup).1, fun fuel => ?_⟩
  have hud : u.datap mp = some d := (hw.datap mp hmp).trans hd
  have hun : u.datap nbp = some nd := hw.new
  rw [pullup]
  split
  next hnil => rw [hmb] at hnil; cases hnil
  next tmp' free' hcons =>
    rw [hmb] at hcons
    obtain ⟨rfl, rfl⟩ := List.cons.inj hcons
    simp only [halloc, hud, hun, bind_some]

theorem pullup_spec (h : s.Live mp l) (hmb : s.mbfreelist = tmp :: free)
    (halloc : { s with mbfreelist := free }.allocb len BPRI_MED = some (nbp, u)) (h0 : 0 ≤ len)
    (hint : len < 2 ^ 31) (hlen : len ≤ (s.content (s.lead l)).length)
    (hsome : len ≠ 0 ∨ s.blk mp ≠ 0) :
    ∃ t, (∀ fuel, l.length ≤ fuel → s.pullup fuel mp len = some (1, t)) ∧ s.Whole t mp l ∧
      t.bytes mp = (s.content (s.lead l)).take len.toNat := by
  obtain ⟨nd, w, hw, hmt, htn, hrun⟩ := pullup_eq h hmb halloc
  obtain ⟨l', rfl, -⟩ := h.linked.pop
  obtain ⟨bs, rest, hl, hlead, htype, hrest⟩ := lead_split (s := s) mp l'
  rw [hl] at h hw hlead ⊢
  rw [hl, hlead] at hlen
  have hmp : mp ∈ mp :: bs ++ rest := by simp
  have hsub : ∀ b ∈ mp :: bs, b ∈ mp :: bs ++ rest := fun b hb => mem_append_left _ hb
  have hcont : w.content (mp :: bs) = s.content (mp :: bs) :=
    flatMap_congr fun b hb => hw.bytes b (hsub b hb)
  have hblk : w.blk mp = s.blk mp := by rw [blk, blk, hw.rptr mp hmp, hw.wptr mp hmp]
  have htmp : tmp ∉ mp :: bs ++ rest := fun hm => h.not_free tmp hm (by rw [hmb]; simp)
  have hshort : (mp :: bs).length ≤ (mp :: bs ++ rest).length := by simp
  obtain ⟨bp, v, hloop, hcase⟩ := pullLoop_head hw.linked
    (h.nodup.sublist (sublist_append_left _ _)) (fun b hb => hw.ready b (hsub b hb)) hw.new
    (by rw [hw.rptr_new, hw.wptr_new]) h0 hint (by rw [hcont]; exact hlen) (by rwa [hblk]) hshort
  obtain ⟨t, ht⟩ : ∃ t, t = v.interchange mp tmp nbp bp := ⟨_, rfl⟩
  have he := exchanged_interchange hmt (hw.ready mp hmp).1 htn bp v
  rw [← ht] at he
  refine ⟨t, fun fuel hfuel => ?_, ?_⟩
  · rw [hrun, pullLoop_mono hloop hfuel, ht]
    rfl
  rw [hlead]
  have hnot : mp ∉ bs ++ rest := (nodup_cons.1 h.nodup).1
  have hother : ∀ b ∈ bs ++ rest, t.cont b = v.cont b ∧ t.datap b = v.datap b ∧
      t.rptr b = v.rptr b ∧ t.wptr b = v.wptr b := fun b hb =>
    he.rest b (ne_of_mem_of_not_mem hb hnot)
      (ne_of_mem_of_not_mem (mem_cons_of_mem mp hb) htmp)
      (hw.ready b (mem_cons_of_mem mp hb)).1
  have htmp' : tmp ∉ rest := fun hm => htmp (mem_append_right _ hm)
  have hbytes : ∀ b ∈ bs, t.bytes b = v.bytes b := fun b hb => by
    obtain ⟨-, h2, h3, h4⟩ := hother b (mem_append_left _ hb)
    exact bytes_moved h2 he.data h3 h4
  rcases hcase with ⟨hne, hpulled⟩ | ⟨heq, done, left, rfl, hlink, hpulled⟩
  · have htypes : ∀ b ∈ mp :: bs, ∀ c, t.datap c = v.datap b → t.typeOf c = s.typeOf mp := by
      intro b hb c hc
      have hsame : s.typeOf b = s.typeOf mp := by
        rcases mem_cons.1 hb with rfl | hb
        · rfl
        · exact htype b hb
      rw [Pool.typeOf, hc, hpulled.datap b (.inr hb), he.dbType, hpulled.dbType, ← hsame,
        ← hw.typeOf b (hsub b hb)]
      rfl
    refine whole_exchange (m := tmp :: bs) hw h.nodup hlead hrest hcont hpulled he
      ⟨rfl, ?_⟩ (fun b hb => ?_) ?_ htmp'
    · rw [he.cont_mp, if_pos hne]
      refine ⟨rfl, ?_⟩
      rw [he.cont_tmp, hpulled.cont]
      refine hw.linked.2.congr fun b hb => ?_
      rw [(hother b hb).1, hpulled.cont]
    · rcases mem_cons.1 hb with rfl | hb
      · exact htypes mp mem_cons_self _ (he.datap_tmp hne)
      · exact htypes b (mem_cons_of_mem _ hb) b (hother b (mem_append_left _ hb)).2.1
    · rw [content_cons, content_cons,
        bytes_moved (he.datap_tmp hne) he.data he.rptr_tmp he.wptr_tmp]
      exact congrArg _ (flatMap_congr hbytes)
  · have hleft : ∀ b ∈ left, b ∈ done ++ left := fun b hb => mem_append_right _ hb
    refine whole_exchange (m := left) hw h.nodup hlead hrest hcont hpulled he
      ⟨rfl, ?_⟩ (fun b hb => ?_) (flatMap_congr fun b hb => hbytes b (hleft b hb)) htmp'
    · rw [he.cont_mp, if_neg (not_not.2 heq)]
      refine hlink.congr fun b hb => ?_
      have hb' : b ∈ done ++ left ++ rest := by
        rw [append_assoc]
        exact mem_append_right _ hb
      rw [(hother b hb').1, hpulled.cont]
    · have hb' := hleft b hb
      rw [Pool.typeOf, (hother b (mem_append_left _ hb')).2.1, hpulled.datap b (.inr hb),
        he.dbType, hpulled.dbType, ← htype b hb',
        ← hw.typeOf b (hsub b (mem_cons_of_mem _ hb'))]
      rfl

omit [DecidableEq M] [DecidableEq D] in
theorem not_linked_self (h : t.cont mp = some mp) : ¬ ∃ l', Lib.Linked t.cont (some mp) l' := by
  rintro ⟨l', hl⟩
  obtain ⟨l'', rfl, hl'⟩ := hl.pop
  rw [h] at hl'
  have heq := hl.unique hl'
  have := congrArg List.length heq
  simp at this

/-- **Nothing to pull up and an empty head**: the head is linked to itself. -/
theorem head_cycle (h : s.Live mp l) (hmb : s.mbfreelist = tmp :: free)
    (halloc : { s with mbfreelist := free }.allocb 0 BPRI_MED = some (nbp, u)) (h0 : s.blk mp = 0)
    {r : ℤ} (hrun : s.pullup fuel mp 0 = some (r, t)) : t.cont mp = some mp := by
  obtain ⟨nd, w, hw, hmt, htn, hpull⟩ := pullup_eq h hmb halloc
  have hmp : mp ∈ l := by
    obtain ⟨l', rfl, -⟩ := h.linked.pop
    exact mem_cons_self
  rw [hpull, pullLoop_zero] at hrun
  obtain ⟨-, rfl⟩ := Prod.mk.inj (Option.some.inj hrun)
  have he := exchanged_interchange hmt (hw.ready mp hmp).1 htn (some mp) w
  rw [he.cont_mp, hw.rptr mp hmp, hw.wptr mp hmp]
  unfold blk at h0
  rw [if_neg (by omega)]

/-- **A negative size** does not get past `bcopy`. -/
theorem pullLoop_negative (hneg : len < 0) (hmp : 0 ≤ s.blk mp) (fuel : ℕ) :
    pullLoop mp nbp fuel (some mp) len s = none := by
  cases fuel with
  | zero => exact if_neg (by omega)
  | succ fuel =>
    rw [pullLoop, if_neg (by omega), bind_some, bind_eq_none_iff]
    intro n hn
    unfold mathMin at hn
    split at hn
    · rw [if_neg (by omega)] at hn
      obtain rfl := Option.some.inj hn
      rw [if_pos hneg]
    · cases hn

omit [DecidableEq M] [DecidableEq D] in
theorem whole_self (h : s.Message mp l) : s.Whole s mp l := by
  obtain ⟨rest, hrest⟩ := s.lead_prefix l
  exact ⟨l, h.linked, rfl, rest, hrest, hrest, fun b _ => ⟨rfl, rfl, rfl, rfl, rfl⟩⟩

theorem pullupmsg_undecided (h : s.Message mp l) (hu : s.Undecided mp l len)
    (hf : l.length ≤ fuel) : s.pullupmsg fuel mp len = s.pullup fuel mp (s.wanted l len) := by
  unfold pullupmsg wanted
  unfold Undecided at hu
  rw [xmsgsize_spec h hf]
  by_cases h1 : len = -1
  · rw [if_pos h1] at hu ⊢
    rw [if_neg hu, if_pos h1, bind_some]
  · rw [if_neg h1] at hu ⊢
    rw [if_neg hu.1, if_neg h1, bind_some, if_neg (not_lt.2 hu.2)]

/-- Where the first checks decide, the message is kept. -/
theorem keeps_decided (h : s.Message mp l) (hu : ¬ s.Undecided mp l len) : s.Keeps mp l len := by
  have hwhole := whole_self h
  have hmp : mp ∈ l := by
    obtain ⟨l', rfl, -⟩ := h.linked.pop
    exact mem_cons_self
  unfold Undecided at hu
  split_ifs at hu with h1
  · rw [not_not] at hu
    refine ⟨1, s, fun fuel hf => by rw [pullupmsg, if_pos h1, if_pos hu], .inl ⟨rfl, hwhole, ?_⟩⟩
    rw [if_pos h1]
    obtain ⟨l', rfl, hl'⟩ := h.linked.pop
    rw [hu.1] at hl'
    obtain rfl : l' = [] := by
      cases l' with
      | nil => rfl
      | cons b l' => cases hl'.1
    rw [show s.lead [mp] = [mp] by simp [lead]]
    exact (flatMap_singleton ..).symm
  · rw [not_and_or, not_not] at hu
    by_cases hq : s.blk mp ≥ len ∧ s.strAligned mp
    · refine ⟨1, s, fun fuel hf => by rw [pullupmsg, if_neg h1, if_pos hq], .inl ⟨rfl, hwhole, ?_⟩⟩
      rw [if_neg h1, (h.sound mp hmp).length_bytes]
      exact hq.1
    · refine ⟨0, s, fun fuel hf => ?_, .inr ⟨rfl, rfl⟩⟩
      rw [pullupmsg, if_neg h1, if_neg hq, xmsgsize_spec h hf, bind_some,
        if_pos (not_le.1 (hu.resolve_left hq))]

/-- **`pullupmsg` keeps the message** if and only if, where it copies, there is something to
copy or the head is not empty, and the size of the message is not lost in an `int`. -/
theorem pullupmsg_keeps (h : s.Live mp l) (hmin : -1 ≤ len) (hmax : len < 2 ^ 31) :
    s.Keeps mp l len ↔ s.Pullable mp l len := by
  have hmp : mp ∈ l := by
    obtain ⟨l', rfl, -⟩ := h.linked.pop
    exact mem_cons_self
  by_cases hu : s.Undecided mp l len
  swap
  · exact ⟨fun _ hr => absurd hr.1 hu, fun _ => keeps_decided h.toMessage hu⟩
  have heq : ∀ fuel, l.length ≤ fuel →
      s.pullupmsg fuel mp len = s.pullup fuel mp (s.wanted l len) :=
    fun fuel hf => pullupmsg_undecided h.toMessage hu hf
  have hsize : s.wanted l len ≤ (s.content (s.lead l)).length := by
    unfold wanted Undecided at *
    have := long_le (s.content (s.lead l)).length
    split
    · exact this
    · rw [if_neg ‹_›] at hu
      exact hu.2.trans this
  have hint : s.wanted l len < 2 ^ 31 := by
    unfold wanted
    split
    · exact (long_range _).2
    · exact hmax
  constructor
  · rintro ⟨r, t, hrun, hkeep⟩ ⟨-, tmp, free, hmb, halloc⟩
    obtain ⟨⟨nbp, u⟩, halloc⟩ := isSome_iff_exists.1 halloc
    have hrun := (heq _ le_rfl).symm.trans (hrun _ le_rfl)
    obtain ⟨nd, w, hw, -, -, hpull⟩ := pullup_eq h hmb halloc
    have hloop := hrun
    rw [hpull] at hloop
    obtain ⟨q, hloop, hq⟩ := map_eq_some_iff.1 hloop
    obtain ⟨rfl, -⟩ := Prod.mk.inj hq
    rcases hkeep with ⟨-, ⟨l', hl', -⟩, hbytes⟩ | ⟨h0, -⟩
    swap
    · cases h0
    have hsome : s.wanted l len ≠ 0 ∨ s.blk mp ≠ 0 := by
      by_contra hnone
      obtain ⟨hz, hblk⟩ := not_or.1 hnone
      rw [not_not] at hz hblk
      rw [hz] at halloc hrun
      exact not_linked_self (head_cycle h hmb halloc hblk hrun) ⟨l', hl'⟩
    refine ⟨hsome, fun h1 => ?_⟩
    by_cases hneg : s.wanted l len < 0
    · have hblk : 0 ≤ w.blk mp := by
        obtain ⟨-, d, -, -, hle, -⟩ := hw.ready mp hmp
        unfold blk
        omega
      rw [pullLoop_negative hneg hblk] at hloop
      cases hloop
    · obtain ⟨t', ht', -, hbytes'⟩ := pullup_spec h hmb halloc (not_lt.1 hneg) hint hsize hsome
      rw [ht' _ le_rfl] at hrun
      obtain ⟨-, rfl⟩ := Prod.mk.inj (Option.some.inj hrun)
      rw [if_pos h1, hbytes'] at hbytes
      have hlen := congrArg List.length hbytes
      rw [length_take] at hlen
      omega
  · intro hpullable
    cases hmb : s.mbfreelist with
    | nil =>
      refine ⟨0, s, fun fuel hf => ?_, .inr ⟨rfl, rfl⟩⟩
      rw [heq fuel hf, pullup]
      split
      · rfl
      next hcons => rw [hmb] at hcons; cases hcons
    | cons tmp free =>
      cases halloc : { s with mbfreelist := free }.allocb (s.wanted l len) BPRI_MED with
      | none =>
        refine ⟨0, s, fun fuel hf => ?_, .inr ⟨rfl, rfl⟩⟩
        rw [heq fuel hf, pullup]
        split
        · rfl
        next tmp' free' hcons =>
          rw [hmb] at hcons
          obtain ⟨rfl, rfl⟩ := List.cons.inj hcons
          simp only [halloc, ← hmb]
      | some r =>
        obtain ⟨nbp, u⟩ := r
        obtain ⟨hsome, hall⟩ := hpullable ⟨hu, tmp, free, hmb, by rw [halloc]; rfl⟩
        have h0 : 0 ≤ s.wanted l len := by
          by_cases h1 : len = -1
          · rw [hall h1]
            omega
          · rw [wanted, if_neg h1]
            omega
        obtain ⟨t, ht, hwhole, hbytes⟩ := pullup_spec h hmb halloc h0 hint hsize hsome
        refine ⟨1, t, fun fuel hf => by rw [heq fuel hf, ht fuel hf], .inl ⟨rfl, hwhole, ?_⟩⟩
        rw [hbytes]
        split
        next h1 => rw [take_of_length_le (by rw [hall h1]; omega)]
        next h1 =>
          rw [wanted, if_neg h1] at hsize ⊢
          rw [length_take]
          omega

/-- One block whose data is that of its data block from `r` to `w`, and two free blocks. -/
def headAt (r w : ℕ) : Pool (Fin 3) (Fin 2) where
  mbfreelist := [1, 2]
  dbfreelist c := if c = 0 then [1] else []
  cont _ := none
  datap b := if b = 0 then some 0 else none
  rptr _ := r
  wptr _ := w
  dbRef d := if d = 0 then 1 else 0
  dbType _ := M_DATA
  dbClass _ := 0
  dbSize _ := 4
  data _ _ := 0
  dbaCnt c := if c = 0 then 1 else 0
  dbaLo _ := 2
  dbaMed _ := 2
  nmblock := 3

theorem headAt_live {r w : ℕ} (hr : r ≤ w) (hw : w ≤ 4) : (headAt r w).Live 0 [0] where
  linked := ⟨rfl, rfl⟩
  nodup := by decide
  sound b hb := by
    obtain rfl := mem_singleton.1 hb
    exact ⟨0, rfl, hr, hw, le_rfl⟩
  mb_nodup := (by decide : [(1 : Fin 3), 2].Nodup)
  not_free b hb := by
    obtain rfl := mem_singleton.1 hb
    exact (by decide : (0 : Fin 3) ∉ [1, 2])
  data_not_free b hb d hd c := by
    obtain rfl := mem_singleton.1 hb
    obtain rfl : (0 : Fin 2) = d := Option.some.inj hd
    show (0 : Fin 2) ∉ if c = 0 then [1] else []
    split <;> decide

/-- Two bytes at an odd address are pulled up. -/
theorem pullupmsg_keeps_odd : (headAt 1 3).Keeps 0 [0] 2 ↔ (headAt 1 3).Pullable 0 [0] 2 :=
  pullupmsg_keeps (headAt_live (by decide) (by decide)) (by decide) (by decide)

/-- `pullupmsg(mp, 0)` of a message without data at an odd address makes a cycle. -/
theorem pullupmsg_cycles : ¬ ∀ (s : Pool (Fin 3) (Fin 2)) (mp : Fin 3) (l : List (Fin 3)) (len : ℤ),
    s.Live mp l → -1 ≤ len → len < 2 ^ 31 → s.Keeps mp l len := by
  intro hall
  have hlive := headAt_live (le_refl 1) (by decide)
  obtain ⟨r, t, hrun, hkeep⟩ := hall (headAt 1 1) 0 [0] 0 hlive (by decide) (by decide)
  have hpull : (headAt 1 1).pullup 1 0 0 = some (r, t) := hrun 1 le_rfl
  obtain ⟨⟨nbp, u⟩, halloc⟩ : ∃ p,
      { headAt 1 1 with mbfreelist := [2] }.allocb 0 BPRI_MED = some p := ⟨_, rfl⟩
  have hself := head_cycle hlive rfl halloc rfl hpull
  rcases hkeep with ⟨-, ⟨l', hl', -⟩, -⟩ | ⟨-, rfl⟩
  · exact not_linked_self hself ⟨l', hl'⟩
  · cases hself

end pullup

end Pool

end Io
