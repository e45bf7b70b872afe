import OpusSysV.Io.StreamBuf
import OpusSysV.Lib.Linked
import OpusSysV.Lib.Word

/-!
# Trimming a message: `xmsgsize` and `adjmsg` of `io/stream.c`

`adjmsg(mp, len)` takes `len` bytes off the front of the leading blocks of one type, or
`-len` bytes off their end.

* `Pool.content` — the data of a list of blocks; `Pool.lead` — the leading blocks of the
  type of the first one.
* `Pool.xmsgsize`, `Pool.adjmsg` — the routines; `none` is a null or unset pointer that was
  followed, an overflow trap, or a loop that needs more turns than `fuel`.
* `headLoop_spec`, `tailLoop_spec` — the two loops drop and take.
* `adjmsg_exact` — for which `len` the message is trimmed as it should be: `-2147483648` is
  its own negative, passes the size check, and the `sub` of `min` traps.
-/

namespace Io

open Lib Function List Option

/-- `min(a,b)` of `ml/m88k/math.s`: `sub r4,r3,r2` traps when `b - a` overflows. -/
def mathMin (a b : ℤ) : Option ℤ :=
  if -2 ^ 31 ≤ b - a ∧ b - a < 2 ^ 31 then some (if b - a ≥ 0 then a else b) else none

theorem mathMin_eq {a b : ℤ} (ha : 0 ≤ a) (ha' : a < 2 ^ 31) (hb : 0 ≤ b) (hb' : b < 2 ^ 31) :
    mathMin a b = some (min a b) := by
  have hsub : -2 ^ 31 ≤ b - a ∧ b - a < 2 ^ 31 := by omega
  rw [mathMin, if_pos hsub]
  split
  · rw [min_eq_left (by omega)]
  · rw [min_eq_right (by omega)]

theorem mathMin_trap {a : ℤ} (ha : 0 < a) : mathMin a (-2 ^ 31) = none :=
  if_neg (by omega)

namespace Pool

variable {M D : Type}

/-! ## The routines -/

/-- `bp->b_wptr - bp->b_rptr`. -/
def blk (s : Pool M D) (bp : M) : ℤ := s.wptr bp - s.rptr bp

/-- The loop of `xmsgsize`. -/
def xmsgLoop (s : Pool M D) (type : ℕ) : ℕ → Option M → ℤ → Option ℤ
  | _, none, count => some count
  | 0, some _, _ => none
  | fuel + 1, some bp, count =>
    (s.datap bp).bind fun d =>
      if type ≠ s.dbType d then some count
      else xmsgLoop s type fuel (s.cont bp) (long (count + s.blk bp))

/-- `xmsgsize(bp)`. -/
def xmsgsize (s : Pool M D) (fuel : ℕ) (bp : M) : Option ℤ :=
  (s.datap bp).bind fun d => s.xmsgLoop (s.dbType d) fuel (some bp) 0

/-- The loop of `adjmsg` that trims from the head. -/
def headLoop [DecidableEq M] : ℕ → Option M → ℤ → Pool M D → Option (Pool M D)
  | 0, _, len, s => if len = 0 then some s else none
  | fuel + 1, first, len, s =>
    if len = 0 then some s
    else first.bind fun bp =>
      (mathMin (s.blk bp) len).bind fun n =>
        headLoop fuel (s.cont bp) (len - n)
          { s with rptr := update s.rptr bp (s.rptr bp + n).toNat }

/-- The inner loop that trims from the tail: what it leaves in `save_bp`. -/
def saveLoop (s : Pool M D) (type : ℕ) : ℕ → Option M → Option M → Option (Option M)
  | _, none, save => some save
  | 0, some _, _ => none
  | fuel + 1, some bp, save =>
    (s.datap bp).bind fun d =>
      if s.dbType d = type then
        saveLoop s type fuel (s.cont bp) (if s.blk bp > 0 then some bp else save)
      else some save

/-- The loop of `adjmsg` that trims from the tail; `save_bp` is not set before it. -/
def tailLoop [DecidableEq M] (mp : M) (type k : ℕ) : ℕ → Option M → ℤ → Pool M D → Option (Pool M D)
  | 0, _, len, s => if len = 0 then some s else none
  | fuel + 1, save, len, s =>
    if len = 0 then some s
    else (s.saveLoop type k (some mp) save).bind fun save =>
      save.bind fun bp =>
        (mathMin (s.blk bp) len).bind fun n =>
          tailLoop mp type k fuel (some bp) (len - n)
            { s with wptr := update s.wptr bp (s.wptr bp - n).toNat }

/-- `adjmsg(mp, len)`: what it returns, and the blocks. -/
def adjmsg [DecidableEq M] (s : Pool M D) (fuel : ℕ) (mp : M) (len : ℤ) : Option (ℤ × Pool M D) :=
  let trim := if len < 0 then long (-len) else len
  (s.xmsgsize fuel mp).bind fun size =>
    if size < trim then some (0, s)
    else if 0 ≤ len then (headLoop fuel (some mp) trim s).map fun t => (1, t)
    else (s.datap mp).bind fun d =>
      (tailLoop mp (s.dbType d) fuel fuel none trim s).map fun t => (1, t)

/-! ## Messages and their data -/

/-- `bp->b_datap->db_type`. -/
def typeOf (s : Pool M D) (bp : M) : Option ℕ := (s.datap bp).map s.dbType

/-- The data of a block. -/
def bytes (s : Pool M D) (bp : M) : List UInt8 :=
  match s.datap bp with
  | none => []
  | some d => (List.range' (s.rptr bp) (s.wptr bp - s.rptr bp)).map (s.data d)

/-- The data of some blocks. -/
def content (s : Pool M D) (l : List M) : List UInt8 := l.flatMap s.bytes

/-- The leading blocks of the type of the first one. -/
def lead (s : Pool M D) (l : List M) : List M :=
  l.takeWhile fun b => s.typeOf b = l.head?.bind s.typeOf

/-- A block whose pointers are in its data block, which is of the size of its class at most. -/
def Sound (s : Pool M D) (bp : M) : Prop :=
  ∃ d, s.datap bp = some d ∧ s.rptr bp ≤ s.wptr bp ∧ s.wptr bp ≤ s.dbSize d ∧
    (s.dbSize d : ℤ) ≤ rbsize (s.dbClass d)

/-- The message that starts with `mp` has these blocks. -/
structure Message (s : Pool M D) (mp : M) (l : List M) : Prop where
  linked : Lib.Linked s.cont (some mp) l
  nodup : l.Nodup
  sound : ∀ b ∈ l, s.Sound b

section data

variable {s : Pool M D} {b bp mp : M} {l bs : List M} {type : ℕ}

theorem Sound.blk_bounds (h : s.Sound b) : 0 ≤ s.blk b ∧ s.blk b < 2 ^ 31 := by
  obtain ⟨d, -, hle, hsize, hclass⟩ := h
  have hmax : rbsize (s.dbClass d) ≤ 32848 := by
    have hall : ∀ c : Fin 12, rbsize c ≤ 32848 := by decide
    exact hall _
  unfold blk
  omega

theorem Sound.length_bytes (h : s.Sound b) : ((s.bytes b).length : ℤ) = s.blk b := by
  obtain ⟨d, hd, hle, -, -⟩ := h
  rw [bytes, hd]
  simp only [length_map, length_range', blk]
  omega

theorem content_cons (s : Pool M D) (b : M) (bs : List M) :
    s.content (b :: bs) = s.bytes b ++ s.content bs := flatMap_cons

theorem content_append (s : Pool M D) (l m : List M) :
    s.content (l ++ m) = s.content l ++ s.content m := flatMap_append

theorem length_content (h : ∀ b ∈ bs, s.Sound b) :
    ((s.content bs).length : ℤ) = (bs.map s.blk).sum := by
  induction bs with
  | nil => rfl
  | cons b bs ih =>
    have hb := (h b mem_cons_self).length_bytes
    have hbs := ih fun c hc => h c (mem_cons_of_mem _ hc)
    rw [content_cons, length_append, map_cons, sum_cons, ← hb, ← hbs]
    push_cast
    rfl

theorem bytes_congr {t : Pool M D} (hdatap : t.datap b = s.datap b) (hdata : t.data = s.data)
    (hr : t.rptr b = s.rptr b) (hw : t.wptr b = s.wptr b) : t.bytes b = s.bytes b := by
  rw [bytes, bytes, hdatap, hdata, hr, hw]

/-- Moving the pointers of other blocks does not change the data. -/
theorem content_congr {t : Pool M D} (hdatap : t.datap = s.datap) (hdata : t.data = s.data)
    (hr : ∀ b ∈ bs, t.rptr b = s.rptr b) (hw : ∀ b ∈ bs, t.wptr b = s.wptr b) :
    t.content bs = s.content bs := by
  exact flatMap_congr fun b hb => bytes_congr (by rw [hdatap]) hdata (hr b hb) (hw b hb)

theorem lead_sublist (s : Pool M D) (l : List M) : ∀ b ∈ s.lead l, b ∈ l :=
  fun _ hb => (takeWhile_sublist _).mem hb

theorem lead_prefix (s : Pool M D) (l : List M) : ∃ rest, l = s.lead l ++ rest :=
  ⟨_, (takeWhile_append_dropWhile).symm⟩

end data

/-! ## `xmsgsize` -/

section size

variable {s : Pool M D} {mp : M} {l : List M} {type fuel : ℕ}

theorem xmsgLoop_spec {first : Option M} (hl : Lib.Linked s.cont first l)
    (hs : ∀ b ∈ l, s.Sound b) (hf : l.length ≤ fuel) (c : ℤ) :
    s.xmsgLoop type fuel first (long c) =
      some (long (c + ((l.takeWhile fun b => s.typeOf b = some type).map s.blk).sum)) := by
  induction l generalizing first fuel c with
  | nil =>
    obtain rfl : first = none := hl
    cases fuel <;> simp [xmsgLoop]
  | cons b l ih =>
    obtain ⟨rfl, hl⟩ := hl
    obtain ⟨fuel, rfl⟩ : ∃ k, fuel = k + 1 := ⟨fuel - 1, by simp at hf; omega⟩
    obtain ⟨d, hd, -⟩ := hs b mem_cons_self
    have htype : s.typeOf b = some (s.dbType d) := by rw [typeOf, hd]; rfl
    simp only [xmsgLoop, hd, bind_some]
    by_cases h : type = s.dbType d
    · rw [if_neg (not_not.2 h), long_add, ih hl (fun c hc => hs c (mem_cons_of_mem _ hc))
        (by simp at hf; omega), takeWhile_cons_of_pos (by simp [htype, h]), map_cons,
        sum_cons]
      ring_nf
    · rw [if_pos h, takeWhile_cons_of_neg (by simp [htype]; exact fun e => h e.symm)]
      simp

theorem xmsgsize_spec (h : s.Message mp l) (hf : l.length ≤ fuel) :
    s.xmsgsize fuel mp = some (long (s.content (s.lead l)).length) := by
  obtain ⟨rest, rfl, -⟩ := h.linked.pop
  obtain ⟨d, hd, -⟩ := h.sound mp mem_cons_self
  have hloop : s.xmsgLoop (s.dbType d) fuel (some mp) (long 0) = _ :=
    xmsgLoop_spec h.linked h.sound hf 0
  have htype : s.typeOf mp = some (s.dbType d) := by rw [typeOf, hd]; rfl
  have hlead : (mp :: rest).takeWhile (fun b => s.typeOf b = some (s.dbType d)) =
      s.lead (mp :: rest) := by
    rw [lead, List.head?_cons, bind_some, htype]
  rw [hlead, ← length_content fun b hb => h.sound b (lead_sublist s _ b hb), Int.zero_add] at hloop
  rw [xmsgsize, hd, bind_some, ← hloop]
  rfl

theorem xmsgLoop_mono {first : Option M} {c v : ℤ} (h : s.xmsgLoop type fuel first c = some v)
    {fuel' : ℕ} (hf : fuel ≤ fuel') : s.xmsgLoop type fuel' first c = some v := by
  induction fuel generalizing first c fuel' with
  | zero =>
    cases first with
    | none => cases fuel' <;> exact h
    | some b => cases h
  | succ fuel ih =>
    obtain ⟨fuel', rfl⟩ : ∃ k, fuel' = k + 1 := ⟨fuel' - 1, by omega⟩
    cases first with
    | none => exact h
    | some b =>
      rw [xmsgLoop] at h ⊢
      cases hd : s.datap b with
      | none => rw [hd] at h; cases h
      | some d =>
        rw [hd, bind_some] at h
        rw [bind_some]
        split at h
        · rwa [if_pos ‹_›]
        · rw [if_neg ‹_›]
          exact ih h (Nat.le_of_succ_le_succ hf)

theorem xmsgsize_eq (h : s.Message mp l) {v : ℤ} (hv : s.xmsgsize fuel mp = some v) :
    v = long (s.content (s.lead l)).length := by
  have hmax := xmsgsize_spec h (le_max_right fuel l.length)
  obtain ⟨d, hd, hloop⟩ := bind_eq_some_iff.1 hv
  rw [xmsgsize, hd, bind_some, xmsgLoop_mono hloop (le_max_left ..)] at hmax
  exact Option.some.inj hmax

end size

/-! ## The loop that trims from the head -/

section head

variable [DecidableEq M] {s t : Pool M D} {bp mp : M} {l bs rest : List M} {type fuel : ℕ} {len : ℤ}

/-- `b_rptr` of one block moves up by `n`. -/
theorem sound_rptr {n : ℤ} (h : s.Sound bp) (hn : n ≤ s.blk bp) (b : M)
    (hb : s.Sound b) :
    ({ s with rptr := update s.rptr bp (s.rptr bp + n).toNat } : Pool M D).Sound b := by
  obtain ⟨d, hd, hle, hsize⟩ := hb
  refine ⟨d, hd, ?_, hsize⟩
  unfold blk at hn
  by_cases hbp : b = bp
  · subst hbp
    simp only [update_self]
    omega
  · simpa only [update_of_ne hbp] using hle

theorem bytes_rptr {n : ℤ} (h : s.Sound bp) (h0 : 0 ≤ n) :
    ({ s with rptr := update s.rptr bp (s.rptr bp + n).toNat } : Pool M D).bytes bp =
      (s.bytes bp).drop n.toNat := by
  obtain ⟨d, hd, hle, -⟩ := h
  simp only [bytes, hd, update_self, ← map_drop, drop_range']
  rw [show (s.rptr bp + n).toNat = s.rptr bp + n.toNat by omega, Nat.sub_add_eq]
  simp

theorem headLoop_stop (hs : ∀ b ∈ bs, s.Sound b) (first : Option M) (fuel : ℕ) :
    ∃ r, headLoop fuel first 0 s = some { s with rptr := r } ∧
      (∀ b ∉ bs, r b = s.rptr b) ∧ (∀ b ∈ bs, r b ≤ s.wptr b) ∧
      ({ s with rptr := r } : Pool M D).content bs = (s.content bs).drop (0 : ℤ).toNat := by
  refine ⟨s.rptr, by cases fuel <;> simp [headLoop], fun _ _ => rfl, fun b hb => ?_, rfl⟩
  obtain ⟨d, -, hle, -⟩ := hs b hb
  exact hle

/-- **The loop from the head** drops `len` bytes of the blocks it passes, and leaves the other
blocks alone. -/
theorem headLoop_spec {first : Option M} (hl : Lib.Linked s.cont first (bs ++ rest))
    (hnd : bs.Nodup) (hs : ∀ b ∈ bs, s.Sound b) (h0 : 0 ≤ len) (hint : len < 2 ^ 31)
    (hlen : len ≤ (s.content bs).length) (hf : bs.length ≤ fuel) :
    ∃ r, headLoop fuel first len s = some { s with rptr := r } ∧
      (∀ b ∉ bs, r b = s.rptr b) ∧ (∀ b ∈ bs, r b ≤ s.wptr b) ∧
      ({ s with rptr := r } : Pool M D).content bs = (s.content bs).drop len.toNat := by
  induction bs generalizing s first fuel len with
  | nil =>
    obtain rfl : len = 0 := by
      simp only [content, flatMap_nil, length_nil] at hlen
      omega
    exact headLoop_stop hs first fuel
  | cons b bs ih =>
    by_cases hz : len = 0
    · subst hz
      exact headLoop_stop hs _ fuel
    obtain ⟨rfl, hl⟩ := hl
    obtain ⟨hb, hnd⟩ := nodup_cons.1 hnd
    obtain ⟨fuel, rfl⟩ : ∃ k, fuel = k + 1 := ⟨fuel - 1, by simp at hf; omega⟩
    have hsb := hs b mem_cons_self
    have hblk := hsb.blk_bounds
    have hlb := hsb.length_bytes
    have hmin := mathMin_eq hblk.1 hblk.2 h0 hint
    obtain ⟨n, hn⟩ : ∃ n, n = min (s.blk b) len := ⟨_, rfl⟩
    obtain ⟨t, ht⟩ : ∃ t : Pool M D,
        t = { s with rptr := update s.rptr b (s.rptr b + n).toNat } := ⟨_, rfl⟩
    have hn0 : 0 ≤ n := by omega
    have hnb : n ≤ s.blk b := by omega
    have hsound : ∀ c ∈ bs, t.Sound c := fun c hc => by
      rw [ht]
      exact sound_rptr hsb hnb c (hs c (mem_cons_of_mem _ hc))
    have hrest : t.content bs = s.content bs := by
      refine content_congr (by rw [ht]) (by rw [ht]) (fun c hc => ?_) fun c _ => by rw [ht]
      rw [ht]
      exact update_of_ne (ne_of_mem_of_not_mem hc hb) _ _
    have hbytes : t.bytes b = (s.bytes b).drop n.toNat := by
      rw [ht]
      exact bytes_rptr hsb hn0
    rw [content_cons, length_append] at hlen
    have hstep : headLoop (fuel + 1) (some b) len s = headLoop fuel (s.cont b) (len - n) t := by
      rw [headLoop, if_neg hz, bind_some, hmin, ← hn, bind_some, ht]
    obtain ⟨r, hrun, hout, hin, hcont⟩ := ih (s := t) (by rw [ht]; exact hl) hnd hsound
      (by omega : 0 ≤ len - n) (by omega) (by rw [hrest]; push_cast at hlen; omega)
      (Nat.le_of_succ_le_succ hf)
    have hrb : r b = t.rptr b := hout b hb
    have htb : t.rptr b = (s.rptr b + n).toNat := by
      rw [ht]
      exact update_self ..
    refine ⟨r, ?_, fun c hc => ?_, fun c hc => ?_, ?_⟩
    · rw [hstep, hrun, ht]
    · obtain ⟨hcb, hcs⟩ := not_or.1 (fun h => hc (mem_cons.2 h))
      rw [hout c hcs, ht]
      exact update_of_ne hcb _ _
    · rcases mem_cons.1 hc with rfl | hc
      · unfold blk at hnb
        omega
      · have := hin c hc
        rwa [ht] at this
    · have hfirst : ({ s with rptr := r } : Pool M D).bytes b = (s.bytes b).drop n.toNat := by
        rw [← hbytes]
        exact bytes_congr (by rw [ht]) (by rw [ht]) hrb (by rw [ht])
      have hsecond : ({ s with rptr := r } : Pool M D).content bs =
          (s.content bs).drop (len - n).toNat := by
        rw [← hrest, ← hcont, ht]
      have hdrop : (s.bytes b).drop n.toNat = (s.bytes b).drop len.toNat := by
        rcases le_total len (s.blk b) with hle | hle
        · rw [hn, min_eq_right hle]
        · rw [drop_eq_nil_of_le (by omega), drop_eq_nil_of_le (by omega)]
      rw [content_cons, content_cons, hfirst, hsecond, drop_append, hdrop,
        show (len - n).toNat = len.toNat - (s.bytes b).length by omega]

end head

/-! ## The loop that trims from the tail -/

section tail

variable [DecidableEq M] {s t : Pool M D} {bp mp : M} {l bs rest : List M} {type fuel : ℕ} {len : ℤ}

/-- `b_wptr` of one block moves down by `n`. -/
theorem sound_wptr {n : ℤ} (h : s.Sound bp) (h0 : 0 ≤ n) (hn : n ≤ s.blk bp) (b : M)
    (hb : s.Sound b) :
    ({ s with wptr := update s.wptr bp (s.wptr bp - n).toNat } : Pool M D).Sound b := by
  obtain ⟨d, hd, hle, hsize, hclass⟩ := hb
  unfold blk at hn
  by_cases hbp : b = bp
  · subst hbp
    refine ⟨d, hd, ?_, ?_, hclass⟩
    · simp only [update_self]
      omega
    · simp only [update_self]
      omega
  · refine ⟨d, hd, ?_, ?_, hclass⟩
    · simpa only [update_of_ne hbp] using hle
    · simpa only [update_of_ne hbp] using hsize

theorem bytes_wptr {n : ℤ} (h : s.Sound bp) (h0 : 0 ≤ n) (hn : n ≤ s.blk bp) :
    ({ s with wptr := update s.wptr bp (s.wptr bp - n).toNat } : Pool M D).bytes bp =
      (s.bytes bp).take (s.blk bp - n).toNat := by
  obtain ⟨d, hd, hle, -⟩ := h
  unfold blk at hn ⊢
  simp only [bytes, hd, update_self, ← map_take]
  rw [take_range'_of_length_ge (by omega),
    show (s.wptr bp - n).toNat - s.rptr bp = ((s.wptr bp : ℤ) - s.rptr bp - n).toNat by omega]

omit [DecidableEq M] in
/-- The inner loop stops at the last block with data of the leading ones. -/
theorem saveLoop_spec {first save : Option M} (hl : Lib.Linked s.cont first l)
    (hs : ∀ b ∈ l, s.Sound b) (hf : l.length ≤ fuel) :
    s.saveLoop type fuel first save =
      some (((l.takeWhile fun b => s.typeOf b = some type).filter fun b => 0 < s.blk b).getLast?.or
        save) := by
  induction l generalizing first save fuel with
  | nil =>
    obtain rfl : first = none := hl
    cases fuel <;> simp [saveLoop]
  | cons b l ih =>
    obtain ⟨rfl, hl⟩ := hl
    obtain ⟨fuel, rfl⟩ : ∃ k, fuel = k + 1 := ⟨fuel - 1, by simp at hf; omega⟩
    obtain ⟨d, hd, -⟩ := hs b mem_cons_self
    have htype : s.typeOf b = some (s.dbType d) := by rw [typeOf, hd]; rfl
    simp only [saveLoop, hd, bind_some]
    by_cases h : s.dbType d = type
    · rw [if_pos h, ih hl (fun c hc => hs c (mem_cons_of_mem _ hc))
        (Nat.le_of_succ_le_succ hf), takeWhile_cons_of_pos (by simp [htype, h])]
      by_cases h0 : 0 < s.blk b
      · rw [if_pos h0, filter_cons_of_pos (by simpa using h0), List.getLast?_cons]
        cases hlast : ((l.takeWhile fun b => s.typeOf b = some type).filter
          fun b => 0 < s.blk b).getLast? <;> simp
      · rw [if_neg h0, filter_cons_of_neg (by simpa using h0)]
    · rw [if_neg h, takeWhile_cons_of_neg (by simpa [htype] using h)]
      rfl

omit [DecidableEq M] in
/-- What the inner loop finds has data. -/
theorem blk_saveLoop {first save : Option M} (h : s.saveLoop type fuel first save = some (some bp))
    (hsave : ∀ b, save = some b → 0 < s.blk b) : 0 < s.blk bp := by
  induction fuel generalizing first save with
  | zero =>
    cases first with
    | none => exact hsave bp (Option.some.inj h)
    | some b => cases h
  | succ fuel ih =>
    cases first with
    | none => exact hsave bp (Option.some.inj h)
    | some b =>
      obtain ⟨d, -, h⟩ := bind_eq_some_iff.1 h
      split at h
      · refine ih h fun c hc => ?_
        split at hc
        · cases hc
          assumption
        · exact hsave c hc
      · exact hsave bp (Option.some.inj h)

/-- **A negative length** does not get past `min`. -/
theorem tailLoop_trap (mp : M) (type k fuel : ℕ) (s : Pool M D) :
    tailLoop mp type k fuel none (-2 ^ 31) s = none := by
  cases fuel with
  | zero => rfl
  | succ fuel =>
    rw [tailLoop, if_neg (by decide), bind_eq_none_iff]
    intro save hsave
    cases save with
    | none => rfl
    | some b => rw [bind_some, mathMin_trap (blk_saveLoop hsave nofun), bind_none]

theorem take_tail {α : Type} {l m : List α} {len n : ℤ}
    (hn : n = min (m.length : ℤ) len) :
    l.take (l.length - (len - n)).toNat ++ m.take (m.length - n).toNat =
      (l ++ m).take (l.length + m.length - len : ℤ).toNat := by
  rw [take_append]
  rcases le_total len m.length with hle | hle
  · rw [hn, min_eq_right hle, take_of_length_le (by omega),
      take_of_length_le (l := l) (by omega),
      show ((l.length : ℤ) + m.length - len).toNat - l.length = (m.length - len : ℤ).toNat by omega]
  · rw [hn, min_eq_left hle,
      show ((l.length : ℤ) + m.length - len).toNat - l.length = 0 by omega,
      show ((m.length : ℤ) - m.length).toNat = 0 by omega,
      show (l.length - (len - m.length) : ℤ) = l.length + m.length - len by omega]

theorem tailLoop_stop {save : Option M} {k : ℕ} (hs : ∀ b ∈ bs, s.Sound b) (fuel : ℕ) :
    ∃ w, tailLoop mp type k fuel save 0 s = some { s with wptr := w } ∧
      (∀ b ∉ bs, w b = s.wptr b) ∧ (∀ b ∈ bs, s.rptr b ≤ w b) ∧
      ({ s with wptr := w } : Pool M D).content bs =
        (s.content bs).take ((s.content bs).length - 0 : ℤ).toNat := by
  refine ⟨s.wptr, by cases fuel <;> simp [tailLoop], fun _ _ => rfl, fun b hb => ?_, ?_⟩
  · obtain ⟨d, -, hle, -⟩ := hs b hb
    exact hle
  · rw [take_of_length_le (by omega)]

/-- **The loop from the tail** drops `len` bytes from the end of the leading blocks, of which
those in `q` are empty already. -/
theorem tailLoop_spec {p q : List M} {k : ℕ} (save : Option M) (h : s.Message mp l)
    (hp : l.takeWhile (fun b => s.typeOf b = some type) = p ++ q) (hq : ∀ b ∈ q, s.blk b = 0)
    (h0 : 0 ≤ len) (hint : len < 2 ^ 31) (hlen : len ≤ (s.content p).length)
    (hk : l.length ≤ k) (hf : p.length ≤ fuel) :
    ∃ w, tailLoop mp type k fuel save len s = some { s with wptr := w } ∧
      (∀ b ∉ p, w b = s.wptr b) ∧ (∀ b ∈ p, s.rptr b ≤ w b) ∧
      ({ s with wptr := w } : Pool M D).content p =
        (s.content p).take ((s.content p).length - len : ℤ).toNat := by
  have hsub : ∀ b ∈ p ++ q, b ∈ l := fun b hb => (takeWhile_sublist _).mem (hp ▸ hb)
  have hsp : ∀ b ∈ p, s.Sound b := fun b hb => h.sound b (hsub b (mem_append_left _ hb))
  induction p using List.reverseRecOn generalizing s q save fuel len with
  | nil =>
    obtain rfl : len = 0 := by
      simp only [content, flatMap_nil, length_nil] at hlen
      omega
    exact tailLoop_stop hsp fuel
  | append_singleton p b ih =>
    by_cases hz : len = 0
    · subst hz
      exact tailLoop_stop hsp fuel
    have hp' : l.takeWhile (fun b => s.typeOf b = some type) = p ++ b :: q := by
      rw [hp, append_assoc, singleton_append]
    have hsub' : ∀ c ∈ p ++ b :: q, c ∈ l := fun c hc => (takeWhile_sublist _).mem (hp' ▸ hc)
    have hnd : (p ++ b :: q).Nodup := hp' ▸ h.nodup.sublist (takeWhile_sublist _)
    obtain ⟨-, hndb, hdisj⟩ := nodup_append.1 hnd
    have hbq : b ∉ q := (nodup_cons.1 hndb).1
    have hbp : b ∉ p := fun hb => hdisj b hb b mem_cons_self rfl
    have hsb := hsp b (mem_append_right _ (mem_singleton_self b))
    have hsp' : ∀ c ∈ p, s.Sound c := fun c hc => hsp c (mem_append_left _ hc)
    have hblk := hsb.blk_bounds
    have hlb := hsb.length_bytes
    have hone : s.content [b] = s.bytes b := flatMap_singleton ..
    have hpf : p.length + 1 ≤ fuel := by
      rw [length_append] at hf
      exact hf
    rw [content_append, hone, length_append] at hlen ⊢
    by_cases hb0 : s.blk b = 0
    · have hempty : s.bytes b = [] := eq_nil_of_length_eq_zero (by omega)
      rw [hempty, append_nil, length_nil, Nat.add_zero]
      obtain ⟨w, hrun, hout, hin, hcont⟩ := ih (q := b :: q) save h hp'
        (forall_mem_cons.2 ⟨hb0, hq⟩) h0 hint (by rw [hempty] at hlen; simpa using hlen)
        (Nat.le_of_succ_le hpf) hsub' hsp'
      refine ⟨w, hrun, fun c hc => hout c fun h => hc (mem_append_left _ h),
        fun c hc => ?_, ?_⟩
      · rcases mem_append.1 hc with hc | hc
        · exact hin c hc
        · obtain rfl := mem_singleton.1 hc
          obtain ⟨d, -, hle, -⟩ := hsb
          rwa [hout c hbp]
      · have hb : ({ s with wptr := w } : Pool M D).bytes b = [] := by
          rw [← hempty]
          exact bytes_congr rfl rfl rfl (hout b hbp)
        rw [content_append, hcont, content_cons, hb]
        simp [content]
    · have hpos : 0 < s.blk b := by omega
      obtain ⟨fuel, rfl⟩ : ∃ j, fuel = j + 1 := ⟨fuel - 1, by omega⟩
      have hsave : s.saveLoop type k (some mp) save = some (some b) := by
        have hfq : q.filter (fun c => 0 < s.blk c) = [] :=
          filter_eq_nil_iff.2 fun c hc => by simp [hq c hc]
        rw [saveLoop_spec h.linked h.sound hk, hp', filter_append,
          filter_cons_of_pos (by simpa using hpos), hfq]
        simp
      obtain ⟨n, hn⟩ : ∃ n, n = min (s.blk b) len := ⟨_, rfl⟩
      obtain ⟨t, ht⟩ : ∃ t : Pool M D,
          t = { s with wptr := update s.wptr b (s.wptr b - n).toNat } := ⟨_, rfl⟩
      have hn0 : 0 ≤ n := by omega
      have hnb : n ≤ s.blk b := by omega
      have hstep : tailLoop mp type k (fuel + 1) save len s =
          tailLoop mp type k fuel (some b) (len - n) t := by
        rw [tailLoop, if_neg hz, hsave, bind_some, bind_some,
          mathMin_eq hblk.1 hblk.2 h0 hint, ← hn, bind_some, ht]
      have hsound : ∀ c, s.Sound c → t.Sound c := fun c hc => by
        rw [ht]
        exact sound_wptr hsb hn0 hnb c hc
      have htp : t.content p = s.content p := by
        refine content_congr (by rw [ht]) (by rw [ht]) (fun c _ => by rw [ht]) fun c hc => ?_
        rw [ht]
        exact update_of_ne (ne_of_mem_of_not_mem hc hbp) _ _
      have htb : t.bytes b = (s.bytes b).take (s.blk b - n).toNat := by
        rw [ht]
        exact bytes_wptr hsb hn0 hnb
      have htw : (t.wptr b : ℤ) = s.wptr b - n := by
        rw [ht]
        simp only [update_self]
        unfold blk at hnb
        omega
      have hrec : ∃ w, tailLoop mp type k fuel (some b) (len - n) t = some { t with wptr := w } ∧
          (∀ c ∉ p, w c = t.wptr c) ∧ (∀ c ∈ p, t.rptr c ≤ w c) ∧
          ({ t with wptr := w } : Pool M D).content p =
            (t.content p).take ((t.content p).length - (len - n) : ℤ).toNat := by
        by_cases hdone : len - n = 0
        · rw [hdone]
          exact tailLoop_stop (fun c hc => hsound c (hsp' c hc)) fuel
        · have htq : ∀ c ∈ b :: q, t.blk c = 0 := by
            refine forall_mem_cons.2 ⟨?_, fun c hc => ?_⟩
            · have htr : t.rptr b = s.rptr b := by rw [ht]
              rw [blk, htw, htr]
              unfold blk at hn hnb
              omega
            · rw [blk, ht]
              simp only [update_of_ne (ne_of_mem_of_not_mem hc hbq)]
              exact hq c hc
          have hmsg : t.Message mp l :=
            ⟨by rw [ht]; exact h.linked, h.nodup, fun c hc => hsound c (h.sound c hc)⟩
          exact ih (some b) hmsg (by rw [← hp', ht]; rfl) htq (by omega) (by omega)
            (by rw [htp]; omega) (by omega) hsub' fun c hc => hsound c (hsp' c hc)
      obtain ⟨w, hrun, hout, hin, hcont⟩ := hrec
      refine ⟨w, ?_, fun c hc => ?_, fun c hc => ?_, ?_⟩
      · rw [hstep, hrun, ht]
      · rw [hout c fun h => hc (mem_append_left _ h), ht]
        exact update_of_ne (fun h => hc (by simp [h])) _ _
      · rcases mem_append.1 hc with hc | hc
        · have := hin c hc
          rwa [ht] at this
        · obtain rfl := mem_singleton.1 hc
          have := hout c hbp
          unfold blk at hnb
          omega
      · have hb : ({ s with wptr := w } : Pool M D).bytes b = t.bytes b :=
          bytes_congr (by rw [ht]) (by rw [ht]) (by rw [ht]) (hout b hbp)
        have hp : ({ s with wptr := w } : Pool M D).content p =
            (s.content p).take ((s.content p).length - (len - n) : ℤ).toNat := by
          rw [← htp, ← hcont, ht]
        have hb1 : ({ s with wptr := w } : Pool M D).content [b] =
            ({ s with wptr := w } : Pool M D).bytes b := flatMap_singleton ..
        rw [content_append, hb1, hb, hp, htb, ← hlb, take_tail (by rw [hn, hlb])]
        push_cast
        rfl

end tail

/-! ## `adjmsg` -/

section adjust

variable [DecidableEq M] {s : Pool M D} {mp : M} {l : List M} {len : ℤ}

/-- **What `adjmsg` is for**: where the leading blocks hold enough, it returns 1, their data
loses `len` bytes at the front or `-len` bytes at the end, the other blocks stay and all
pointers are in order; otherwise it returns 0 and nothing changes. -/
def Trims (s : Pool M D) (mp : M) (l : List M) (len : ℤ) : Prop :=
  ∃ fuel, if |len| ≤ (s.content (s.lead l)).length then
    ∃ r w, s.adjmsg fuel mp len = some (1, { s with rptr := r, wptr := w }) ∧
      (∀ b ∉ s.lead l, r b = s.rptr b ∧ w b = s.wptr b) ∧ (∀ b ∈ l, r b ≤ w b) ∧
      ({ s with rptr := r, wptr := w } : Pool M D).content (s.lead l) =
        if 0 ≤ len then (s.content (s.lead l)).drop len.toNat
        else (s.content (s.lead l)).take ((s.content (s.lead l)).length + len).toNat
  else s.adjmsg fuel mp len = some (0, s)

/-- The size that the leading blocks have as an `int` is enough for `len` if they hold enough. -/
def Fits (s : Pool M D) (l : List M) (len : ℤ) : Prop :=
  |len| ≤ (s.content (s.lead l)).length → |len| ≤ long (s.content (s.lead l)).length

theorem trim_eq (hne : len ≠ -2 ^ 31) (hmin : -2 ^ 31 ≤ len) (hmax : len < 2 ^ 31) :
    (if len < 0 then long (-len) else len) = |len| := by
  split
  next h => rw [long_eq (by omega) (by omega), abs_of_neg h]
  next h => rw [abs_of_nonneg (not_lt.1 h)]

theorem adjmsg_eq {fuel : ℕ} {size trim : ℤ} (hsize : s.xmsgsize fuel mp = some size)
    (htrim : (if len < 0 then long (-len) else len) = trim) :
    s.adjmsg fuel mp len =
      if size < trim then some (0, s)
      else if 0 ≤ len then (headLoop fuel (some mp) trim s).map fun t => (1, t)
      else (s.datap mp).bind fun d =>
        (tailLoop mp (s.dbType d) fuel fuel none trim s).map fun t => (1, t) := by
  rw [adjmsg, hsize, bind_some, htrim]

/-- **The length without a negative** never comes back. -/
theorem adjmsg_min (h : s.Message mp l) (fuel : ℕ) : s.adjmsg fuel mp (-2 ^ 31) = none := by
  cases hsize : s.xmsgsize fuel mp with
  | none => rw [adjmsg, hsize, bind_none]
  | some size =>
    have hlong := xmsgsize_eq h hsize
    have hrange := long_range (s.content (s.lead l)).length
    have hneg : (if (-2 ^ 31 : ℤ) < 0 then long (-(-2 ^ 31)) else -2 ^ 31) = -2 ^ 31 := by decide
    rw [adjmsg_eq hsize hneg, if_neg (by omega), if_neg (by decide), bind_eq_none_iff]
    intro d _
    rw [tailLoop_trap]
    rfl

/-- **`adjmsg` trims exactly** if and only if `len` has a negative and the size of the leading
blocks is not lost in an `int`. -/
theorem adjmsg_exact (h : s.Message mp l) (hmin : -2 ^ 31 ≤ len) (hmax : len < 2 ^ 31) :
    s.Trims mp l len ↔ len ≠ -2 ^ 31 ∧ s.Fits l len := by
  constructor
  · rintro ⟨fuel, hrun⟩
    have hne : len ≠ -2 ^ 31 := by
      rintro rfl
      split at hrun
      · obtain ⟨r, w, hrun, -⟩ := hrun
        rw [adjmsg_min h] at hrun
        cases hrun
      · rw [adjmsg_min h] at hrun
        cases hrun
    refine ⟨hne, fun hle => ?_⟩
    rw [if_pos hle] at hrun
    obtain ⟨r, w, hrun, -⟩ := hrun
    obtain ⟨size, hsize, -⟩ := bind_eq_some_iff.1 hrun
    have hlong := xmsgsize_eq h hsize
    by_contra hlt
    rw [adjmsg_eq hsize (trim_eq hne hmin hmax), if_pos (by omega)] at hrun
    have hone : (0 : ℤ) = 1 := congrArg Prod.fst (Option.some.inj hrun)
    omega
  · rintro ⟨hne, hfits⟩
    refine ⟨l.length, ?_⟩
    have hsize := xmsgsize_spec h le_rfl
    have htrim := trim_eq hne hmin hmax
    obtain ⟨rest, hl⟩ := s.lead_prefix l
    have hin := lead_sublist s l
    have hnd : (s.lead l).Nodup := h.nodup.sublist (takeWhile_sublist _)
    have hlen : (s.lead l).length ≤ l.length := (takeWhile_sublist _).length_le
    have habs : |len| < 2 ^ 31 := abs_lt.2 ⟨by omega, hmax⟩
    have hmp : mp ∈ l := by
      obtain ⟨l', rfl, -⟩ := h.linked.pop
      exact mem_cons_self
    have hord : ∀ b ∈ l, s.rptr b ≤ s.wptr b := fun b hb => by
      obtain ⟨d, -, hle, -⟩ := h.sound b hb
      exact hle
    split
    next hle =>
      have hnlt := not_lt.2 (hfits hle)
      by_cases h0 : 0 ≤ len
      · obtain ⟨r, hrun, hout, hptr, hcont⟩ := headLoop_spec (hl ▸ h.linked) hnd
          (fun b hb => h.sound b (hin b hb)) h0 hmax (by rwa [abs_of_nonneg h0] at hle) hlen
        refine ⟨r, s.wptr, ?_, fun b hb => ⟨hout b hb, rfl⟩, fun b hb => ?_, ?_⟩
        · rw [adjmsg_eq hsize htrim, if_neg hnlt, if_pos h0, abs_of_nonneg h0, hrun]
          rfl
        · by_cases hb' : b ∈ s.lead l
          · exact hptr b hb'
          · rw [hout b hb']
            exact hord b hb
        · rw [if_pos h0]
          exact hcont
      · obtain ⟨d, hd, -⟩ := h.sound mp hmp
        have hld : l.takeWhile (fun b => s.typeOf b = some (s.dbType d)) = s.lead l ++ [] := by
          rw [append_nil, lead, ← h.linked.head?, bind_some, typeOf, hd]
          rfl
        have habs' := abs_of_neg (not_le.1 h0)
        rw [habs'] at hle hnlt htrim
        obtain ⟨w, hrun, hout, hptr, hcont⟩ := tailLoop_spec none h hld
          (forall_mem_nil _) (by omega) (by omega) hle le_rfl hlen
        refine ⟨s.rptr, w, ?_, fun b hb => ⟨rfl, hout b hb⟩, fun b hb => ?_, ?_⟩
        · rw [adjmsg_eq hsize htrim, if_neg hnlt, if_neg h0, hd, bind_some, hrun]
          rfl
        · by_cases hb' : b ∈ s.lead l
          · exact hptr b hb'
          · rw [hout b hb']
            exact hord b hb
        · rw [if_neg h0, ← Int.sub_neg]
          exact hcont
    next hgt =>
      have hlong : long (s.content (s.lead l)).length = (s.content (s.lead l)).length :=
        long_eq (by omega) (by omega)
      rw [adjmsg_eq hsize htrim, hlong, if_pos (not_le.1 hgt)]

/-- One message block with four bytes of data. -/
def fourBytes : Pool (Fin 1) (Fin 1) where
  mbfreelist := []
  dbfreelist := fun _ => []
  cont := fun _ => none
  datap := fun _ => some (Fin.last 0)
  rptr := fun _ => 0
  wptr := fun _ => 4
  dbRef := fun _ => 1
  dbType := fun _ => M_DATA
  dbClass := fun _ => 0
  dbSize := fun _ => 4
  data := fun _ i => UInt8.ofNat i
  dbaCnt := fun c => if c = 0 then 1 else 0
  dbaLo := fun _ => 1
  dbaMed := fun _ => 1
  nmblock := 1

theorem fourBytes_message : fourBytes.Message 0 [0] :=
  ⟨⟨rfl, rfl⟩, by decide, fun _ _ => ⟨0, rfl, Nat.zero_le _, le_rfl, le_rfl⟩⟩

/-- The last byte of four is trimmed. -/
theorem adjmsg_exact_last : fourBytes.Trims 0 [0] (-1) ↔ (-1 : ℤ) ≠ -2 ^ 31 ∧
    fourBytes.Fits [0] (-1) :=
  adjmsg_exact fourBytes_message (by decide) (by decide)

/-- `adjmsg(mp, -2147483648)` does not return 0 for a message of four bytes. -/
theorem adjmsg_overflows : ¬ ∀ (s : Pool (Fin 1) (Fin 1)) (mp : Fin 1) (l : List (Fin 1)) (len : ℤ),
    s.Message mp l → -2 ^ 31 ≤ len → len < 2 ^ 31 → s.Trims mp l len := by
  intro hall
  obtain ⟨fuel, hrun⟩ := hall fourBytes 0 [0] (-2 ^ 31) fourBytes_message le_rfl (by decide)
  rw [if_neg (by decide), adjmsg_min fourBytes_message] at hrun
  cases hrun

end adjust

end Pool

end Io
