import OpusSysV.Lib.Extent

/-!
# Resource maps: `malloc` and `mfree` of `os/malloc.c`

A resource map `struct map X[]` keeps free space in place: `X[0]` holds the
number of unused slots (`mapsize`) and a sleep flag (`mapwant`); from `X[1]` on
come the free extents, in increasing order, ended by a slot of size 0.  Both
routines shift the slots in place, and rely on everything past the terminator
being zero.

The slots are modelled as the list `X[1], X[2], …` of the whole array, so that a
loop running off its end is visible: it gives `none`.  Sizes and addresses are
32-bit unsigned words.

The file relates the in-place routines to the extent lists of
`OpusSysV.Lib.Extent`: `Represents` says which extents a map holds, and
`malloc_refines` and `mfree_refines` say that the routines are `allocFirst` and
`release` on them.
-/

namespace Os

open Lib List Option

/-- The number of values of an `unsigned long`. -/
def wordSize : ℕ := 2 ^ 32

/-- `struct map`. -/
structure MapEnt where
  mSize : ℕ
  mAddr : ℕ
  deriving DecidableEq, Repr

/-- A resource map `X[]`: `mapsize(X)`, `mapwant(X)` and the slots from
`mapstart(X)` on. -/
structure RMap where
  mapsize : ℕ
  mapwant : ℕ
  slots : List MapEnt
  deriving DecidableEq, Repr

/-- `mapinit(X, Y)` on a zeroed array of `Y` slots. -/
def mapinit (y : ℕ) : RMap :=
  ⟨(y + wordSize - 2) % wordSize, 0, List.replicate (y - 1) ⟨0, 0⟩⟩

/-! ## `malloc` -/

/-- The `do … while` of `malloc` that closes the slot in front: each slot gets the
contents of the next one, up to and including the terminator. -/
def closeSlot : List MapEnt → Option (List MapEnt)
  | [] => none
  | [_] => none
  | _ :: e :: rest =>
    if e.mSize = 0 then some (e :: e :: rest) else (closeSlot (e :: rest)).map (e :: ·)

/-- The search of `malloc`: the address found (0 when nothing fits), the number of
slots it freed, and the slots afterwards. -/
def mallocScan (size : ℕ) : List MapEnt → Option (ℕ × ℕ × List MapEnt)
  | [] => none
  | bp :: rest =>
    if bp.mSize = 0 then some (0, 0, bp :: rest)
    else if size ≤ bp.mSize then
      let bp' : MapEnt := ⟨bp.mSize - size, (bp.mAddr + size) % wordSize⟩
      if bp'.mSize = 0 then (closeSlot (bp' :: rest)).map fun l => (bp.mAddr, 1, l)
      else some (bp.mAddr, 0, bp' :: rest)
    else (mallocScan size rest).map fun r => (r.1, r.2.1, bp :: r.2.2)

/-- `malloc(mp, size)`: the address handed out, 0 for none, and the map afterwards. -/
def malloc (mp : RMap) (size : ℕ) : Option (ℕ × RMap) :=
  if size = 0 then some (0, mp)
  else (mallocScan size mp.slots).map fun r =>
    (r.1, { mp with mapsize := (mp.mapsize + r.2.1) % wordSize, slots := r.2.2 })

/-! ## `mfree` -/

/-- What a call of `mfree` did: it put the range into the map (and woke the
sleepers on it or not), or took the "mfree map overflow" branch. -/
inductive Mfree
  | freed (woke : Bool)
  | overflow
  deriving DecidableEq, Repr

/-- The search of `mfree` for the first slot beyond `a`: the slots before it, the
nearest first, the slot itself, and the slots after it. -/
def findSlot (a : ℕ) : List MapEnt → List MapEnt → Option (List MapEnt × MapEnt × List MapEnt)
  | _, [] => none
  | before, bp :: rest =>
    if bp.mAddr ≤ a ∧ bp.mSize ≠ 0 then findSlot a (bp :: before) rest
    else some (before, bp, rest)

/-- The loop "compress adjacent map addr entries": drop the slot in front. -/
def compress : List MapEnt → Option (List MapEnt)
  | [] => none
  | [bp] => if bp.mSize = 0 then some [bp] else none
  | bp :: e :: rest =>
    if bp.mSize = 0 then some (bp :: e :: rest) else (compress (e :: rest)).map (e :: ·)

/-- The swap loop of `mfree`: put `x` into the slot in front and carry what was
there to the next one, until an empty slot takes the last. -/
def shiftUp (x : MapEnt) : List MapEnt → Option (List MapEnt)
  | [] => none
  | bp :: rest => if bp.mSize = 0 then some (x :: rest) else (shiftUp bp rest).map (x :: ·)

/-- `mapsize` and the slots after the first branch of `mfree`, where the range is
the continuation of the slot `prev` before `bp`. -/
def mfreeAppend (mapsize : ℕ) (prev bp : MapEnt) (rest : List MapEnt) (size a : ℕ) :
    Option (ℕ × List MapEnt) :=
  let prev' : MapEnt := { prev with mSize := prev.mSize + size }
  if bp.mAddr ≠ 0 ∧ (a + size) % wordSize = bp.mAddr then
    (compress (bp :: rest)).map fun l =>
      ((mapsize + 1) % wordSize, { prev' with mSize := prev'.mSize + bp.mSize } :: l)
  else some (mapsize, prev' :: bp :: rest)

/-- `mapsize` and the slots from `bp` on after the other branch of `mfree`; `none`
inside is the overflow. -/
def mfreeInsert (mapsize : ℕ) (bp : MapEnt) (rest : List MapEnt) (size a : ℕ) :
    Option (Option (ℕ × List MapEnt)) :=
  if (a + size) % wordSize = bp.mAddr ∧ bp.mSize ≠ 0 then
    some (some (mapsize, ⟨bp.mSize + size, bp.mAddr - size⟩ :: rest))
  else if mapsize = 0 then some none
  else (shiftUp ⟨size, a⟩ (bp :: rest)).map fun l => some (mapsize - 1, l)

/-- The end of `mfree`: store the slots and wake whoever waits for the map. -/
def mfreeDone (mp : RMap) (mapsize : ℕ) (slots : List MapEnt) : RMap × Mfree :=
  if mp.mapwant ≠ 0 then (⟨mapsize, 0, slots⟩, .freed true)
  else (⟨mapsize, mp.mapwant, slots⟩, .freed false)

/-- The slots before `bp` and from `bp` on, put together again. -/
def mfreeElse (mp : RMap) (before : List MapEnt) (bp : MapEnt) (rest : List MapEnt)
    (size a : ℕ) : Option (RMap × Mfree) :=
  (mfreeInsert mp.mapsize bp rest size a).map fun r =>
    match r with
    | none => (mp, .overflow)
    | some (n, l) => mfreeDone mp n (before.reverse ++ l)

/-- `mfree(mp, size, a)`. -/
def mfree (mp : RMap) (size a : ℕ) : Option (RMap × Mfree) :=
  if size = 0 then some (mp, .freed false)
  else match findSlot a [] mp.slots with
    | none => none
    | some ([], bp, rest) => mfreeElse mp [] bp rest size a
    | some (prev :: before, bp, rest) =>
      if (prev.mAddr + prev.mSize) % wordSize = a then
        (mfreeAppend mp.mapsize prev bp rest size a).map fun r =>
          mfreeDone mp r.1 (before.reverse ++ r.2)
      else mfreeElse mp (prev :: before) bp rest size a

/-! ## The extents a map holds -/

/-- The slot that holds an extent. -/
def slotOf (e : Extent) : MapEnt := ⟨e.len, e.base⟩

/-- The array that holds the extents `l` and then `k` zero slots. -/
def toSlots (l : List Extent) (k : ℕ) : List MapEnt := l.map slotOf ++ List.replicate k ⟨0, 0⟩

@[simp] theorem toSlots_cons (e : Extent) (l : List Extent) (k : ℕ) :
    toSlots (e :: l) k = slotOf e :: toSlots l k := rfl

theorem toSlots_nil (k : ℕ) : toSlots [] (k + 1) = ⟨0, 0⟩ :: List.replicate k ⟨0, 0⟩ := rfl

theorem toSlots_append (l m : List Extent) (k : ℕ) :
    toSlots (l ++ m) k = l.map slotOf ++ toSlots m k := by
  simp [toSlots]

/-- The map, which started with `n` unused slots, holds the extents `l`: they are
coalesced, lie among the positive 32-bit addresses, the rest of the array is zero,
and `mapsize` counts the slots that may still be filled. -/
structure Represents (n : ℕ) (mp : RMap) (l : List Extent) : Prop where
  slots : mp.slots = toSlots l (n + 1 - l.length)
  mapsize : mp.mapsize + l.length = n
  fits : n < wordSize
  coalesced : Coalesced l
  addrs : ∀ e ∈ l, 0 < e.base ∧ e.stop ≤ wordSize

theorem closeSlot_toSlots {l : List Extent} (hl : ∀ e ∈ l, 0 < e.len) (x : MapEnt) (k : ℕ) :
    closeSlot (x :: toSlots l (k + 1)) = some (toSlots l (k + 2)) := by
  induction l generalizing x with
  | nil => rfl
  | cons e l ih =>
    have he : (slotOf e).mSize ≠ 0 := (hl e mem_cons_self).ne'
    rw [toSlots_cons, closeSlot, if_neg he, ih fun f hf => hl f (mem_cons_of_mem _ hf)]
    rfl

theorem compress_toSlots {l : List Extent} (hl : ∀ e ∈ l, 0 < e.len) (x : Extent)
    (hx : 0 < x.len) (k : ℕ) :
    compress (toSlots (x :: l) (k + 1)) = some (toSlots l (k + 2)) := by
  induction l generalizing x with
  | nil =>
    have hx' : (slotOf x).mSize ≠ 0 := hx.ne'
    rw [toSlots_cons, toSlots_nil, compress, if_neg hx']
    cases k <;> rfl
  | cons e l ih =>
    have hx' : (slotOf x).mSize ≠ 0 := hx.ne'
    have hrec := ih (fun f hf => hl f (mem_cons_of_mem _ hf)) e (hl e mem_cons_self)
    rw [toSlots_cons] at hrec
    rw [toSlots_cons, toSlots_cons, compress, if_neg hx', hrec]
    rfl

theorem shiftUp_toSlots {l : List Extent} (hl : ∀ e ∈ l, 0 < e.len) (x : Extent) (k : ℕ) :
    shiftUp (slotOf x) (toSlots l (k + 1)) = some (toSlots (x :: l) k) := by
  induction l generalizing x with
  | nil => rfl
  | cons e l ih =>
    have he : (slotOf e).mSize ≠ 0 := (hl e mem_cons_self).ne'
    rw [toSlots_cons, shiftUp, if_neg he, ih fun f hf => hl f (mem_cons_of_mem _ hf)]
    rfl

/-! ## `malloc` is first fit -/

/-- The search loop of `malloc` on the array of the extents `l` is `allocFirst`. -/
theorem mallocScan_toSlots {n : ℕ} {l : List Extent} (hl : ∀ e ∈ l, 0 < e.len)
    (haddr : ∀ e ∈ l, e.stop ≤ wordSize) (k : ℕ) :
    (allocFirst n l = none ∧
        mallocScan n (toSlots l (k + 1)) = some (0, 0, toSlots l (k + 1))) ∨
      ∃ a l' d, allocFirst n l = some (a, l') ∧ l'.length + d = l.length ∧
        mallocScan n (toSlots l (k + 1)) = some (a, d, toSlots l' (k + 1 + d)) := by
  induction l with
  | nil => exact Or.inl ⟨rfl, rfl⟩
  | cons e l ih =>
    have he : (slotOf e).mSize ≠ 0 := (hl e mem_cons_self).ne'
    have hrest : ∀ f ∈ l, 0 < f.len := fun f hf => hl f (mem_cons_of_mem _ hf)
    have hstop := haddr e mem_cons_self
    rw [toSlots_cons, mallocScan, if_neg he, allocFirst]
    by_cases hfit : n ≤ e.len
    · right
      rw [if_pos hfit, if_pos (show n ≤ (slotOf e).mSize from hfit)]
      by_cases hall : e.len = n
      · refine ⟨e.base, l, 1, by rw [if_pos hall], rfl, ?_⟩
        have h0 : (slotOf e).mSize - n = 0 := by simp only [slotOf]; omega
        simp only [h0, if_true, closeSlot_toSlots hrest, map_some]
        rfl
      · refine ⟨e.base, ⟨e.base + n, e.len - n⟩ :: l, 0, by rw [if_neg hall], rfl, ?_⟩
        have h0 : ¬ (slotOf e).mSize - n = 0 := by simp only [slotOf]; omega
        have hadd : (e.base + n) % wordSize = e.base + n := by
          refine Nat.mod_eq_of_lt ?_
          unfold Extent.stop at hstop
          omega
        simp only [h0, if_false]
        simp only [slotOf, hadd, toSlots_cons, Nat.add_zero]
    · rw [if_neg hfit, if_neg (show ¬ n ≤ (slotOf e).mSize from hfit)]
      rcases ih hrest fun f hf => haddr f (mem_cons_of_mem _ hf) with
        ⟨h1, h2⟩ | ⟨a, l', d, h1, h2, h3⟩
      · left
        simp only [h1, h2, map_none, map_some, and_self]
      · refine Or.inr ⟨a, e :: l', d, by rw [h1]; rfl, by simp only [length_cons]; omega, ?_⟩
        rw [h3]
        rfl

/-- **`malloc` is first fit on the extents of the map.** -/
theorem malloc_refines {n size : ℕ} {mp : RMap} {l : List Extent} (h : Represents n mp l)
    (hsize : 0 < size) :
    (allocFirst size l = none ∧ malloc mp size = some (0, mp)) ∨
      ∃ a l' mp', allocFirst size l = some (a, l') ∧ malloc mp size = some (a, mp') ∧
        Represents n mp' l' ∧ mp'.mapwant = mp.mapwant := by
  have hsz := h.mapsize
  obtain ⟨k, hk⟩ : ∃ k, n + 1 - l.length = k + 1 := ⟨n - l.length, by omega⟩
  rw [malloc, if_neg hsize.ne', h.slots, hk]
  rcases mallocScan_toSlots h.coalesced.1 (fun e he => (h.addrs e he).2) k with
    ⟨h1, h2⟩ | ⟨a, l', d, h1, h2, h3⟩
  · refine Or.inl ⟨h1, ?_⟩
    have hmod : mp.mapsize % wordSize = mp.mapsize := Nat.mod_eq_of_lt (by have := h.fits; omega)
    rw [h2, map_some, ← hk, ← h.slots]
    simp only [Nat.add_zero, hmod]
  · have hmod : (mp.mapsize + d) % wordSize = mp.mapsize + d :=
      Nat.mod_eq_of_lt (by have := h.fits; omega)
    refine Or.inr ⟨a, l', ⟨mp.mapsize + d, mp.mapwant, toSlots l' (k + 1 + d)⟩, h1,
      by rw [h3, map_some]; simp only [hmod], ?_, rfl⟩
    refine ⟨?_, by simp only; omega, h.fits, h.coalesced.allocFirst h1, ?_⟩
    · simp only
      congr 1
      omega
    · intro f hf
      obtain ⟨e, he, hbase, hstop⟩ := allocFirst_within h1 f hf
      have := h.addrs e he
      omega

/-! ## `mfree` is release -/

theorem findSlot_toSlots (a : ℕ) {l m : List Extent} (hl : ∀ e ∈ l, 0 < e.len ∧ e.base ≤ a)
    (hm : ∀ e ∈ m, a < e.base) (k : ℕ) (before : List MapEnt) :
    ∃ bp rest, toSlots m (k + 1) = bp :: rest ∧
      findSlot a before (toSlots (l ++ m) (k + 1)) =
        some ((l.map slotOf).reverse ++ before, bp, rest) := by
  induction l generalizing before with
  | nil =>
    cases m with
    | nil => exact ⟨⟨0, 0⟩, _, rfl, by simp [toSlots, replicate_succ, findSlot]⟩
    | cons f m =>
      refine ⟨slotOf f, toSlots m (k + 1), rfl, ?_⟩
      have : ¬ (slotOf f).mAddr ≤ a := not_le.mpr (hm f mem_cons_self)
      rw [nil_append, toSlots_cons, findSlot, if_neg fun hc => this hc.1]
      rfl
  | cons e l ih =>
    obtain ⟨he, hea⟩ := hl e mem_cons_self
    obtain ⟨bp, rest, h1, h2⟩ := ih (fun f hf => hl f (mem_cons_of_mem _ hf))
      (slotOf e :: before)
    refine ⟨bp, rest, h1, ?_⟩
    rw [cons_append, toSlots_cons, findSlot, if_pos ⟨hea, he.ne'⟩, h2]
    simp

/-- Where all extents lie beyond the one given back, it can only touch the first. -/
theorem release_eq_joinNext {x : Extent} {l : List Extent} (hl : ∀ e ∈ l, x.base < e.base) :
    release x l = joinNext x l := by
  cases l with
  | nil => rfl
  | cons e l =>
    have he := hl e mem_cons_self
    have : x.base < e.stop := by unfold Extent.stop; omega
    rw [release, if_neg (by omega), if_neg (by omega)]

/-- `a + size` computed in 32 bits hits an extent exactly when the range touches it. -/
theorem touches_iff {x e : Extent} (hx : x.stop ≤ wordSize)
    (he : 0 < e.base ∧ e.stop ≤ wordSize) (hpos : 0 < e.len) :
    (x.base + x.len) % wordSize = e.base ↔ x.stop = e.base := by
  unfold Extent.stop at *
  rcases Nat.lt_or_ge (x.base + x.len) wordSize with h | h
  · rw [Nat.mod_eq_of_lt h]
  · have hw : x.base + x.len = wordSize := le_antisymm hx h
    rw [hw, Nat.mod_self]
    omega

/-- The second branch of `mfree` on the array of the extents beyond the range. -/
theorem mfreeInsert_toSlots (mapsize : ℕ) {x : Extent} {l : List Extent} {k : ℕ} {bp : MapEnt}
    {rest : List MapEnt} (hbp : toSlots l (k + 1) = bp :: rest) (hl : Coalesced l)
    (haddr : ∀ e ∈ l, 0 < e.base ∧ e.stop ≤ wordSize) (hx : x.stop ≤ wordSize) :
    (∃ d, (joinNext x l).length + d = l.length + 1 ∧ (d = 0 → mapsize ≠ 0) ∧
        mfreeInsert mapsize bp rest x.len x.base =
          some (some (mapsize + d - 1, toSlots (joinNext x l) (k + d)))) ∨
      ((joinNext x l).length = l.length + 1 ∧ mapsize = 0 ∧
        mfreeInsert mapsize bp rest x.len x.base = some none) := by
  have hinsert : (shiftUp ⟨x.len, x.base⟩ (bp :: rest)).map (fun l => some (mapsize - 1, l)) =
      some (some (mapsize + 0 - 1, toSlots (x :: l) (k + 0))) := by
    rw [← hbp, show (⟨x.len, x.base⟩ : MapEnt) = slotOf x from rfl, shiftUp_toSlots hl.1]
    rfl
  cases l with
  | nil =>
    rw [toSlots_nil] at hbp
    cases hbp
    have hno : ¬ ((x.base + x.len) % wordSize = (MapEnt.mk 0 0).mAddr ∧ (MapEnt.mk 0 0).mSize ≠ 0) :=
      fun hc => hc.2 rfl
    rw [mfreeInsert, if_neg hno]
    by_cases h0 : mapsize = 0
    · exact Or.inr ⟨rfl, h0, by rw [if_pos h0]⟩
    · exact Or.inl ⟨0, rfl, fun _ => h0, by rw [if_neg h0, hinsert]; rfl⟩
  | cons e l =>
    rw [toSlots_cons] at hbp
    cases hbp
    have hpos := hl.1 e mem_cons_self
    have htouch := touches_iff hx (haddr e mem_cons_self) hpos
    rw [mfreeInsert, joinNext]
    by_cases ht : x.stop = e.base
    · left
      refine ⟨1, by rw [if_pos ht]; rfl, fun h => absurd h (by omega), ?_⟩
      rw [if_pos ht, if_pos ⟨htouch.mpr ht, show (slotOf e).mSize ≠ 0 from hpos.ne'⟩]
      have hbase : e.base - x.len = x.base := by unfold Extent.stop at ht; omega
      simp only [slotOf, toSlots_cons, hbase, Nat.add_sub_cancel, Nat.add_comm e.len x.len]
    · rw [if_neg ht, if_neg fun hc => ht (htouch.mp hc.1)]
      by_cases h0 : mapsize = 0
      · exact Or.inr ⟨rfl, h0, by rw [if_pos h0]⟩
      · exact Or.inl ⟨0, rfl, fun _ => h0, by rw [if_neg h0, hinsert]⟩

/-- The first branch of `mfree` on the array of the extents beyond the range, which
continues the extent `e`. -/
theorem mfreeAppend_toSlots {x e : Extent} {l : List Extent} {mapsize k : ℕ} {bp : MapEnt}
    {rest : List MapEnt} (hbp : toSlots l (k + 1) = bp :: rest) (hl : Coalesced l)
    (haddr : ∀ f ∈ l, 0 < f.base ∧ f.stop ≤ wordSize) (hx : x.stop ≤ wordSize)
    (he : e.stop = x.base) (hmap : mapsize + 1 < wordSize) :
    ∃ d, (joinNext ⟨e.base, e.len + x.len⟩ l).length + d = l.length + 1 ∧
      mfreeAppend mapsize (slotOf e) bp rest x.len x.base =
        some (mapsize + d, toSlots (joinNext ⟨e.base, e.len + x.len⟩ l) (k + 1 + d)) := by
  have hstop : (Extent.mk e.base (e.len + x.len)).stop = x.stop := by
    simp only [Extent.stop] at *; omega
  cases l with
  | nil =>
    rw [toSlots_nil] at hbp
    cases hbp
    refine ⟨0, rfl, ?_⟩
    rw [mfreeAppend, if_neg fun hc => hc.1 rfl]
    rfl
  | cons f l =>
    have hf := haddr f mem_cons_self
    have hpos := hl.1 f mem_cons_self
    have htouch := touches_iff hx hf hpos
    rw [mfreeAppend, ← hbp, compress_toSlots (fun g hg => hl.1 g (mem_cons_of_mem _ hg)) f hpos]
    rw [toSlots_cons] at hbp
    cases hbp
    rw [joinNext, hstop]
    by_cases ht : x.stop = f.base
    · refine ⟨1, by rw [if_pos ht]; rfl, ?_⟩
      rw [if_pos ht, if_pos ⟨show (slotOf f).mAddr ≠ 0 from hf.1.ne', htouch.mpr ht⟩,
        Nat.mod_eq_of_lt hmap]
      rfl
    · refine ⟨0, by rw [if_neg ht]; rfl, ?_⟩
      rw [if_neg ht, if_neg fun hc => ht (htouch.mp hc.2)]
      rfl

theorem mfreeDone_eq (mp : RMap) (mapsize : ℕ) (slots : List MapEnt) :
    mfreeDone mp mapsize slots = (⟨mapsize, 0, slots⟩, .freed (decide (mp.mapwant ≠ 0))) := by
  rw [mfreeDone]
  split_ifs with h
  · simp [h]
  · simp [not_not.mp h]

/-- **`mfree` is release on the extents of the map**, or it loses the range because
no slot is left. -/
theorem mfree_refines {n : ℕ} {mp : RMap} {l : List Extent} {x : Extent} (h : Represents n mp l)
    (hx : 0 < x.len) (hpos : 0 < x.base) (hstop : x.stop ≤ wordSize)
    (hout : ∀ u, x.Has u → ¬ Covers l u) :
    (∃ mp', mfree mp x.len x.base = some (mp', .freed (decide (mp.mapwant ≠ 0))) ∧
        Represents n mp' (release x l) ∧ mp'.mapwant = 0) ∨
      (mfree mp x.len x.base = some (mp, .overflow) ∧ mp.mapsize = 0 ∧
        (release x l).length = l.length + 1) := by
  have hsz := h.mapsize
  have hfits := h.fits
  have hcoal := h.coalesced.release hx hout
  have haddrs : ∀ f ∈ release x l, 0 < f.base ∧ f.stop ≤ wordSize := by
    intro f hf
    have hfpos := hcoal.1 f hf
    constructor
    · rcases base_of_mem_release f hf with hb | ⟨e, he, hb⟩
      · omega
      · rw [← hb]; exact (h.addrs e he).1
    · -- the last unit of `f` is free after the call, so it was free before or is one of the range
      have hlast : Covers (release x l) (f.stop - 1) :=
        ⟨f, hf, by unfold Extent.stop; omega, by unfold Extent.stop; omega⟩
      rcases (covers_release_iff _).mp hlast with ⟨e, he, -, h2⟩ | ⟨-, h2⟩
      · have := (h.addrs e he).2; omega
      · omega
  have hrep : ∀ d : ℕ, (release x l).length + d = l.length + 1 → (d = 0 → mp.mapsize ≠ 0) →
      Represents n ⟨mp.mapsize + d - 1, 0, toSlots (release x l) (n - l.length + d)⟩
        (release x l) := by
    intro d hd h0
    refine ⟨?_, by simp only; omega, hfits, hcoal, haddrs⟩
    simp only
    congr 1
    omega
  obtain ⟨l₁, l₂, rfl, hle, hlt⟩ := h.coalesced.exists_cut x.base
  have hc₂ : Coalesced l₂ :=
    ⟨fun e he => h.coalesced.1 e (mem_append_right _ he),
      (pairwise_append.mp h.coalesced.2).2.1⟩
  have ha₂ : ∀ e ∈ l₂, 0 < e.base ∧ e.stop ≤ wordSize :=
    fun e he => h.addrs e (mem_append_right _ he)
  obtain ⟨k, hk⟩ : ∃ k, n + 1 - (l₁ ++ l₂).length = k + 1 := ⟨n - (l₁ ++ l₂).length, by omega⟩
  have hk' : n - (l₁ ++ l₂).length = k := by omega
  obtain ⟨bp, rest, hbp, hfind⟩ := findSlot_toSlots x.base
    (fun e he => ⟨h.coalesced.1 e (mem_append_left _ he), hle e he⟩) hlt k []
  rw [mfree, if_neg hx.ne', h.slots, hk, hfind, append_nil]
  -- the branch that takes a slot of its own or extends the extent beyond
  have helse : release x (l₁ ++ l₂) = l₁ ++ joinNext x l₂ →
      (∃ mp', mfreeElse mp (l₁.map slotOf).reverse bp rest x.len x.base =
          some (mp', .freed (decide (mp.mapwant ≠ 0))) ∧
          Represents n mp' (release x (l₁ ++ l₂)) ∧ mp'.mapwant = 0) ∨
        (mfreeElse mp (l₁.map slotOf).reverse bp rest x.len x.base = some (mp, .overflow) ∧
          mp.mapsize = 0 ∧ (release x (l₁ ++ l₂)).length = (l₁ ++ l₂).length + 1) := by
    intro hrel
    rcases mfreeInsert_toSlots mp.mapsize hbp hc₂ ha₂ hstop with
      ⟨d, hd, h0, heq⟩ | ⟨hd, h0, heq⟩
    · left
      refine ⟨_, ?_, hrep d ?_ h0, rfl⟩
      · rw [mfreeElse, heq, map_some, reverse_reverse]
        simp only [mfreeDone_eq, hrel, toSlots_append, hk']
      · rw [hrel]; simp only [length_append]; omega
    · right
      refine ⟨by rw [mfreeElse, heq, map_some], h0, ?_⟩
      rw [hrel]; simp only [length_append]; omega
  rcases eq_nil_or_concat l₁ with rfl | ⟨l₀, e, rfl⟩
  · exact helse (release_eq_joinNext hlt)
  · rw [concat_eq_append] at *
    have hmem : e ∈ l₀ ++ [e] ++ l₂ := by simp
    have hbefore : ∀ f ∈ l₀, f.stop < x.base := by
      intro f hf
      have h1 := (pairwise_append.mp (pairwise_append.mp h.coalesced.2).1).2.2 f hf e
        (by simp)
      have h2 := hle e (by simp)
      omega
    have hside : e.stop ≤ x.base := by
      have h1 := hle e (by simp)
      have h2 := h.coalesced.beside hout hx e hmem
      unfold Extent.stop at *
      omega
    have hrel : release x (l₀ ++ [e] ++ l₂) = l₀ ++ release x (e :: l₂) := by
      rw [append_assoc, release_append hbefore, singleton_append]
    have hprev : (e.base + e.len) % wordSize = x.base ↔ e.stop = x.base := by
      rw [Nat.mod_eq_of_lt (by unfold Extent.stop at *; omega)]
      rfl
    rw [map_append, reverse_append]
    simp only [map_cons, map_nil, reverse_singleton, singleton_append]
    by_cases htouch : e.stop = x.base
    · left
      rw [if_pos (show ((slotOf e).mAddr + (slotOf e).mSize) % wordSize = x.base from
        hprev.mpr htouch)]
      obtain ⟨d, hd, heq⟩ := mfreeAppend_toSlots hbp hc₂ ha₂ hstop htouch
        (show mp.mapsize + 1 < wordSize by
          simp only [length_append, length_singleton] at hsz; omega)
      have hj : release x (e :: l₂) = joinNext ⟨e.base, e.len + x.len⟩ l₂ := by
        rw [release, if_neg (by omega), if_pos htouch]
      refine ⟨_, ?_, hrep (d + 1) ?_ (by omega), rfl⟩
      · rw [heq, map_some, mfreeDone_eq, reverse_reverse, hrel, hj, toSlots_append, hk']
        simp only [← Nat.add_assoc, Nat.add_sub_cancel, Nat.add_right_comm k 1 d]
      · rw [hrel, hj]; simp only [length_append, length_singleton]; omega
    · rw [if_neg (show ¬ ((slotOf e).mAddr + (slotOf e).mSize) % wordSize = x.base from
        fun hc => htouch (hprev.mp hc))]
      refine Eq.mp ?_ (helse ?_)
      · simp
      · rw [hrel, release, if_pos (by omega), release_eq_joinNext hlt]
        simp

end Os
