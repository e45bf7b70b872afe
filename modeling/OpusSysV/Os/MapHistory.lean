import OpusSysV.Lib.Run
import OpusSysV.Os.Malloc

/-!
# Histories of a resource map

A map is filled once with a pool of addresses and then used by any sequence of
`malloc` and `mfree` calls in which a range is given back only if it was handed
out and not given back before, and the "mfree map overflow" branch is not taken.
The state keeps, next to the map, the list of ranges outstanding.

`Conserves` is the invariant; `conserves_step` says one call keeps it and
`map_history` what holds after every history.  `Divides.length_le` is the counting
argument that keeps the overflow branch away: a map with more slots than ranges can be
outstanding never overflows.
-/

namespace Os

open Lib List

/-- The live slots: those before the terminator. -/
def RMap.entries (mp : RMap) : List MapEnt := mp.slots.takeWhile fun e => e.mSize ≠ 0

/-- The free extents, read off the live slots. -/
def RMap.free (mp : RMap) : List Extent := mp.entries.map fun e => ⟨e.mAddr, e.mSize⟩

/-- A map together with the ranges handed out and not yet returned. -/
structure MapUse where
  map : RMap
  out : List Extent
  deriving DecidableEq, Repr

/-- The calls of a history. -/
inductive MapCall
  | malloc (size : ℕ)
  | mfree (e : Extent)
  deriving DecidableEq, Repr

/-- One call of a history: a range returned must be outstanding, and a call that
would overflow the map does not happen. -/
def MapUse.step (s : MapUse) : MapCall → Option MapUse
  | .malloc size =>
    (Os.malloc s.map size).map fun r =>
      if r.1 = 0 then ⟨r.2, s.out⟩ else ⟨r.2, ⟨r.1, size⟩ :: s.out⟩
  | .mfree e =>
    if e ∈ s.out then
      match Os.mfree s.map e.len e.base with
      | some (mp, .freed _) => some ⟨mp, s.out.erase e⟩
      | _ => none
    else none

/-! ## The invariant -/

/-- The free extents `l` and the outstanding ranges divide the pool. -/
structure Divides (pool : Extent) (l out : List Extent) : Prop where
  split : ∀ u, pool.Has u ↔ Covers l u ∨ Covers out u
  apart : ∀ u, ¬ (Covers l u ∧ Covers out u)
  outApart : out.Pairwise Extent.Apart
  outPos : ∀ e ∈ out, 0 < e.len

/-- The invariant of a history: the map holds extents that, with the outstanding
ranges, make up the pool. -/
def Conserves (pool : Extent) (n : ℕ) (s : MapUse) : Prop :=
  ∃ l, Represents n s.map l ∧ Divides pool l s.out

theorem Represents.entries_eq {n : ℕ} {mp : RMap} {l : List Extent} (h : Represents n mp l) :
    mp.entries = l.map slotOf := by
  have hsz := h.mapsize
  obtain ⟨k, hk⟩ : ∃ k, n + 1 - l.length = k + 1 := ⟨n - l.length, by omega⟩
  rw [RMap.entries, h.slots, hk, toSlots, takeWhile_append_of_pos, replicate_succ,
    takeWhile_cons_of_neg, append_nil]
  · simp
  · intro e he
    obtain ⟨f, hf, rfl⟩ := mem_map.mp he
    exact decide_eq_true (h.coalesced.1 f hf).ne'

theorem Represents.free_eq {n : ℕ} {mp : RMap} {l : List Extent} (h : Represents n mp l) :
    mp.free = l := by
  rw [RMap.free, h.entries_eq, map_map]
  exact map_id l

/-- Taking a range from the free extents. -/
theorem Divides.take {pool : Extent} {l l' out : List Extent} {a n : ℕ} (h : Divides pool l out)
    (hl : Coalesced l) (hn : 0 < n) (ha : allocFirst n l = some (a, l')) :
    Divides pool l' (⟨a, n⟩ :: out) := by
  have hcov := covers_allocFirst_iff hl ha
  refine ⟨fun u => ?_, fun u => ?_, pairwise_cons.mpr ⟨fun e he u hu => ?_, h.outApart⟩, ?_⟩
  · rw [h.split, hcov, covers_cons, or_assoc]
  · rw [covers_cons]
    rintro ⟨h1, h2 | h2⟩
    · exact not_covers_of_allocFirst hl ha h2 h1
    · exact h.apart u ⟨(hcov u).mpr (Or.inl h1), h2⟩
  · exact h.apart u ⟨(hcov u).mpr (Or.inr hu.1), e, he, hu.2⟩
  · intro e he
    rcases mem_cons.mp he with rfl | he
    · exact hn
    · exact h.outPos e he

/-- An outstanding range shares no unit with the others. -/
theorem not_covers_erase {out : List Extent} (h : out.Pairwise Extent.Apart) {e : Extent}
    (he : e ∈ out) {u : ℕ} (hu : e.Has u) : ¬ Covers (out.erase e) u := by
  have hp := (perm_cons_erase he).pairwise h fun h => h.symm
  rintro ⟨f, hf, hfu⟩
  exact (pairwise_cons.mp hp).1 f hf u ⟨hu, hfu⟩

theorem covers_iff_erase {out : List Extent} {e : Extent} (he : e ∈ out) (u : ℕ) :
    Covers out u ↔ e.Has u ∨ Covers (out.erase e) u := by
  rw [← covers_cons]
  exact ⟨fun ⟨f, hf, hu⟩ => ⟨f, (perm_cons_erase he).mem_iff.mp hf, hu⟩,
    fun ⟨f, hf, hu⟩ => ⟨f, (perm_cons_erase he).mem_iff.mpr hf, hu⟩⟩

/-- Giving an outstanding range back. -/
theorem Divides.give {pool : Extent} {l out : List Extent} {e : Extent} (h : Divides pool l out)
    (he : e ∈ out) : Divides pool (release e l) (out.erase e) := by
  refine ⟨fun u => ?_, fun u => ?_, h.outApart.sublist erase_sublist,
    fun f hf => h.outPos f (mem_of_mem_erase hf)⟩
  · rw [h.split, covers_iff_erase he, covers_release_iff, or_assoc]
  · rw [covers_release_iff]
    rintro ⟨h1 | h1, h2⟩
    · exact h.apart u ⟨h1, (covers_iff_erase he u).mpr (Or.inr h2)⟩
    · exact not_covers_erase h.outApart he h1 h2

theorem Covers.perm {l m : List Extent} (h : l.Perm m) {u : ℕ} (hu : Covers l u) : Covers m u := by
  obtain ⟨e, he, heu⟩ := hu
  exact ⟨e, h.mem_iff.mp he, heu⟩

/-- The order of the outstanding ranges does not matter. -/
theorem Divides.perm {pool : Extent} {l out out' : List Extent} (h : Divides pool l out)
    (hp : out.Perm out') : Divides pool l out' := by
  have hcov : ∀ u, Covers out u ↔ Covers out' u := fun u => ⟨Covers.perm hp, Covers.perm hp.symm⟩
  refine ⟨fun u => ?_, fun u => ?_, hp.pairwise h.outApart fun h => h.symm, fun e he => ?_⟩
  · rw [← hcov]
    exact h.split u
  · rw [← hcov]
    exact h.apart u
  · exact h.outPos e (hp.mem_iff.mpr he)

/-- **The counting argument**: the free extents are at most one more than the outstanding
ranges. -/
theorem Divides.length_le {pool : Extent} {l out : List Extent} (h : Divides pool l out)
    (hl : Coalesced l) : l.length ≤ out.length + 1 := by
  refine length_le_of_partition hl ?_ fun u hu hl => h.apart u ⟨hl, hu⟩
  rintro v ⟨f, hf, hvf⟩ ⟨e, he, hev⟩ hv
  have hfirst := (h.split e.base).mpr (Or.inl ⟨e, he, Extent.has_base (hl.1 e he)⟩)
  have hlast := (h.split f.base).mpr (Or.inl ⟨f, hf, Extent.has_base (hl.1 f hf)⟩)
  have hpool : pool.Has v :=
    ⟨by have := hfirst.1; unfold Extent.stop at hev; omega, lt_trans hvf hlast.2⟩
  exact ((h.split v).mp hpool).resolve_left hv

/-- A map that `mapinit` has set up is empty, and `mapsize` counts its slots. -/
theorem represents_mapinit {y : ℕ} (hy2 : 2 ≤ y) (hy : y < wordSize) :
    (mapinit y).mapsize = y - 2 ∧ Represents (mapinit y).mapsize (mapinit y) [] := by
  have hsize : (mapinit y).mapsize = y - 2 := by
    rw [mapinit, show y + wordSize - 2 = y - 2 + wordSize from Nat.sub_add_comm hy2,
      Nat.add_mod_right]
    exact Nat.mod_eq_of_lt (lt_of_le_of_lt (Nat.sub_le _ _) hy)
  have hslots : (mapinit y).slots = toSlots [] (y - 2 + 1) := by
    rw [show y - 2 + 1 = y - 1 by omega]
    rfl
  refine ⟨hsize, ?_⟩
  rw [hsize]
  exact ⟨hslots, by rw [hsize, length_nil, Nat.add_zero], by omega, coalesced_nil, by simp⟩

/-- A map filled with a pool holds exactly that pool. -/
theorem conserves_init {y : ℕ} (hy : y < wordSize) {pool : Extent} (hlen : 0 < pool.len)
    (hbase : 0 < pool.base) (hstop : pool.stop ≤ wordSize) {mp : RMap} {woke : Bool}
    (h : mfree (mapinit y) pool.len pool.base = some (mp, .freed woke)) :
    Conserves pool (mapinit y).mapsize ⟨mp, []⟩ := by
  have hy2 : 2 ≤ y := by
    by_contra hlt
    have : y - 1 = 0 := by omega
    rw [mfree, if_neg hlen.ne', mapinit, this] at h
    exact absurd h (by simp [findSlot])
  have hrep := (represents_mapinit hy2 hy).2
  rcases mfree_refines hrep hlen hbase hstop (by simp) with ⟨mp', heq, hrep', -⟩ | ⟨heq, -⟩
  · rw [heq] at h
    cases h
    exact ⟨release pool [], hrep', by simp [release], by simp, by simp, by simp⟩
  · rw [heq] at h
    exact absurd h (by simp)

variable {pool : Extent} {n : ℕ} {s t : MapUse}

/-- What an outstanding range offers to `mfree`: positive 32-bit addresses, not free. -/
theorem Divides.outstanding {l out : List Extent} (hd : Divides pool l out)
    (hbase : 0 < pool.base) (hstop : pool.stop ≤ wordSize) {e : Extent} (he : e ∈ out) :
    0 < e.len ∧ 0 < e.base ∧ e.stop ≤ wordSize ∧ ∀ u, e.Has u → ¬ Covers l u := by
  have hpos := hd.outPos e he
  have hin : ∀ u, e.Has u → pool.Has u := fun u hu => (hd.split u).mpr (Or.inr ⟨e, he, hu⟩)
  have hfirst := hin e.base (Extent.has_base hpos)
  have hlast := hin (e.stop - 1) ⟨by unfold Extent.stop; omega, by unfold Extent.stop; omega⟩
  refine ⟨hpos, lt_of_lt_of_le hbase hfirst.1, ?_, fun u hu hc => hd.apart u ⟨hc, e, he, hu⟩⟩
  have := hlast.2
  omega

/-- **One call keeps the invariant.** -/
theorem conserves_step (hbase : 0 < pool.base) (hstop : pool.stop ≤ wordSize) {c : MapCall}
    (h : Conserves pool n s) (hc : s.step c = some t) : Conserves pool n t := by
  obtain ⟨l, hrep, hdiv⟩ := h
  cases c with
  | malloc size =>
    rw [MapUse.step] at hc
    by_cases h0 : size = 0
    · rw [malloc, if_pos h0] at hc
      cases hc
      exact ⟨l, hrep, hdiv⟩
    · rcases malloc_refines hrep (Nat.pos_of_ne_zero h0) with ⟨-, heq⟩ | ⟨a, l', mp', ha, heq, hrep', -⟩
      · rw [heq] at hc
        cases hc
        exact ⟨l, hrep, hdiv⟩
      · obtain ⟨e, he, hea, -⟩ := mem_of_allocFirst ha
        have hapos : a ≠ 0 := by have := (hrep.addrs e he).1; omega
        rw [heq, Option.map_some, if_neg hapos] at hc
        cases hc
        exact ⟨l', hrep', hdiv.take hrep.coalesced (Nat.pos_of_ne_zero h0) ha⟩
  | mfree e =>
    rw [MapUse.step] at hc
    split_ifs at hc with he
    obtain ⟨hpos, hb, hs, hout⟩ := hdiv.outstanding hbase hstop he
    rcases mfree_refines hrep hpos hb hs hout with ⟨mp', heq, hrep', -⟩ | ⟨heq, -⟩
    · rw [heq] at hc
      cases hc
      exact ⟨release e l, hrep', hdiv.give he⟩
    · rw [heq] at hc
      exact absurd hc (by simp)

/-! ## The law of resource maps -/

/-- What holds of a map, and of the next call on it, after any history. -/
structure MapLaw (pool : Extent) (n : ℕ) (s : MapUse) : Prop where
  /-- The entries are strictly increasing, do not overlap and are never adjacent. -/
  coalesced : Coalesced s.map.free
  /-- The entries are followed by a zero size, and by nothing but zeros. -/
  terminated : ∃ k, s.map.slots = s.map.entries ++ List.replicate (k + 1) ⟨0, 0⟩
  /-- The pool consists of the free and of the outstanding units. -/
  split : ∀ u, pool.Has u ↔ Covers s.map.free u ∨ Covers s.out u
  apart : ∀ u, ¬ (Covers s.map.free u ∧ Covers s.out u)
  /-- No unit was handed out twice. -/
  outApart : s.out.Pairwise Extent.Apart
  /-- `mapsize` plus the number of entries is the initial `mapsize`. -/
  mapsize : s.map.mapsize + s.map.entries.length = n
  /-- `malloc` returns 0 only if nothing fits, and otherwise the lowest run that fits. -/
  firstFit : ∀ size, 0 < size → ∃ a mp, malloc s.map size = some (a, mp) ∧
    (a = 0 → ∀ b, ¬ Filled s.map.free b size) ∧
    (a ≠ 0 → Filled s.map.free a size ∧ ∀ b < a, ¬ Filled s.map.free b size)
  /-- Giving an outstanding range back never runs off the array. -/
  mfreeSafe : ∀ e ∈ s.out, (mfree s.map e.len e.base).isSome

theorem Conserves.mapLaw (hbase : 0 < pool.base) (hstop : pool.stop ≤ wordSize)
    (h : Conserves pool n s) : MapLaw pool n s := by
  obtain ⟨l, hrep, hdiv⟩ := h
  have hfree := hrep.free_eq
  have hsz := hrep.mapsize
  constructor
  case coalesced => rw [hfree]; exact hrep.coalesced
  case terminated =>
    refine ⟨n - l.length, ?_⟩
    rw [hrep.entries_eq, hrep.slots, toSlots]
    congr 2
    omega
  case split => rw [hfree]; exact hdiv.split
  case apart => rw [hfree]; exact hdiv.apart
  case outApart => exact hdiv.outApart
  case mapsize => rw [hrep.entries_eq, length_map]; exact hsz
  case firstFit =>
    intro size hsize
    rw [hfree]
    rcases malloc_refines hrep hsize with ⟨hnone, heq⟩ | ⟨a, l', mp', ha, heq, -, -⟩
    · exact ⟨0, s.map, heq, fun _ => (allocFirst_eq_none_iff hsize hrep.coalesced).mp hnone,
        fun hne => absurd rfl hne⟩
    · refine ⟨a, mp', heq, fun h0 => ?_, fun _ => allocFirst_lowest hsize hrep.coalesced ha⟩
      obtain ⟨e, he, hea, -⟩ := mem_of_allocFirst ha
      have := (hrep.addrs e he).1
      omega
  case mfreeSafe =>
    intro e he
    obtain ⟨hpos, hb, hs, hout⟩ := hdiv.outstanding hbase hstop he
    rcases mfree_refines hrep hpos hb hs hout with ⟨mp', heq, -⟩ | ⟨heq, -⟩ <;> rw [heq] <;> rfl

/-- **Resource maps never lose, duplicate or overlap units.**  Fill a map with a
pool of positive addresses and make any calls, returning only what is outstanding
and never overflowing the map: the law holds. -/
theorem map_history {y : ℕ} (hy : y < wordSize) {pool : Extent} (hlen : 0 < pool.len)
    (hbase : 0 < pool.base) (hstop : pool.stop ≤ wordSize) {mp : RMap} {woke : Bool}
    (hinit : mfree (mapinit y) pool.len pool.base = some (mp, .freed woke)) {calls : List MapCall}
    {s : MapUse} (h : exec MapUse.step ⟨mp, []⟩ calls = some s) :
    MapLaw pool (mapinit y).mapsize s :=
  Conserves.mapLaw hbase hstop
    (exec_invariant' (fun _ _ _ hs hstep => conserves_step hbase hstop hs hstep)
      (conserves_init hy hlen hbase hstop hinit) h)

/-- A pool of ten units split by two calls of `malloc`, the first range returned:
the law at a map with two free extents. -/
theorem map_history_split :
    MapLaw ⟨1, 10⟩ (mapinit 8).mapsize
      ⟨⟨4, 0, [⟨3, 1⟩, ⟨5, 6⟩, ⟨0, 0⟩, ⟨0, 0⟩, ⟨0, 0⟩, ⟨0, 0⟩, ⟨0, 0⟩]⟩, [⟨4, 2⟩]⟩ :=
  have hinit : mfree (mapinit 8) 10 1 =
      some (⟨5, 0, [⟨10, 1⟩, ⟨0, 0⟩, ⟨0, 0⟩, ⟨0, 0⟩, ⟨0, 0⟩, ⟨0, 0⟩, ⟨0, 0⟩]⟩, .freed false) := rfl
  have hrun : exec MapUse.step ⟨⟨5, 0, [⟨10, 1⟩, ⟨0, 0⟩, ⟨0, 0⟩, ⟨0, 0⟩, ⟨0, 0⟩, ⟨0, 0⟩, ⟨0, 0⟩]⟩, []⟩
      [.malloc 3, .malloc 2, .mfree ⟨1, 3⟩] = some
        ⟨⟨4, 0, [⟨3, 1⟩, ⟨5, 6⟩, ⟨0, 0⟩, ⟨0, 0⟩, ⟨0, 0⟩, ⟨0, 0⟩, ⟨0, 0⟩]⟩, [⟨4, 2⟩]⟩ := rfl
  map_history (by norm_num [wordSize]) (by decide) (by decide) (by norm_num [wordSize, Extent.stop])
    hinit hrun

end Os
