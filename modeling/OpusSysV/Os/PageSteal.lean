import OpusSysV.Lib.Run
import Mathlib.Data.List.Count
import Mathlib.Data.Int.Order.Basic
import Mathlib.Logic.Function.Basic

/-!
# The page stealer: `vhand`

`vhand` locks one region after the other, collects pages that must be written to swap on the list
`spglst`, and keeps a region locked as long as there are pages of it on the list.  How many there
are is counted in the slots of `gprglst`.

* `Vhand` — the lists, and which regions are locked.
* `bumprcnt`, `addspg`, `swapchunk`, `memfree`, `freelist` — the routines.
* `Vhand.step` — a pass of `vhand` over any regions, any pages and any results of `swalloc`.
* `Counted` — the slots count the pages, and the regions that are to be released are locked.
* `vhand_releases` — that is so all the time, and at the end of a pass nothing is left.

`held` and `failed` are not in the source: the regions that `vhand` has locked and not released,
and whether an assertion or a search has failed or a region was released that was not held.
-/

namespace Os

open Lib Function List Option

/-- `gprgl_t`. -/
structure Gprgl where
  gpr_rgptr : ℕ
  gpr_count : ℤ
  deriving DecidableEq

/-- `pglst_t`; a `gprgl_t` is known by its index. -/
structure Pglst where
  gp_ptptr : ℕ
  gp_rlptr : ℕ
  deriving DecidableEq

/-- The lists of `getpages.c`, where `spglndx` is the length of `spglst`; the page frames of the
page table entries, the region that is looked at, and the locks of the regions. -/
structure Vhand where
  v_maxswaplist : ℕ
  spglst : List Pglst
  gprglst : ℕ → Gprgl
  gprgndx : ℕ
  pfn : ℕ → ℕ
  locked : ℕ → Bool
  cur : Option ℕ
  held : List ℕ
  failed : Bool

namespace Vhand

/-- What an assertion says holds. -/
def assert (s : Vhand) (p : Prop) [Decidable p] : Vhand :=
  { s with failed := s.failed || !decide p }

/-- `reglock(rp)` of a region that is not locked. -/
def reglock (s : Vhand) (rp : ℕ) : Vhand :=
  { s with
    locked := update s.locked rp true
    held := rp :: s.held }

/-- `regrele(rp)`. -/
def regrele (s : Vhand) (rp : ℕ) : Vhand :=
  let s := s.assert (s.locked rp = true ∧ rp ∈ s.held)
  { s with
    locked := update s.locked rp false
    held := s.held.erase rp }

/-- The search of `bumprcnt` for a free slot, from slot `i` on; `none` if it goes on for more than
`n` rounds. -/
def findSlot (count : ℕ → ℤ) (max ndx : ℕ) : ℕ → ℕ → Option ℕ
  | 0, _ => none
  | n + 1, i =>
    if i = ndx then some i
    else
      let i := if max ≤ i then 0 else i
      if count i = 0 then some i else findSlot count max ndx n (i + 1)

/-- `bumprcnt(rp)`; it panics when the search comes back to where it began. -/
def bumprcnt (s : Vhand) (rp : ℕ) : Vhand :=
  let g := s.gprglst s.gprgndx
  if g.gpr_count = 0 ∨ g.gpr_rgptr ≠ rp then
    let found := if g.gpr_count ≠ 0 then
        findSlot (fun i => (s.gprglst i).gpr_count) s.v_maxswaplist s.gprgndx s.v_maxswaplist
          (s.gprgndx + 1)
      else some s.gprgndx
    match found with
    | none => { s with failed := true }
    | some i =>
      if g.gpr_count ≠ 0 ∧ i = s.gprgndx then { s with failed := true }
      else
        { s with
          gprgndx := i
          gprglst := update s.gprglst i ⟨rp, 1⟩ }
  else
    { s with gprglst := update s.gprglst s.gprgndx ⟨g.gpr_rgptr, g.gpr_count + 1⟩ }

/-- `if (--rl->gpr_count == 0 && rp != lockedreg) regrele(rp)` for an entry of the list. -/
def dropPage (s : Vhand) (lockedreg : Option ℕ) (e : Pglst) : Vhand :=
  let g := s.gprglst e.gp_rlptr
  let s := { s with
    gprglst := update s.gprglst e.gp_rlptr ⟨g.gpr_rgptr, g.gpr_count - 1⟩ }
  if g.gpr_count - 1 = 0 ∧ some g.gpr_rgptr ≠ lockedreg then s.regrele g.gpr_rgptr else s

/-- `freelist(lp, count, lockedreg)`. -/
def freelist (s : Vhand) (lockedreg : Option ℕ) (lp : List Pglst) : Vhand :=
  lp.foldl (fun s e => s.dropPage lockedreg e) s

/-- `memfree(pglptr, size, lockedreg)`. -/
def memfree (s : Vhand) (lockedreg : Option ℕ) (pglptr : List Pglst) : Vhand :=
  pglptr.foldl (fun s e =>
    (s.assert (s.locked (s.gprglst e.gp_rlptr).gpr_rgptr = true)).dropPage lockedreg e) s

/-- What `swalloc` does: `none` if there is room for all pages at once, else for how many pages there
is room one by one; and how other processes leave the locks while `swap` sleeps. -/
structure Swapping where
  room : Option ℕ
  others : ℕ → Bool

/-- Other processes change the locks of regions that `vhand` does not hold. -/
def sleep (s : Vhand) (others : ℕ → Bool) : Vhand :=
  { s with locked := fun r => if r ∈ s.held then s.locked r else others r }

/-- How many pages are written. -/
def Swapping.pages (c : Swapping) (spglndx : ℕ) : ℕ :=
  match c.room with
  | none => spglndx
  | some k => if spglndx = 1 then 0 else min k spglndx

/-- `swapchunk(rp)`. -/
def swapchunk (s : Vhand) (rp : Option ℕ) (c : Swapping) : Vhand :=
  let k := c.pages s.spglst.length
  let s := (s.assert (0 < s.spglst.length ∧ s.spglst.length ≤ s.v_maxswaplist))
  let s := if k < s.spglst.length then
      { s.freelist rp (s.spglst.drop k) with spglst := s.spglst.take k }
    else s
  let s := if s.spglst.length ≠ 0 then (s.sleep c.others).memfree rp s.spglst else s
  { s with spglst := [] }

/-- `addspg(rp, pt)`. -/
def addspg (s : Vhand) (rp pt : ℕ) (c : Swapping) : Vhand :=
  let s := s.assert (s.spglst.length ≤ s.v_maxswaplist ∧ s.locked rp = true)
  if ∃ e ∈ s.spglst, s.pfn pt = s.pfn e.gp_ptptr then s
  else
    let s := s.bumprcnt rp
    let s := s.assert (s.spglst.length < s.v_maxswaplist)
    let s := { s with spglst := s.spglst ++ [⟨pt, s.gprgndx⟩] }
    if s.spglst.length = s.v_maxswaplist then s.swapchunk (some rp) c else s

/-- What `vhand` does after `getpages`. -/
def collected (s : Vhand) (rp : ℕ) : Vhand :=
  let g := s.gprglst s.gprgndx
  let s := if g.gpr_count = 0 ∨ g.gpr_rgptr ≠ rp then s.regrele rp else s
  { s with cur := none }

/-- The end of a pass: the list is written if memory is tight. -/
def ending (s : Vhand) (tight : Bool) (c : Swapping) : Vhand :=
  let s := if s.spglst.length ≠ 0 then
      if tight then s.swapchunk none c
      else { s.freelist none s.spglst with spglst := [] }
    else s
  s.assert (s.spglst.length = 0 ∧ (s.gprglst s.gprgndx).gpr_count = 0)

end Vhand

/-- What happens in a pass: `vhand` takes the region that `regoldest` has found, `getpages` adds a
page of it, `getpages` returns, the pass ends; and other processes run until the next pass, `sched`
among them, which uses the slots too and leaves them empty. -/
inductive VhandEvent
  | regoldest (rp : ℕ)
  | addspg (pt : ℕ) (c : Vhand.Swapping)
  | collected
  | ending (tight : Bool) (c : Vhand.Swapping)
  | asleep (others : ℕ → Bool) (pfn rgptr : ℕ → ℕ) (ndx : ℕ)

/-- One event; `regoldest` ignores locked regions. -/
def Vhand.step (s : Vhand) : VhandEvent → Option Vhand
  | .regoldest rp =>
    if s.cur = none ∧ s.locked rp = false then some { s.reglock rp with cur := some rp } else none
  | .addspg pt c => s.cur.map fun rp => s.addspg rp pt c
  | .collected => s.cur.map fun rp => s.collected rp
  | .ending tight c => if s.cur = none then some (s.ending tight c) else none
  | .asleep others pfn rgptr ndx =>
    if s.cur = none ∧ s.spglst = [] ∧ ndx < s.v_maxswaplist then
      some { s.sleep others with
        pfn := pfn
        gprgndx := ndx
        gprglst := fun i => ⟨rgptr i, (s.gprglst i).gpr_count⟩ }
    else none

/-! ## The search for a free slot -/

namespace Vhand

variable {s t : Vhand} {live lp : List Pglst} {e : Pglst} {rp i n : ℕ} {count : ℕ → ℤ}
  {max ndx : ℕ}

/-- The search finds a free slot that comes before slot `ndx` comes again. -/
theorem findSlot_spec (hi : i ≤ max) (hndx : ndx < max) {d : ℕ} (hd : d < n)
    (hfree : count ((i + d) % max) = 0) (hbefore : ∀ k ≤ d, (i + k) % max ≠ ndx) :
    ∃ j < max, findSlot count max ndx n i = some j ∧ count j = 0 := by
  induction n generalizing i d with
  | zero => exact absurd hd (Nat.not_lt_zero d)
  | succ n ih =>
    have hwrap : (if max ≤ i then 0 else i) = i % max := by
      split_ifs with h
      · rw [show i = max by omega, Nat.mod_self]
      · rw [Nat.mod_eq_of_lt (by omega)]
    have hlt : i % max < max := Nat.mod_lt i (by omega)
    have hne : i ≠ ndx := by
      rintro rfl
      exact hbefore 0 (Nat.zero_le d) (Nat.mod_eq_of_lt hndx)
    rw [findSlot, if_neg hne]
    dsimp only
    rw [hwrap]
    split_ifs with h0
    · exact ⟨i % max, hlt, rfl, h0⟩
    · obtain ⟨d, rfl⟩ : ∃ d', d = d' + 1 := ⟨d - 1, by
        have : d ≠ 0 := fun hd0 => h0 (by rwa [hd0] at hfree)
        omega⟩
      have hshift : ∀ k, (i % max + 1 + k) % max = (i + (k + 1)) % max := fun k => by
        rw [Nat.add_assoc, Nat.mod_add_mod, Nat.add_comm 1 k]
      refine ih (d := d) hlt (Nat.lt_of_succ_lt_succ hd) ?_ fun k hk => ?_
      · rwa [hshift]
      · rw [hshift]
        exact hbefore (k + 1) (Nat.succ_le_succ hk)

/-- **The search ends at a free slot** if there is one and the slot it starts behind is not. -/
theorem findSlot_free (hndx : ndx < max) (hused : count ndx ≠ 0) {j : ℕ} (hj : j < max)
    (hfree : count j = 0) :
    ∃ j < max, findSlot count max ndx max (ndx + 1) = some j ∧ count j = 0 := by
  have hjn : j ≠ ndx := fun h => hused (h ▸ hfree)
  -- how far it is to slot `j`
  obtain ⟨d, hd, hdj⟩ : ∃ d < max - 1, (ndx + 1 + d) % max = j := by
    rcases Nat.lt_or_gt_of_ne hjn with hlt | hgt
    · refine ⟨max - 1 - ndx + j, by omega, ?_⟩
      rw [show ndx + 1 + (max - 1 - ndx + j) = j + max by omega, Nat.add_mod_right,
        Nat.mod_eq_of_lt hj]
    · refine ⟨j - ndx - 1, by omega, ?_⟩
      rw [show ndx + 1 + (j - ndx - 1) = j by omega, Nat.mod_eq_of_lt hj]
  refine findSlot_spec (by omega) hndx (d := d) (by omega) (by rwa [hdj]) fun k hk hmod => ?_
  by_cases hwrap : ndx + 1 + k < max
  · rw [Nat.mod_eq_of_lt hwrap] at hmod
    omega
  · rw [Nat.mod_eq_sub_mod (by omega), Nat.mod_eq_of_lt (by omega)] at hmod
    omega

/-! ## What is counted -/

/-- The entries of `live` are counted in the slots, each region in one of them; the regions that
`vhand` holds are those with pages counted and the one it looks at, and they are locked. -/
structure Counted (s : Vhand) (live : List Pglst) : Prop where
  ndx : s.gprgndx < s.v_maxswaplist
  count : ∀ i, (s.gprglst i).gpr_count = (live.countP fun e => e.gp_rlptr = i : ℕ)
  slot : ∀ e ∈ live, e.gp_rlptr < s.v_maxswaplist
  one : ∀ i j, (s.gprglst i).gpr_count ≠ 0 → (s.gprglst j).gpr_count ≠ 0 →
    (s.gprglst i).gpr_rgptr = (s.gprglst j).gpr_rgptr → i = j
  held : ∀ r, r ∈ s.held ↔
    s.cur = some r ∨ ∃ i, (s.gprglst i).gpr_count ≠ 0 ∧ (s.gprglst i).gpr_rgptr = r
  nodup : s.held.Nodup
  locked : ∀ r ∈ s.held, s.locked r = true
  cur : ∀ r, s.cur = some r → ∀ i, (s.gprglst i).gpr_count ≠ 0 → (s.gprglst i).gpr_rgptr = r →
    i = s.gprgndx
  ok : s.failed = false

theorem Counted.perm {live' : List Pglst} (h : s.Counted live) (hp : live.Perm live') :
    s.Counted live' :=
  { h with
    count := fun i => by rw [h.count, hp.countP_eq]
    slot := fun e he => h.slot e (hp.mem_iff.mpr he) }

theorem assert_eq {p : Prop} [Decidable p] (hp : p) (s : Vhand) : s.assert p = s := by
  unfold assert
  rw [decide_eq_true hp, Bool.not_true, Bool.or_false]

/-- The parts of the state that releasing pages leaves alone. -/
structure SameList (s t : Vhand) : Prop where
  max : t.v_maxswaplist = s.v_maxswaplist
  spglst : t.spglst = s.spglst
  ndx : t.gprgndx = s.gprgndx
  pfn : t.pfn = s.pfn
  cur : t.cur = s.cur

theorem SameList.refl (s : Vhand) : s.SameList s := ⟨rfl, rfl, rfl, rfl, rfl⟩

theorem SameList.trans {u : Vhand} (h : s.SameList t) (h' : t.SameList u) : s.SameList u :=
  ⟨h'.max.trans h.max, h'.spglst.trans h.spglst, h'.ndx.trans h.ndx, h'.pfn.trans h.pfn,
    h'.cur.trans h.cur⟩

theorem Counted.rgptr_held (h : s.Counted (e :: live)) :
    (s.gprglst e.gp_rlptr).gpr_count ≠ 0 ∧ (s.gprglst e.gp_rlptr).gpr_rgptr ∈ s.held := by
  have hne : (s.gprglst e.gp_rlptr).gpr_count ≠ 0 := by
    rw [h.count, countP_cons_of_pos (by simp)]
    omega
  exact ⟨hne, (h.held _).mpr (Or.inr ⟨_, hne, rfl⟩)⟩

/-- **A page is taken off**, and its region is released with the last one. -/
theorem counted_dropPage (h : s.Counted (e :: live)) :
    (s.dropPage s.cur e).Counted live ∧ s.SameList (s.dropPage s.cur e) := by
  obtain ⟨hne, hmem⟩ := h.rgptr_held
  obtain ⟨i, hi⟩ : ∃ i, i = e.gp_rlptr := ⟨_, rfl⟩
  obtain ⟨g, hg⟩ : ∃ g, g = s.gprglst i := ⟨_, rfl⟩
  rw [← hi, ← hg] at hne hmem
  have hcount : ∀ j, (update s.gprglst i ⟨g.gpr_rgptr, g.gpr_count - 1⟩ j).gpr_count =
      (live.countP fun e => e.gp_rlptr = j : ℕ) := by
    intro j
    have hj := h.count j
    by_cases hji : j = i
    · subst hji
      rw [countP_cons_of_pos (by simpa using hi.symm)] at hj
      rw [update_self, hg]
      dsimp only
      omega
    · rw [countP_cons_of_neg (by simpa using fun h => hji (h.symm.trans hi.symm))] at hj
      rw [update_of_ne hji, hj]
  have hrgptr : ∀ j, (update s.gprglst i ⟨g.gpr_rgptr, g.gpr_count - 1⟩ j).gpr_rgptr =
      (s.gprglst j).gpr_rgptr := by
    intro j
    rw [update_apply]
    split_ifs with hji
    · rw [hji, hg]
    · rfl
  -- a slot that is still in use was in use
  have hold : ∀ j, (update s.gprglst i ⟨g.gpr_rgptr, g.gpr_count - 1⟩ j).gpr_count ≠ 0 →
      (s.gprglst j).gpr_count ≠ 0 := by
    intro j hj
    by_cases hji : j = i
    · rw [hji, ← hg]
      exact hne
    · rwa [update_of_ne hji] at hj
  unfold dropPage
  dsimp only
  rw [← hi, ← hg]
  split_ifs with hlast
  · obtain ⟨hzero, hcur⟩ := hlast
    obtain ⟨u, hu⟩ : ∃ u, u = ({ s with
      gprglst := update s.gprglst i ⟨g.gpr_rgptr, g.gpr_count - 1⟩ } : Vhand) := ⟨_, rfl⟩
    rw [← hu]
    have hassert : u.assert (u.locked g.gpr_rgptr = true ∧ g.gpr_rgptr ∈ u.held) = u :=
      assert_eq (by rw [hu]; exact ⟨h.locked _ hmem, hmem⟩) u
    unfold regrele
    rw [hassert, hu]
    refine ⟨⟨h.ndx, hcount, fun e he => h.slot e (mem_cons_of_mem _ he), fun j k hj hk => ?_,
      fun r => ?_, h.nodup.erase _, fun r hr => ?_, fun r hr j hj => ?_, h.ok⟩,
      ⟨rfl, rfl, rfl, rfl, rfl⟩⟩
    · dsimp only
      rw [hrgptr, hrgptr]
      exact h.one j k (hold j hj) (hold k hk)
    · dsimp only
      rw [h.nodup.mem_erase_iff, h.held]
      constructor
      · rintro ⟨hr, hc | ⟨j, hj, hjr⟩⟩
        · exact Or.inl hc
        · refine Or.inr ⟨j, ?_, (hrgptr j).trans hjr⟩
          have hji : j ≠ i := fun hji => hr (by rw [← hjr, hji, ← hg])
          rwa [update_of_ne hji]
      · rintro (hc | ⟨j, hj, hjr⟩)
        · exact ⟨fun hr => hcur (hr ▸ hc.symm), Or.inl hc⟩
        · rw [hrgptr] at hjr
          refine ⟨fun hr => ?_, Or.inr ⟨j, hold j hj, hjr⟩⟩
          have hji : j = i := h.one j i (hold j hj) (hg ▸ hne) (by rw [hjr, hr, hg])
          rw [hji, update_self] at hj
          exact hj hzero
    · dsimp only at hr ⊢
      rw [h.nodup.mem_erase_iff] at hr
      rw [update_of_ne hr.1]
      exact h.locked r hr.2
    · dsimp only
      rw [hrgptr]
      exact h.cur r hr j (hold j hj)
  · refine ⟨⟨h.ndx, hcount, fun e he => h.slot e (mem_cons_of_mem _ he), fun j k hj hk => ?_,
      fun r => ?_, h.nodup, h.locked, fun r hr j hj => ?_, h.ok⟩, ⟨rfl, rfl, rfl, rfl, rfl⟩⟩
    · dsimp only
      rw [hrgptr, hrgptr]
      exact h.one j k (hold j hj) (hold k hk)
    · dsimp only
      rw [h.held]
      constructor
      · rintro (hc | ⟨j, hj, hjr⟩)
        · exact Or.inl hc
        · by_cases hji : j = i
          · subst hji
            rw [← hg] at hjr
            by_cases hzero : g.gpr_count - 1 = 0
            · have := not_and_not_right.mp hlast hzero
              exact Or.inl (by rw [← this, hjr])
            · exact Or.inr ⟨j, by rwa [update_self], by rw [update_self, hjr]⟩
          · refine Or.inr ⟨j, ?_, (hrgptr j).trans hjr⟩
            rwa [update_of_ne hji]
      · rintro (hc | ⟨j, hj, hjr⟩)
        · exact Or.inl hc
        · exact Or.inr ⟨j, hold j hj, (hrgptr j).symm.trans hjr⟩
    · dsimp only
      rw [hrgptr]
      exact h.cur r hr j (hold j hj)

/-- `freelist` takes off some of the pages. -/
theorem counted_freelist (h : s.Counted (lp ++ live)) :
    (s.freelist s.cur lp).Counted live ∧ s.SameList (s.freelist s.cur lp) := by
  unfold freelist
  induction lp generalizing s with
  | nil => exact ⟨h, .refl s⟩
  | cons e lp ih =>
    obtain ⟨h1, h2⟩ := counted_dropPage h
    obtain ⟨h3, h4⟩ := ih h1
    rw [h2.cur] at h3 h4
    exact ⟨h3, h2.trans h4⟩

/-- So does `memfree`, which finds all regions locked. -/
theorem counted_memfree (h : s.Counted (lp ++ live)) :
    (s.memfree s.cur lp).Counted live ∧ s.SameList (s.memfree s.cur lp) := by
  unfold memfree
  induction lp generalizing s with
  | nil => exact ⟨h, .refl s⟩
  | cons e lp ih =>
    rw [foldl_cons, assert_eq (h.locked _ h.rgptr_held.2)]
    obtain ⟨h1, h2⟩ := counted_dropPage h
    obtain ⟨h3, h4⟩ := ih h1
    rw [h2.cur] at h3 h4
    exact ⟨h3, h2.trans h4⟩

theorem counted_sleep (h : s.Counted live) (others : ℕ → Bool) :
    (s.sleep others).Counted live :=
  { h with
    locked := fun r hr => by
      have hr : r ∈ s.held := hr
      unfold sleep
      dsimp only
      rw [if_pos hr]
      exact h.locked r hr }

/-- Only what is kept of the list is looked at by what follows. -/
theorem Counted.relist (h : s.Counted live) (l : List Pglst) :
    ({ s with spglst := l } : Vhand).Counted live :=
  ⟨h.ndx, h.count, h.slot, h.one, h.held, h.nodup, h.locked, h.cur, h.ok⟩

/-- **`swapchunk` empties the list**, however much room there is for it. -/
theorem counted_swapchunk (h : s.Counted s.spglst) (hpos : 0 < s.spglst.length)
    (hle : s.spglst.length ≤ s.v_maxswaplist) (c : Swapping) :
    (s.swapchunk s.cur c).Counted [] ∧ (s.swapchunk s.cur c).spglst = [] ∧
      (s.swapchunk s.cur c).cur = s.cur ∧
      (s.swapchunk s.cur c).v_maxswaplist = s.v_maxswaplist := by
  unfold swapchunk
  dsimp only
  rw [assert_eq ⟨hpos, hle⟩]
  obtain ⟨k, hk⟩ : ∃ k, k = c.pages s.spglst.length := ⟨_, rfl⟩
  rw [← hk]
  -- the pages for which there is no room
  obtain ⟨u, hu⟩ : ∃ u, u = (if k < s.spglst.length then
      { s.freelist s.cur (s.spglst.drop k) with spglst := s.spglst.take k } else s) := ⟨_, rfl⟩
  rw [← hu]
  have hcu : u.Counted u.spglst ∧ u.cur = s.cur ∧ u.v_maxswaplist = s.v_maxswaplist := by
    split_ifs at hu with hlt
    · have hperm : s.spglst.Perm (s.spglst.drop k ++ s.spglst.take k) := by
        conv_lhs => rw [← take_append_drop k s.spglst]
        exact perm_append_comm
      obtain ⟨h1, h2⟩ := counted_freelist (h.perm hperm)
      rw [hu]
      exact ⟨h1.relist _, h2.cur, h2.max⟩
    · rw [hu]
      exact ⟨h, rfl, rfl⟩
  obtain ⟨h1, h2, h3⟩ := hcu
  rw [← h2, ← h3]
  by_cases hlen : u.spglst.length = 0
  · rw [if_neg (not_not_intro hlen)]
    rw [length_eq_zero_iff.mp hlen] at h1
    exact ⟨h1.relist _, rfl, rfl, rfl⟩
  · rw [if_pos hlen]
    have h4 := counted_sleep h1 c.others
    rw [← append_nil u.spglst] at h4
    obtain ⟨h5, h6⟩ := counted_memfree h4
    exact ⟨h5.relist _, rfl, h6.cur, h6.max⟩

/-! ## Collecting -/

/-- **A slot is found**: there are fewer pages on the list than slots. -/
theorem exists_free (h : s.Counted live) (hlen : live.length < s.v_maxswaplist) :
    ∃ j < s.v_maxswaplist, (s.gprglst j).gpr_count = 0 := by
  by_contra hno
  have hused : ∀ j < s.v_maxswaplist, (s.gprglst j).gpr_count ≠ 0 := fun j hj h0 =>
    hno ⟨j, hj, h0⟩
  have hsub : List.range s.v_maxswaplist ⊆ live.map Pglst.gp_rlptr := fun j hj => by
    have := hused j (mem_range.mp hj)
    rw [h.count] at this
    have hpos : 0 < live.countP fun e => e.gp_rlptr = j := by omega
    obtain ⟨e, he, hej⟩ := countP_pos_iff.mp hpos
    exact mem_map.mpr ⟨e, he, of_decide_eq_true hej⟩
  have := (subperm_of_subset nodup_range hsub).length_le
  rw [length_range, length_map] at this
  omega

/-- **`bumprcnt` counts one more page of its region.** -/
theorem counted_bumprcnt (h : s.Counted live) (hlen : live.length < s.v_maxswaplist)
    (hcur : s.cur = some rp) (pt : ℕ) :
    (s.bumprcnt rp).Counted (⟨pt, (s.bumprcnt rp).gprgndx⟩ :: live) ∧
      (s.bumprcnt rp).spglst = s.spglst ∧ (s.bumprcnt rp).cur = s.cur ∧
      (s.bumprcnt rp).v_maxswaplist = s.v_maxswaplist := by
  obtain ⟨g, hg⟩ : ∃ g, g = s.gprglst s.gprgndx := ⟨_, rfl⟩
  by_cases hnew : g.gpr_count = 0 ∨ g.gpr_rgptr ≠ rp
  · -- the region is in no slot: it would be in this one
    have hnone : ∀ i, (s.gprglst i).gpr_count ≠ 0 → (s.gprglst i).gpr_rgptr ≠ rp := by
      intro i hi hrp
      have := h.cur rp hcur i hi hrp
      rw [this, ← hg] at hi hrp
      exact hnew.elim hi fun hne => hne hrp
    obtain ⟨i, hi, hfound, hfree⟩ : ∃ i < s.v_maxswaplist,
        (if g.gpr_count ≠ 0 then
          findSlot (fun i => (s.gprglst i).gpr_count) s.v_maxswaplist s.gprgndx s.v_maxswaplist
            (s.gprgndx + 1)
        else some s.gprgndx) = some i ∧ (s.gprglst i).gpr_count = 0 := by
      by_cases h0 : g.gpr_count = 0
      · rw [if_neg (not_not_intro h0)]
        exact ⟨s.gprgndx, h.ndx, rfl, hg ▸ h0⟩
      · rw [if_pos h0]
        obtain ⟨j, hj, hjfree⟩ := exists_free h hlen
        exact findSlot_free h.ndx (hg ▸ h0) hj hjfree
    have hni : ¬ (g.gpr_count ≠ 0 ∧ i = s.gprgndx) := fun hc => hc.1 (by rw [hg, ← hc.2, hfree])
    have heq : s.bumprcnt rp = { s with
        gprgndx := i
        gprglst := update s.gprglst i ⟨rp, 1⟩ } := by
      unfold bumprcnt
      dsimp only
      rw [← hg, if_pos hnew, hfound]
      dsimp only
      rw [if_neg hni]
    have hzero : live.countP (fun e => e.gp_rlptr = i) = 0 := by
      have := h.count i
      omega
    have hkeep : ∀ j, j ≠ i → update s.gprglst i ⟨rp, 1⟩ j = s.gprglst j := fun j hj =>
      update_of_ne hj ..
    have hself : update s.gprglst i ⟨rp, 1⟩ i = ⟨rp, 1⟩ := update_self ..
    rw [heq]
    refine ⟨⟨hi, fun j => ?_, forall_mem_cons.mpr ⟨hi, h.slot⟩, fun j k hj hk hjk => ?_,
      fun r => ?_, h.nodup, h.locked, fun r hr j hj hjr => ?_, h.ok⟩, rfl, rfl, rfl⟩
    · dsimp only
      by_cases hji : j = i
      · subst hji
        rw [hself, countP_cons_of_pos (by simp), hzero]
        rfl
      · rw [hkeep j hji, h.count, countP_cons_of_neg (by simpa using Ne.symm hji)]
    · dsimp only at hj hk hjk
      by_cases hji : j = i <;> by_cases hki : k = i
      · rw [hji, hki]
      · subst hji
        rw [hself, hkeep k hki] at hjk
        rw [hkeep k hki] at hk
        exact absurd hjk.symm (hnone k hk)
      · subst hki
        rw [hself, hkeep j hji] at hjk
        rw [hkeep j hji] at hj
        exact absurd hjk (hnone j hj)
      · rw [hkeep j hji] at hj hjk
        rw [hkeep k hki] at hk hjk
        exact h.one j k hj hk hjk
    · dsimp only
      rw [h.held]
      constructor
      · rintro (hc | ⟨j, hj, hjr⟩)
        · exact Or.inl hc
        · have hji : j ≠ i := fun hji => hj (hji ▸ hfree)
          exact Or.inr ⟨j, by rwa [hkeep j hji], by rwa [hkeep j hji]⟩
      · rintro (hc | ⟨j, hj, hjr⟩)
        · exact Or.inl hc
        · by_cases hji : j = i
          · rw [hji, hself] at hjr
            exact Or.inl (by rw [hcur, ← hjr])
          · rw [hkeep j hji] at hj hjr
            exact Or.inr ⟨j, hj, hjr⟩
    · dsimp only at hj hjr
      by_cases hji : j = i
      · exact hji
      · rw [hkeep j hji] at hj hjr
        rw [hcur] at hr
        cases hr
        exact absurd hjr (hnone j hj)
  · obtain ⟨hne, hrp⟩ := not_or.mp hnew
    have heq : s.bumprcnt rp = { s with
        gprglst := update s.gprglst s.gprgndx ⟨g.gpr_rgptr, g.gpr_count + 1⟩ } := by
      unfold bumprcnt
      dsimp only
      rw [← hg, if_neg hnew]
    obtain ⟨i, hi⟩ : ∃ i, i = s.gprgndx := ⟨_, rfl⟩
    have hrgptr : ∀ j, (update s.gprglst i ⟨g.gpr_rgptr, g.gpr_count + 1⟩ j).gpr_rgptr =
        (s.gprglst j).gpr_rgptr := by
      intro j
      rw [update_apply]
      split_ifs with hji
      · rw [hji, hg, hi]
      · rfl
    have hcount : ∀ j, (update s.gprglst i ⟨g.gpr_rgptr, g.gpr_count + 1⟩ j).gpr_count =
        ((⟨pt, i⟩ :: live).countP fun e => e.gp_rlptr = j : ℕ) := by
      intro j
      have hj := h.count j
      rw [update_apply]
      split_ifs with hji
      · subst hji
        rw [countP_cons_of_pos (by simp), hg, ← hi, hj]
        dsimp only
        omega
      · rw [hj, countP_cons_of_neg (by simpa using Ne.symm hji)]
    have huse : ∀ j, (update s.gprglst i ⟨g.gpr_rgptr, g.gpr_count + 1⟩ j).gpr_count ≠ 0 ↔
        (s.gprglst j).gpr_count ≠ 0 := by
      intro j
      by_cases hji : j = i
      · have hgj : s.gprglst j = g := by rw [hg, hji, hi]
        have := h.count j
        rw [hgj] at this ⊢
        rw [hji, update_self]
        dsimp only
        omega
      · rw [update_of_ne hji]
    have hndx : i < s.v_maxswaplist := hi ▸ h.ndx
    rw [heq, ← hi]
    refine ⟨⟨hndx, hcount, forall_mem_cons.mpr ⟨hndx, h.slot⟩, fun j k hj hk hjk => ?_,
      fun r => ?_, h.nodup, h.locked, fun r hr j hj hjr => ?_, h.ok⟩, rfl, rfl, rfl⟩
    · dsimp only at hj hk hjk
      rw [hrgptr, hrgptr] at hjk
      exact h.one j k ((huse j).mp hj) ((huse k).mp hk) hjk
    · dsimp only
      rw [h.held]
      refine or_congr_right (exists_congr fun j => ?_)
      rw [huse, hrgptr]
    · dsimp only at hj hjr
      rw [hrgptr] at hjr
      exact (h.cur r hr j ((huse j).mp hj) hjr).trans hi.symm

/-! ## A pass -/

/-- Between two calls the list has room for one more page. -/
structure Sound (s : Vhand) : Prop where
  counted : s.Counted s.spglst
  room : s.spglst.length < s.v_maxswaplist

theorem sound_addspg (h : s.Sound) (hcur : s.cur = some rp) (pt : ℕ) (c : Swapping) :
    (s.addspg rp pt c).Sound := by
  have hlock : s.locked rp = true :=
    h.counted.locked rp ((h.counted.held rp).mpr (Or.inl hcur))
  have hroom := h.room
  by_cases hdup : ∃ e ∈ s.spglst, s.pfn pt = s.pfn e.gp_ptptr
  · unfold addspg
    dsimp only
    rw [assert_eq ⟨Nat.le_of_lt hroom, hlock⟩, if_pos hdup]
    exact h
  obtain ⟨h1, h2, h3, h4⟩ := counted_bumprcnt h.counted hroom hcur pt
  obtain ⟨u, hu⟩ : ∃ u, u = ({ s.bumprcnt rp with
    spglst := (s.bumprcnt rp).spglst ++ [⟨pt, (s.bumprcnt rp).gprgndx⟩] } : Vhand) := ⟨_, rfl⟩
  have heq : s.addspg rp pt c =
      if u.spglst.length = u.v_maxswaplist then u.swapchunk (some rp) c else u := by
    unfold addspg
    dsimp only
    rw [assert_eq ⟨Nat.le_of_lt hroom, hlock⟩, if_neg hdup, assert_eq (by rw [h2, h4]; exact hroom),
      hu]
  rw [heq]
  have hadd : u.Counted u.spglst := by
    rw [hu, h2]
    exact (h1.perm (perm_append_singleton _ _).symm).relist _
  have hucur : u.cur = some rp := by rw [hu, ← hcur, ← h3]
  have humax : u.v_maxswaplist = s.v_maxswaplist := by rw [hu, ← h4]
  have hulen : u.spglst.length = s.spglst.length + 1 := by
    rw [hu, h2]
    exact length_append
  split_ifs with hfull
  · obtain ⟨h5, h6, -, h8⟩ := counted_swapchunk hadd (by omega) (by omega) c
    rw [hucur] at h5 h6 h8
    refine ⟨h6.symm ▸ h5, ?_⟩
    rw [h6, h8, humax]
    exact Nat.lt_of_le_of_lt (Nat.zero_le _) hroom
  · exact ⟨hadd, by omega⟩

/-- A region that is on no list is released after `getpages`. -/
theorem sound_collected (h : s.Sound) (hcur : s.cur = some rp) : (s.collected rp).Sound := by
  have hc := h.counted
  have hheld : rp ∈ s.held := (hc.held rp).mpr (Or.inl hcur)
  unfold collected
  dsimp only
  split_ifs with hnone
  · have hassert : s.assert (s.locked rp = true ∧ rp ∈ s.held) = s :=
      assert_eq ⟨hc.locked rp hheld, hheld⟩ s
    have hnot : ∀ i, (s.gprglst i).gpr_count ≠ 0 → (s.gprglst i).gpr_rgptr ≠ rp := by
      intro i hi hrp
      have := hc.cur rp hcur i hi hrp
      rw [this] at hi hrp
      exact hnone.elim hi fun hne => hne hrp
    unfold regrele
    rw [hassert]
    refine ⟨⟨hc.ndx, hc.count, hc.slot, hc.one, fun r => ?_, hc.nodup.erase _, fun r hr => ?_,
      fun _ h => (nomatch h), hc.ok⟩, h.room⟩
    · dsimp only
      rw [hc.nodup.mem_erase_iff, hc.held, hcur]
      constructor
      · rintro ⟨hr, hrp | hex⟩
        · cases hrp
          exact absurd rfl hr
        · exact Or.inr hex
      · rintro (hno | ⟨i, hi, hir⟩)
        · cases hno
        · exact ⟨fun hr => hnot i hi (hir.trans hr), Or.inr ⟨i, hi, hir⟩⟩
    · dsimp only at hr ⊢
      rw [hc.nodup.mem_erase_iff] at hr
      rw [update_of_ne hr.1]
      exact hc.locked r hr.2
  · obtain ⟨hne, hrp⟩ := not_or.mp hnone
    refine ⟨⟨hc.ndx, hc.count, hc.slot, hc.one, fun r => ?_, hc.nodup, hc.locked,
      fun _ h => (nomatch h), hc.ok⟩, h.room⟩
    dsimp only
    rw [hc.held, hcur]
    constructor
    · rintro (hr | hex)
      · cases hr
        exact Or.inr ⟨s.gprgndx, hne, not_not.mp hrp⟩
      · exact Or.inr hex
    · rintro (hno | hex)
      · cases hno
      · exact Or.inr hex

/-- Nothing is left: no page on the list, no page counted, no region held. -/
structure Settled (s : Vhand) : Prop where
  spglst : s.spglst = []
  count : ∀ i, (s.gprglst i).gpr_count = 0
  held : s.held = []

theorem settled_of_counted (h : s.Counted []) (hl : s.spglst = []) (hcur : s.cur = none) :
    s.Settled := by
  have h0 : ∀ i, (s.gprglst i).gpr_count = 0 := fun i => h.count i
  refine ⟨hl, h0, eq_nil_iff_forall_not_mem.mpr fun r hr => ?_⟩
  rcases (h.held r).mp hr with hc | ⟨i, hi, -⟩
  · rw [hcur] at hc
    cases hc
  · exact hi (h0 i)

/-- **At the end of a pass nothing is left.** -/
theorem sound_ending (h : s.Sound) (hcur : s.cur = none) (tight : Bool) (c : Swapping) :
    (s.ending tight c).Sound ∧ (s.ending tight c).Settled := by
  have hroom := h.room
  unfold ending
  dsimp only
  obtain ⟨u, hu⟩ : ∃ u, u = (if s.spglst.length ≠ 0 then
      if tight then s.swapchunk none c else { s.freelist none s.spglst with spglst := [] }
    else s) := ⟨_, rfl⟩
  rw [← hu]
  have hcu : u.Counted [] ∧ u.spglst = [] ∧ u.cur = none ∧ u.v_maxswaplist = s.v_maxswaplist := by
    split_ifs at hu with hlen htight
    · obtain ⟨h1, h2, h3, h4⟩ := counted_swapchunk h.counted (by omega) (Nat.le_of_lt hroom) c
      rw [hcur, ← hu] at h1 h2 h3 h4
      exact ⟨h1, h2, h3, h4⟩
    · have hc := h.counted
      rw [← append_nil s.spglst] at hc
      obtain ⟨h1, h2⟩ := counted_freelist hc
      rw [hcur] at h1 h2
      rw [hu]
      exact ⟨h1.relist _, rfl, h2.cur.trans hcur, h2.max⟩
    · have hnil := length_eq_zero_iff.mp (not_not.mp hlen)
      have hc := h.counted
      rw [hnil] at hc
      rw [hu]
      exact ⟨hc, hnil, hcur, rfl⟩
  obtain ⟨h1, h2, h3, h4⟩ := hcu
  have hset := settled_of_counted h1 h2 h3
  rw [assert_eq ⟨by rw [h2]; rfl, hset.count _⟩]
  refine ⟨⟨h2.symm ▸ h1, ?_⟩, hset⟩
  rw [h2, h4]
  exact Nat.lt_of_le_of_lt (Nat.zero_le _) hroom

theorem sound_step {e : VhandEvent} (h : s.Sound) (hstep : s.step e = some t) :
    t.Sound ∧ ∀ tight c, e = .ending tight c → t.Settled := by
  cases e with
  | regoldest rp =>
    rw [step] at hstep
    split_ifs at hstep with hc
    cases hstep
    obtain ⟨hcur, hfree⟩ := hc
    have hh := h.counted
    have hnew : rp ∉ s.held := fun hr => by
      have := hh.locked rp hr
      rw [hfree] at this
      cases this
    have hnot : ∀ i, (s.gprglst i).gpr_count ≠ 0 → (s.gprglst i).gpr_rgptr ≠ rp :=
      fun i hi hrp => hnew ((hh.held rp).mpr (Or.inr ⟨i, hi, hrp⟩))
    refine ⟨⟨⟨hh.ndx, hh.count, hh.slot, hh.one, fun r => ?_, nodup_cons.mpr ⟨hnew, hh.nodup⟩,
      fun r hr => ?_, fun r hr i hi hir => ?_, hh.ok⟩, h.room⟩, fun _ _ h => nomatch h⟩
    · unfold reglock
      dsimp only
      rw [mem_cons, hh.held, hcur, some_inj, eq_comm]
      refine or_congr_right ⟨fun hr => hr.resolve_left fun h => (nomatch h), Or.inr⟩
    · have hr : r ∈ rp :: s.held := hr
      unfold reglock
      dsimp only
      rw [update_apply]
      split_ifs with hrp
      · rfl
      · exact hh.locked r ((mem_cons.mp hr).resolve_left hrp)
    · cases hr
      exact absurd hir (hnot i hi)
  | addspg pt c =>
    obtain ⟨rp, hcur, rfl⟩ := map_eq_some_iff.mp hstep
    exact ⟨sound_addspg h hcur pt c, fun _ _ h => nomatch h⟩
  | collected =>
    obtain ⟨rp, hcur, rfl⟩ := map_eq_some_iff.mp hstep
    exact ⟨sound_collected h hcur, fun _ _ h => nomatch h⟩
  | ending tight c =>
    rw [step] at hstep
    split_ifs at hstep with hcur
    cases hstep
    obtain ⟨h1, h2⟩ := sound_ending h hcur tight c
    exact ⟨h1, fun _ _ _ => h2⟩
  | asleep others pfn rgptr ndx =>
    rw [step] at hstep
    split_ifs at hstep with hc
    cases hstep
    obtain ⟨hcur, hnil, hndx⟩ := hc
    have hh := h.counted
    rw [hnil] at hh
    have hset := settled_of_counted hh hnil hcur
    have h0 := hset.count
    refine ⟨⟨?_, h.room⟩, fun _ _ h => nomatch h⟩
    have hl : (s.sleep others).spglst = [] := hnil
    dsimp only
    rw [hl]
    refine ⟨hndx, hh.count, hh.slot, fun i _ hi => absurd (h0 i) hi, fun r => ?_, hh.nodup,
      (counted_sleep hh others).locked, fun r _ i hi => absurd (h0 i) hi, hh.ok⟩
    have hheld : (s.sleep others).held = [] := hset.held
    have hcur : (s.sleep others).cur = none := hcur
    dsimp only
    rw [hheld, hcur]
    exact iff_of_false not_mem_nil fun h => h.elim (fun h => (nomatch h))
      fun ⟨i, hi, _⟩ => hi (h0 i)

/-- `vhand` begins: nothing is on the lists, and there is room for a page. -/
def Begins (s : Vhand) : Prop :=
  s.Settled ∧ s.cur = none ∧ s.failed = false ∧ s.gprgndx < s.v_maxswaplist

theorem sound_begins (h : s.Begins) : s.Sound := by
  obtain ⟨hset, hcur, hok, hndx⟩ := h
  have h0 := hset.count
  refine ⟨?_, by rw [hset.spglst]; exact Nat.lt_of_le_of_lt (Nat.zero_le _) hndx⟩
  rw [hset.spglst]
  refine ⟨hndx, h0, fun _ h => (nomatch h), fun i _ hi => absurd (h0 i) hi, fun r => ?_, ?_, ?_,
    fun _ _ i hi => absurd (h0 i) hi, hok⟩
  · rw [hset.held, hcur]
    exact iff_of_false not_mem_nil fun h => h.elim (fun h => (nomatch h))
      fun ⟨i, hi, _⟩ => hi (h0 i)
  · rw [hset.held]
    exact .nil
  · rw [hset.held]
    exact fun _ h => nomatch h

/-- **The page stealer releases every region exactly once.**  After every event of any passes the
slots count the pages on the list, no assertion and no search has failed, and the regions with pages
on the list are locked; at the end of a pass every region that was locked has been released. -/
theorem vhand_releases {es : List VhandEvent} (hs : s.Begins) (h : exec step s es = some t) :
    t.Sound ∧ ∀ e ∈ es.getLast?, ∀ tight c, e = .ending tight c → t.Settled :=
  exec_last (P := Sound)
    (Q := fun (t : Vhand) (e : VhandEvent) => ∀ tight c, e = .ending tight c → t.Settled)
    (fun _ _ _ hs _ hstep => sound_step hs hstep) (sound_begins hs)
    (stepsMeet_of_forall (C := fun _ _ => True) fun _ _ _ => trivial) h

/-- Room for two pages. -/
def twoSlots : Vhand :=
  ⟨2, [], fun _ => ⟨0, 0⟩, 0, id, fun _ => false, none, [], false⟩

/-- A list that is written in the middle of a region, with room for one page of the two. -/
def somePass : List VhandEvent :=
  [.regoldest 5, .addspg 10 ⟨none, fun _ => false⟩, .collected,
    .regoldest 6, .addspg 20 ⟨some 1, fun _ => false⟩, .addspg 21 ⟨none, fun _ => false⟩, .collected,
    .ending true ⟨none, fun _ => false⟩]

theorem vhand_releases_two : ∃ t, exec step twoSlots somePass = some t ∧ t.Sound ∧
    ∀ e ∈ somePass.getLast?, ∀ tight c, e = .ending tight c → t.Settled := by
  obtain ⟨t, ht⟩ : ∃ t, exec step twoSlots somePass = some t :=
    isSome_iff_exists.mp (by decide +kernel)
  exact ⟨t, ht, vhand_releases ⟨⟨rfl, fun _ => rfl, rfl⟩, rfl, rfl, by decide⟩ ht⟩

end Vhand

end Os
