import OpusSysV.Lib.Run
import Mathlib.Data.List.Count
import Mathlib.Tactic.Ring
import Mathlib.Data.UInt

/-!
# Swap space: `os/swapalloc.c`

A swap file has a use count for every page and a cursor `st_next` from which `swapfind`
searches for consecutive pages with count zero: first from the cursor to the end of the
file, then from the start of the file to the cursor.

* `swapfind`, `swalloc`, `swpinc`, `swfree1` — the routines.  A turn of the `for (;;)` of
  `swalloc` is one event; what `swapclup` says is part of it.
* `swapfind_exact` — a page that `swapfind` returns starts free pages, and `st_nfpgs` counts
  them, after every history; the search misses a run exactly if every run of that length
  lies across the cursor (`straddling_run` is such a history).
-/

namespace Os

open Lib Function List Option

/-- An entry of `swaptab[]` in use; `indel` is `ST_INDEL`, `next` the index that `st_next`
points to.  A use count is an `unsigned char`. -/
structure SwapFile where
  indel : Bool
  ucnt : List UInt8
  next : ℕ
  swplo : ℤ
  nfpgs : ℤ
  deriving DecidableEq

/-- `st_npgs`. -/
def SwapFile.npgs (st : SwapFile) : ℕ := st.ucnt.length

/-- A disk block descriptor of a page on swap. -/
structure Dbd where
  swpi : ℕ
  blkno : ℤ
  deriving DecidableEq, Repr

/-- `MSFILES`. -/
def MSFILES : ℕ := 16

/-- The disk blocks of a page, `1 << DPPSHFT`. -/
def blksPerPage : ℤ := 8

/-! ## `swapfind` -/

/-- The loop over the rest of a run, `n` pages from `p` on: whether all are free, and `p` at
its end. -/
def restFree (ucnt : List UInt8) : ℕ → ℕ → Option (Bool × ℕ)
  | 0, p => some (true, p)
  | n + 1, p =>
    match ucnt[p]? with
    | none => none
    | some c => if c ≠ 0 then some (false, p) else restFree ucnt n (p + 1)

/-- A loop of `swapfind` from `p` to `e`: the run found, and `p` behind it. -/
def findLoop (ucnt : List UInt8) (size : ℕ) (e : ℤ) : ℕ → ℕ → Option (Option (ℕ × ℕ))
  | 0, p => if p ≤ e then none else some none
  | n + 1, p =>
    if p ≤ e then
      match ucnt[p]? with
      | none => none
      | some c =>
        if c = 0 then
          match restFree ucnt (size - 1) (p + 1) with
          | none => none
          | some (true, q) => some (some (p, q))
          | some (false, q) => findLoop ucnt size e n (q + 1)
        else findLoop ucnt size e n (p + 1)
    else some none

/-- `swapfind(st, size)`. -/
def swapfind (st : SwapFile) (size : ℕ) : Option (ℤ × SwapFile) :=
  match findLoop st.ucnt size (st.npgs - size) (st.npgs + 1) st.next with
  | none => none
  | some (some (b, p)) => some (b, { st with next := p })
  | some none =>
    match findLoop st.ucnt size (st.next - size) (st.npgs + 1) 0 with
    | none => none
    | some (some (b, p)) => some (b, { st with next := p })
    | some none => some (-1, { st with next := 0 })

/-! ## The table -/

/-- `swaptab[]`, `nextswap` and the processes that wait for swap space, with `p_mpgneed`. -/
structure SwapTab where
  swaptab : ℕ → Option SwapFile
  nextswap : ℕ
  swapwold : List (ℕ × ℤ)

/-- The search of `swalloc` through the files from `smi` on, back to `start`. -/
def swallocSearch (size start : ℕ) :
    ℕ → ℕ → ℤ → (ℕ → Option SwapFile) → Option (ℤ × ℕ × (ℕ → Option SwapFile))
  | 0, _, _, _ => none
  | n + 1, smi, swappg, tab =>
    let next := fun swappg tab =>
      if (smi + 1) % MSFILES ≠ start then
        swallocSearch size start n ((smi + 1) % MSFILES) swappg tab
      else some (swappg, (smi + 1) % MSFILES, tab)
    match tab smi with
    | none => next swappg tab
    | some st =>
      if st.indel then next swappg tab
      else
        match swapfind st size with
        | none => none
        | some (pg, st) =>
          if pg ≥ 0 then some (pg, smi, update tab smi (some st))
          else next pg (update tab smi (some st))

/-- The use counts of `n` pages from `p` on are set to one. -/
def setOnes : ℕ → ℕ → List UInt8 → Option (List UInt8)
  | 0, _, ucnt => some ucnt
  | n + 1, p, ucnt => if p < ucnt.length then setOnes n (p + 1) (ucnt.set p 1) else none

/-- What a turn of `swalloc` comes to: it returns the first block and has set the descriptors,
it returns -1, it tries again, or it sleeps. -/
inductive Swalloc
  | ok (swappg : ℤ) (dbds : List Dbd)
  | fail
  | again
  | sleep
  deriving DecidableEq

/-- A turn of `swalloc(pglist, size, waitflag)` called by process `p`; `clup` is what
`swapclup` says. -/
def swalloc (firstfit : Bool) (s : SwapTab) (p size : ℕ) (waitflag clup : Bool) :
    Option (Swalloc × SwapTab) :=
  match swallocSearch size s.nextswap MSFILES s.nextswap 0 s.swaptab with
  | none => none
  | some (swappg, smi, tab) =>
    if swappg ≥ 0 then
      match tab smi with
      | none => none
      | some st =>
        match setOnes size swappg.toNat st.ucnt with
        | none => none
        | some ucnt =>
          let blk := st.swplo + swappg * blksPerPage
          some (.ok blk ((List.range size).map fun i => ⟨smi, (blk + i * blksPerPage) % 2 ^ 24⟩),
            { s with
              swaptab := update tab smi
                (some { st with ucnt := ucnt, nfpgs := st.nfpgs - size })
              nextswap := if firstfit then s.nextswap else (smi + 1) % MSFILES })
    else if ¬ waitflag then some (.fail, { s with swaptab := tab })
    else if clup then some (.again, { s with swaptab := tab })
    else some (.sleep, { s with swaptab := tab, swapwold := s.swapwold ++ [(p, (size : ℤ))] })

/-- The file and the page of a descriptor, with its use count. -/
def SwapTab.page (s : SwapTab) (dbd : Dbd) : Option (SwapFile × ℕ × UInt8) :=
  match s.swaptab dbd.swpi with
  | none => none
  | some st =>
    let pg := (dbd.blkno - st.swplo) / blksPerPage
    if pg < 0 then none else (st.ucnt[pg.toNat]?).map fun c => (st, pg.toNat, c)

/-- `swfree1(dbd)`, with its assertion. -/
def swfree1 (s : SwapTab) (dbd : Dbd) : Option (UInt8 × SwapTab) :=
  match s.page dbd with
  | none => none
  | some (st, pg, c) =>
    if c = 0 then none
    else
      let retval := c - 1
      let st := { st with ucnt := st.ucnt.set pg retval }
      if retval = 0 then
        let st := { st with nfpgs := st.nfpgs + 1 }
        let swaptab := update s.swaptab dbd.swpi (some st)
        match s.swapwold with
        | [] => some (retval, { s with swaptab := swaptab })
        | w :: rest =>
          some (retval,
            { s with swaptab := swaptab, swapwold := if w.2 ≤ st.nfpgs then rest else w :: rest })
      else some (retval, { s with swaptab := update s.swaptab dbd.swpi (some st) })

/-- `swpinc(dbd, nm)`; `MAXSUSE` is 255. -/
def swpinc (s : SwapTab) (dbd : Dbd) : Option (Bool × SwapTab) :=
  match s.page dbd with
  | none => none
  | some (st, pg, c) =>
    if c ≥ 255 then some (false, s)
    else some (true, { s with
      swaptab := update s.swaptab dbd.swpi (some { st with ucnt := st.ucnt.set pg (c + 1) }) })

/-- The calls. -/
inductive SwapCall
  | swalloc (p size : ℕ) (waitflag clup : Bool)
  | swpinc (dbd : Dbd)
  | swfree1 (dbd : Dbd)

/-- One call; `swalloc` is asked for a page or more, and a descriptor that is copied or freed
names a page in use. -/
def SwapTab.step (firstfit : Bool) (s : SwapTab) : SwapCall → Option SwapTab
  | .swalloc p size waitflag clup =>
    if size = 0 then none else (Os.swalloc firstfit s p size waitflag clup).map Prod.snd
  | .swpinc dbd =>
    match s.page dbd with
    | none => none
    | some (_, _, c) => if c = 0 then none else (Os.swpinc s dbd).map Prod.snd
  | .swfree1 dbd => (Os.swfree1 s dbd).map Prod.snd

/-! ## What the search finds -/

/-- The `n` pages from `b` on lie in the file and are free. -/
def FreeRun (ucnt : List UInt8) (b n : ℕ) : Prop :=
  b + n ≤ ucnt.length ∧ ∀ i, b ≤ i → i < b + n → ucnt[i]? = some 0

section search

variable {ucnt : List UInt8} {size n p b : ℕ} {e : ℤ} {st : SwapFile}

theorem restFree_spec (h : p + n ≤ ucnt.length) : ∃ ok q, restFree ucnt n p = some (ok, q) ∧
    (ok = true ∧ q = p + n ∧ (∀ i, p ≤ i → i < p + n → ucnt[i]? = some 0) ∨
      ok = false ∧ p ≤ q ∧ q < p + n ∧ ucnt[q]? ≠ some 0) := by
  induction n generalizing p with
  | zero => exact ⟨true, p, rfl, .inl ⟨rfl, rfl, fun i h1 h2 => by omega⟩⟩
  | succ n ih =>
    have hget : ucnt[p]? = some ucnt[p] := List.getElem?_eq_getElem (by omega)
    rw [restFree, hget]
    dsimp only
    split_ifs with hc
    · refine ⟨false, p, rfl, .inr ⟨rfl, le_rfl, by omega, ?_⟩⟩
      rw [hget]
      exact fun h => hc (Option.some.inj h)
    · obtain ⟨ok, q, heq, hq⟩ := @ih (p + 1) (by omega)
      refine ⟨ok, q, heq, ?_⟩
      rcases hq with ⟨hok, hq, hall⟩ | ⟨hok, hle, hlt, hne⟩
      · refine .inl ⟨hok, by omega, fun i h1 h2 => ?_⟩
        by_cases hi : i = p
        · rw [hi, hget, not_not.mp hc]
        · exact hall i (by omega) (by omega)
      · exact .inr ⟨hok, by omega, by omega, hne⟩

/-- **A loop of `swapfind`** finds the first run of free pages that starts from `p` to `e`. -/
theorem findLoop_spec (hsize : 1 ≤ size) (he : e + size ≤ ucnt.length) (hn : e < p + n) :
    ∃ r, findLoop ucnt size e n p = some r ∧
      ((∃ b, r = some (b, b + size) ∧ p ≤ b ∧ b ≤ e ∧ FreeRun ucnt b size) ∨
        (r = none ∧ ∀ b, p ≤ b → (b : ℤ) ≤ e → ¬ FreeRun ucnt b size)) := by
  induction n generalizing p with
  | zero =>
    have hpe : ¬ (p : ℤ) ≤ e := by omega
    exact ⟨none, by rw [findLoop, if_neg hpe], .inr ⟨rfl, fun b h1 h2 => by omega⟩⟩
  | succ n ih =>
    rw [findLoop]
    split_ifs with hpe
    · have hget : ucnt[p]? = some ucnt[p] := List.getElem?_eq_getElem (by omega)
      rw [hget]
      dsimp only
      -- the search goes on from `q + 1`, since no run from `p` to `q` goes past `q`
      have hgo : ∀ q, p ≤ q → ucnt[q]? ≠ some 0 → q < p + size →
          ∃ r, findLoop ucnt size e n (q + 1) = some r ∧
            ((∃ b, r = some (b, b + size) ∧ p ≤ b ∧ b ≤ e ∧ FreeRun ucnt b size) ∨
              (r = none ∧ ∀ b, p ≤ b → (b : ℤ) ≤ e → ¬ FreeRun ucnt b size)) := by
        intro q hpq hq hlt
        obtain ⟨r, heq, hr⟩ := @ih (q + 1) (by omega)
        refine ⟨r, heq, ?_⟩
        rcases hr with ⟨b, hb, hle, hbe, hrun⟩ | ⟨hnone, hall⟩
        · exact .inl ⟨b, hb, by omega, hbe, hrun⟩
        · refine .inr ⟨hnone, fun b h1 h2 hrun => ?_⟩
          by_cases hbq : b ≤ q
          · exact hq (hrun.2 q hbq (by omega))
          · exact hall b (by omega) h2 hrun
      by_cases hc : ucnt[p] = 0
      · rw [if_pos hc]
        obtain ⟨ok, q, heq, hq⟩ := @restFree_spec ucnt (size - 1) (p + 1) (by omega)
        rw [heq]
        rcases hq with ⟨rfl, rfl, hall⟩ | ⟨rfl, hle, hlt, hne⟩
        · refine ⟨_, rfl, .inl ⟨p, ?_, le_rfl, hpe, by omega, fun i h1 h2 => ?_⟩⟩
          · rw [show p + 1 + (size - 1) = p + size by omega]
          · by_cases hi : i = p
            · rw [hi, hget, hc]
            · exact hall i (by omega) (by omega)
        · exact hgo q (by omega) hne (by omega)
      · rw [if_neg hc]
        refine hgo p le_rfl ?_ (by omega)
        rw [hget]
        exact fun h => hc (Option.some.inj h)
    · exact ⟨none, rfl, .inr ⟨rfl, fun b h1 h2 => by omega⟩⟩

/-- **What `swapfind` returns**: the start of a run that the cursor does not cut, or -1 where it
cuts every run. -/
theorem swapfind_spec (hsize : 1 ≤ size) (hnext : st.next ≤ st.npgs) :
    ∃ r st', swapfind st size = some (r, st') ∧
      ((∃ b : ℕ, r = b ∧ FreeRun st.ucnt b size ∧ (st.next ≤ b ∨ b + size ≤ st.next) ∧
          st' = { st with next := b + size }) ∨
        (r = -1 ∧ st' = { st with next := 0 } ∧
          ∀ b, FreeRun st.ucnt b size → b < st.next ∧ st.next < b + size)) := by
  have hlen : (st.npgs : ℤ) - size + size ≤ st.ucnt.length := by
    show (st.ucnt.length : ℤ) - size + size ≤ st.ucnt.length
    omega
  have hlen' : (st.next : ℤ) - size + size ≤ st.ucnt.length := by
    have : st.next ≤ st.ucnt.length := hnext
    omega
  unfold swapfind
  obtain ⟨r, heq, hr⟩ := @findLoop_spec st.ucnt size (st.npgs + 1) st.next _ hsize hlen (by omega)
  rw [heq]
  rcases hr with ⟨b, rfl, hge, -, hrun⟩ | ⟨rfl, hhigh⟩
  · exact ⟨_, _, rfl, .inl ⟨b, rfl, hrun, .inl hge, rfl⟩⟩
  dsimp only
  obtain ⟨r, heq, hr⟩ := @findLoop_spec st.ucnt size (st.npgs + 1) 0 _ hsize hlen' (by omega)
  rw [heq]
  rcases hr with ⟨b, rfl, -, hle, hrun⟩ | ⟨rfl, hlow⟩
  · exact ⟨_, _, rfl, .inl ⟨b, rfl, hrun, .inr (by omega), rfl⟩⟩
  · refine ⟨_, _, rfl, .inr ⟨rfl, rfl, fun b hrun => ⟨?_, ?_⟩⟩⟩
    · by_contra hge
      have hin : b + size ≤ st.npgs := hrun.1
      exact hhigh b (by omega) (by omega) hrun
    · by_contra hge
      exact hlow b (Nat.zero_le b) (by omega) hrun

end search

/-! ## The counts -/

/-- `st_nfpgs` counts the pages with use count zero, and the cursor is in the file or at its
end. -/
structure FileOk (st : SwapFile) : Prop where
  nfpgs_eq : st.nfpgs = st.ucnt.count 0
  next_le : st.next ≤ st.npgs

/-- The files of a table; one of them is not being deleted. -/
structure FilesOk (tab : ℕ → Option SwapFile) : Prop where
  file : ∀ smi st, tab smi = some st → FileOk st
  usable : ∃ smi, smi < MSFILES ∧ ∃ st, tab smi = some st ∧ st.indel = false

section counts

variable {ucnt : List UInt8} {size n p smi : ℕ} {st st' : SwapFile} {c d : UInt8}
variable {tab : ℕ → Option SwapFile} {s t : SwapTab} {firstfit : Bool}

theorem count_zero_set (h : ucnt[p]? = some c) :
    (ucnt.set p d).count 0 + (if c = 0 then 1 else 0) =
      ucnt.count 0 + (if d = 0 then 1 else 0) := by
  induction ucnt generalizing p with
  | nil => cases h
  | cons x ucnt ih =>
    cases p with
    | zero =>
      cases h
      rw [set_cons_zero, count_cons, count_cons]
      simp only [beq_iff_eq]
      omega
    | succ p =>
      have hrec := ih h
      rw [set_cons_succ, count_cons, count_cons]
      omega

/-- The pages of a run that is allocated are no longer counted as free. -/
theorem setOnes_spec (h : FreeRun ucnt p n) : ∃ u, setOnes n p ucnt = some u ∧
    u.length = ucnt.length ∧ u.count 0 + n = ucnt.count 0 := by
  induction n generalizing p ucnt with
  | zero => exact ⟨ucnt, rfl, rfl, rfl⟩
  | succ n ih =>
    have hp : p < ucnt.length := by
      have := h.1
      omega
    have hset := @count_zero_set ucnt p 0 1 (h.2 p le_rfl (by omega))
    rw [if_pos rfl, if_neg (by decide)] at hset
    have hrun : FreeRun (ucnt.set p 1) (p + 1) n := by
      refine ⟨?_, fun i h1 h2 => ?_⟩
      · rw [length_set]
        have := h.1
        omega
      · rw [List.getElem?_set_ne (by omega)]
        exact h.2 i (by omega) (by omega)
    obtain ⟨u, heq, hlen, hcount⟩ := ih hrun
    refine ⟨u, ?_, by rw [hlen, length_set], by omega⟩
    rw [setOnes, if_pos hp, heq]

theorem FilesOk.update (hok : FilesOk tab) (hst : tab smi = some st)
    (hindel : st'.indel = st.indel) (hst' : FileOk st') :
    FilesOk (Function.update tab smi (some st')) := by
  refine ⟨fun i x hx => ?_, ?_⟩
  · rw [update_apply] at hx
    split_ifs at hx with hi
    · cases hx
      exact hst'
    · exact hok.file i x hx
  · obtain ⟨i, hlt, x, hx, hdel⟩ := hok.usable
    refine ⟨i, hlt, ?_⟩
    by_cases hi : i = smi
    · rw [hi] at hx ⊢
      rw [hst] at hx
      cases hx
      exact ⟨st', update_self .., by rw [hindel, hdel]⟩
    · exact ⟨x, by rw [update_of_ne hi, hx], hdel⟩

/-- What `swalloc`, `swpinc` and `swfree1` leave alone in a file. -/
def SwapFile.key (st : SwapFile) : Bool × ℤ × ℕ := (st.indel, st.swplo, st.npgs)

/-- The two tables have the same files in use. -/
def Alike (tab tab' : ℕ → Option SwapFile) : Prop :=
  ∀ smi, (tab' smi).map SwapFile.key = (tab smi).map SwapFile.key

theorem Alike.refl (tab : ℕ → Option SwapFile) : Alike tab tab := fun _ => rfl

theorem Alike.trans {tab' tab'' : ℕ → Option SwapFile} (h : Alike tab tab')
    (h' : Alike tab' tab'') : Alike tab tab'' := fun smi => (h' smi).trans (h smi)

theorem Alike.update (hst : tab smi = some st) (hkey : st'.key = st.key) :
    Alike tab (Function.update tab smi (some st')) := by
  intro i
  rw [update_apply]
  split_ifs with hi
  · rw [hi, hst, map_some, map_some, hkey]
  · rfl

/-- Where the search of `swalloc` ends: no file has the pages, or the file it stopped at is not
being deleted and has a run of them.  The search is not over before a file that can be used was
seen. -/
theorem swallocSearch_spec {start j : ℕ} {pg : ℤ} (hsize : 1 ≤ size) (hstart : start < MSFILES)
    (hj : j < MSFILES) (hn : j + n = MSFILES) (hok : FilesOk tab)
    (hseen : pg < 0 ∨ ∃ i, j ≤ i ∧ i < MSFILES ∧
      ∃ st, tab ((start + i) % MSFILES) = some st ∧ st.indel = false) :
    ∃ r smi tab', swallocSearch size start n ((start + j) % MSFILES) pg tab =
        some (r, smi, tab') ∧ FilesOk tab' ∧ Alike tab tab' ∧
      (r < 0 ∨ ∃ b : ℕ, r = b ∧ ∃ st, tab' smi = some st ∧ st.indel = false ∧
        FreeRun st.ucnt b size) := by
  induction n generalizing j pg tab with
  | zero => omega
  | succ n ih =>
    -- the search goes on with the next file, unless it is back at the start
    have hgo : ∀ pg' tab', FilesOk tab' → Alike tab tab' →
        (pg' < 0 ∨ ∃ i, j + 1 ≤ i ∧ i < MSFILES ∧
          ∃ st, tab' ((start + i) % MSFILES) = some st ∧ st.indel = false) →
        ∃ r smi tab'', (if ((start + j) % MSFILES + 1) % MSFILES ≠ start then
            swallocSearch size start n (((start + j) % MSFILES + 1) % MSFILES) pg' tab'
          else some (pg', ((start + j) % MSFILES + 1) % MSFILES, tab')) = some (r, smi, tab'') ∧
          FilesOk tab'' ∧ Alike tab tab'' ∧
          (r < 0 ∨ ∃ b : ℕ, r = b ∧ ∃ st, tab'' smi = some st ∧ st.indel = false ∧
            FreeRun st.ucnt b size) := by
      intro pg' tab' hok' halike hseen'
      have hmod : ((start + j) % MSFILES + 1) % MSFILES = (start + (j + 1)) % MSFILES := by
        rw [Nat.mod_add_mod, Nat.add_assoc]
      rw [hmod]
      by_cases hlast : j + 1 < MSFILES
      · rw [if_pos (by unfold MSFILES at *; omega)]
        obtain ⟨r, smi, tab'', heq, hfiles, halike', hr⟩ := ih hlast (by omega) hok' hseen'
        exact ⟨r, smi, tab'', heq, hfiles, halike.trans halike', hr⟩
      · rw [if_neg (by unfold MSFILES at *; omega)]
        refine ⟨_, _, _, rfl, hok', halike, .inl ?_⟩
        rcases hseen' with hneg | ⟨i, h1, h2, -⟩
        · exact hneg
        · omega
    -- a file that is passed over was none that can be used
    have hpass : (∀ st, tab ((start + j) % MSFILES) = some st → st.indel = true) →
        pg < 0 ∨ ∃ i, j + 1 ≤ i ∧ i < MSFILES ∧
          ∃ st, tab ((start + i) % MSFILES) = some st ∧ st.indel = false := by
      intro hdel
      rcases hseen with hneg | ⟨i, h1, h2, st, hst, hfalse⟩
      · exact .inl hneg
      · by_cases hi : i = j
        · rw [hi] at hst
          rw [hdel st hst] at hfalse
          cases hfalse
        · exact .inr ⟨i, by omega, h2, st, hst, hfalse⟩
    rw [swallocSearch]
    dsimp only
    cases hst : tab ((start + j) % MSFILES) with
    | none =>
      refine hgo pg tab hok (.refl tab) (hpass fun st h => ?_)
      rw [hst] at h
      cases h
    | some st =>
      dsimp only
      cases hdel : st.indel with
      | true =>
        rw [if_pos rfl]
        refine hgo pg tab hok (.refl tab) (hpass fun x h => ?_)
        rw [hst] at h
        cases h
        exact hdel
      | false =>
        rw [if_neg Bool.false_ne_true]
        have hfile := hok.file _ st hst
        obtain ⟨r, st', heq, hr⟩ := @swapfind_spec size st hsize hfile.next_le
        rw [heq]
        dsimp only
        rcases hr with ⟨b, rfl, hrun, -, rfl⟩ | ⟨rfl, rfl, -⟩
        · rw [if_pos (by omega)]
          refine ⟨_, _, _, rfl, hok.update hst ?_ ⟨hfile.nfpgs_eq, hrun.1⟩, .update hst rfl,
            .inr ⟨b, rfl, ?_⟩⟩
          · exact rfl
          · exact ⟨_, update_self .., hdel, hrun⟩
        · rw [if_neg (by omega)]
          exact hgo _ _ (hok.update hst rfl ⟨hfile.nfpgs_eq, Nat.zero_le _⟩) (.update hst rfl)
            (.inl (by omega))

/-! ## Every history -/

/-- What every call keeps. -/
structure TabOk (s : SwapTab) : Prop where
  files : FilesOk s.swaptab
  nextswap_lt : s.nextswap < MSFILES

/-- The files as `swapadd` leaves them, in every entry of the table that is in use. -/
structure Fresh (s : SwapTab) : Prop where
  file : ∀ smi st, s.swaptab smi = some st →
    st.ucnt = List.replicate st.npgs 0 ∧ st.next = 0 ∧ st.nfpgs = st.npgs
  usable : ∃ smi, smi < MSFILES ∧ ∃ st, s.swaptab smi = some st ∧ st.indel = false
  nextswap_lt : s.nextswap < MSFILES

theorem Fresh.tabOk (hs : Fresh s) : TabOk s := by
  refine ⟨⟨fun smi st hst => ?_, hs.usable⟩, hs.nextswap_lt⟩
  obtain ⟨hucnt, hnext, hnfpgs⟩ := hs.file smi st hst
  refine ⟨?_, by omega⟩
  rw [hnfpgs, hucnt, count_replicate_self]

/-- **What `swalloc` does**: the same files stay in use, and the pages are of one that is not
being deleted. -/
theorem swalloc_spec {w : Swalloc} {p : ℕ} {waitflag clup : Bool} (hsize : 1 ≤ size)
    (hs : TabOk s) (ht : swalloc firstfit s p size waitflag clup = some (w, t)) :
    TabOk t ∧ Alike s.swaptab t.swaptab ∧ ∀ blk dbds, w = .ok blk dbds → ∀ dbd ∈ dbds,
      ∃ st, s.swaptab dbd.swpi = some st ∧ st.indel = false := by
  obtain ⟨i, hi, hseen⟩ := hs.files.usable
  have hnext := hs.nextswap_lt
  have hmod : (s.nextswap + (i + MSFILES - s.nextswap) % MSFILES) % MSFILES = i := by
    unfold MSFILES at *
    omega
  obtain ⟨r, smi, tab, heq, hok, halike, hr⟩ :=
    @swallocSearch_spec size MSFILES s.swaptab s.nextswap 0 0 hsize hnext (by decide) rfl hs.files
      (.inr ⟨_, Nat.zero_le _, Nat.mod_lt _ (by decide), by rw [hmod]; exact hseen⟩)
  rw [Nat.add_zero, Nat.mod_eq_of_lt hnext] at heq
  unfold swalloc at ht
  rw [heq] at ht
  dsimp only at ht
  rcases hr with hneg | ⟨b, rfl, st, hst, hdel, hrun⟩
  · rw [if_neg (by omega)] at ht
    split at ht
    · cases ht
      exact ⟨⟨hok, hnext⟩, halike, fun _ _ h => nomatch h⟩
    · by_cases hc : clup = true
      · rw [if_pos hc] at ht
        cases ht
        exact ⟨⟨hok, hnext⟩, halike, fun _ _ h => nomatch h⟩
      · rw [if_neg hc] at ht
        cases ht
        exact ⟨⟨hok, hnext⟩, halike, fun _ _ h => nomatch h⟩
  · rw [if_pos (by omega), hst] at ht
    dsimp only at ht
    obtain ⟨u, hu, hlen, hcount⟩ := setOnes_spec hrun
    rw [Int.toNat_natCast, hu] at ht
    cases ht
    have hfile := hok.file smi st hst
    refine ⟨⟨hok.update hst rfl ⟨?_, ?_⟩, ?_⟩, halike.trans (.update hst ?_), ?_⟩
    · show st.nfpgs - size = u.count 0
      have := hfile.nfpgs_eq
      omega
    · show st.next ≤ u.length
      rw [hlen]
      exact hfile.next_le
    · show (if firstfit = true then s.nextswap else (smi + 1) % MSFILES) < MSFILES
      split_ifs
      · exact hnext
      · exact Nat.mod_lt _ (by decide)
    · show (st.indel, st.swplo, u.length) = (st.indel, st.swplo, st.ucnt.length)
      rw [hlen]
    · rintro blk dbds heq dbd hdbd
      cases heq
      obtain ⟨i, -, rfl⟩ := mem_map.mp hdbd
      have hkey := halike smi
      rw [hst] at hkey
      obtain ⟨st', hst', hkey'⟩ := map_eq_some_iff.mp hkey.symm
      exact ⟨st', hst', (congrArg Prod.fst hkey').trans hdel⟩

theorem page_spec {dbd : Dbd} {pg : ℕ} (h : s.page dbd = some (st, pg, c)) :
    s.swaptab dbd.swpi = some st ∧ st.ucnt[pg]? = some c := by
  unfold SwapTab.page at h
  cases hst : s.swaptab dbd.swpi with
  | none =>
    rw [hst] at h
    cases h
  | some x =>
    rw [hst] at h
    dsimp only at h
    split at h
    · cases h
    · obtain ⟨d, hd, heq⟩ := map_eq_some_iff.mp h
      cases heq
      exact ⟨rfl, hd⟩

/-- One use count changes, and `st_nfpgs` with it. -/
theorem FileOk.set {pg : ℕ} {nfpgs : ℤ} (hst : FileOk st) (hc : st.ucnt[pg]? = some c)
    (hn : nfpgs + (if c = 0 then 1 else 0) = st.nfpgs + (if d = 0 then 1 else 0)) :
    FileOk { st with ucnt := st.ucnt.set pg d, nfpgs := nfpgs } := by
  refine ⟨?_, ?_⟩
  · show nfpgs = (st.ucnt.set pg d).count 0
    have hcount := @count_zero_set st.ucnt pg c d hc
    have := hst.nfpgs_eq
    by_cases h0 : c = 0 <;> by_cases h1 : d = 0 <;> simp only [h0, h1, if_true, if_false] at * <;>
      omega
  · show st.next ≤ (st.ucnt.set pg d).length
    rw [length_set]
    exact hst.next_le

theorem key_set (st : SwapFile) {pg : ℕ} {nfpgs : ℤ} :
    SwapFile.key { st with ucnt := st.ucnt.set pg c, nfpgs := nfpgs } = st.key := by
  show (st.indel, st.swplo, (st.ucnt.set pg c).length) = (st.indel, st.swplo, st.ucnt.length)
  rw [length_set]

theorem swpinc_tabOk {dbd : Dbd} {ok : Bool} {pg : ℕ} (hs : TabOk s)
    (hpage : s.page dbd = some (st, pg, c)) (hc : c ≠ 0) (ht : swpinc s dbd = some (ok, t)) :
    TabOk t ∧ Alike s.swaptab t.swaptab := by
  obtain ⟨hst, hget⟩ := page_spec hpage
  unfold swpinc at ht
  rw [hpage] at ht
  dsimp only at ht
  split_ifs at ht with hmax
  · cases ht
    exact ⟨hs, .refl _⟩
  · cases ht
    -- a count below `MAXSUSE` does not wrap around
    have hne : c + 1 ≠ 0 := by
      intro h
      have := congrArg UInt8.toNat h
      have hlt : c.toNat < 255 := by
        have : ¬ (255 : UInt8).toNat ≤ c.toNat := hmax
        simpa using this
      rw [UInt8.toNat_add] at this
      simp at this
      omega
    refine ⟨⟨hs.files.update hst rfl ?_, hs.nextswap_lt⟩, .update hst (key_set st)⟩
    exact FileOk.set (hs.files.file _ _ hst) hget (by rw [if_neg hc, if_neg hne])

theorem swfree1_tabOk {dbd : Dbd} {ret : UInt8} (hs : TabOk s)
    (ht : swfree1 s dbd = some (ret, t)) : TabOk t ∧ Alike s.swaptab t.swaptab := by
  unfold swfree1 at ht
  cases hpage : s.page dbd with
  | none =>
    rw [hpage] at ht
    cases ht
  | some q =>
    obtain ⟨st, pg, c⟩ := q
    obtain ⟨hst, hget⟩ := page_spec hpage
    have hfile := hs.files.file _ _ hst
    rw [hpage] at ht
    dsimp only at ht
    by_cases hc : c = 0
    · rw [if_pos hc] at ht
      cases ht
    rw [if_neg hc] at ht
    split_ifs at ht with hret
    · have hok : FilesOk (update s.swaptab dbd.swpi
          (some { st with ucnt := st.ucnt.set pg (c - 1), nfpgs := st.nfpgs + 1 })) :=
        hs.files.update hst rfl
          (FileOk.set hfile hget (by rw [if_neg hc, if_pos hret, Int.add_zero]))
      cases hw : s.swapwold with
      | nil =>
        rw [hw] at ht
        cases ht
        exact ⟨⟨hok, hs.nextswap_lt⟩, .update hst (key_set st)⟩
      | cons w rest =>
        rw [hw] at ht
        cases ht
        exact ⟨⟨hok, hs.nextswap_lt⟩, .update hst (key_set st)⟩
    · cases ht
      refine ⟨⟨hs.files.update hst rfl ?_, hs.nextswap_lt⟩, .update hst (key_set st)⟩
      exact FileOk.set hfile hget (by rw [if_neg hc, if_neg hret])

/-- What one call keeps. -/
theorem step_tabOk {call : SwapCall} (hs : TabOk s) (ht : s.step firstfit call = some t) :
    TabOk t ∧ Alike s.swaptab t.swaptab := by
  cases call with
  | swalloc p size waitflag clup =>
    unfold SwapTab.step at ht
    dsimp only at ht
    split at ht
    · cases ht
    · obtain ⟨⟨w, u⟩, hu, rfl⟩ := map_eq_some_iff.mp ht
      obtain ⟨hok, halike, -⟩ := swalloc_spec (by omega) hs hu
      exact ⟨hok, halike⟩
  | swpinc dbd =>
    unfold SwapTab.step at ht
    dsimp only at ht
    cases hpage : s.page dbd with
    | none =>
      rw [hpage] at ht
      cases ht
    | some q =>
      obtain ⟨st, pg, c⟩ := q
      rw [hpage] at ht
      dsimp only at ht
      by_cases hc : c = 0
      · rw [if_pos hc] at ht
        cases ht
      · rw [if_neg hc] at ht
        obtain ⟨⟨ok, u⟩, hu, rfl⟩ := map_eq_some_iff.mp ht
        exact swpinc_tabOk hs hpage hc hu
  | swfree1 dbd =>
    obtain ⟨⟨ret, u⟩, hu, rfl⟩ := map_eq_some_iff.mp ht
    exact swfree1_tabOk hs hu

/-- **Swap space search.**  After every history, `st_nfpgs` is the number of free pages, and a
page that `swapfind` returns starts `size` of them.  It returns -1 only where no such run
exists if and only if there is none, or one that the cursor does not cut. -/
theorem swapfind_exact {calls : List SwapCall} (hs : Fresh s)
    (ht : exec (SwapTab.step firstfit) s calls = some t) (hst : t.swaptab smi = some st) :
    st.nfpgs = st.ucnt.count 0 ∧
      ∀ size, 1 ≤ size → size ≤ st.npgs → ∃ r st', swapfind st size = some (r, st') ∧
        (r ≠ -1 → ∃ b : ℕ, r = b ∧ FreeRun st.ucnt b size) ∧
        ((r = -1 → ∀ b, ¬ FreeRun st.ucnt b size) ↔
          ((∀ b, ¬ FreeRun st.ucnt b size) ∨
            ∃ b, FreeRun st.ucnt b size ∧ (st.next ≤ b ∨ b + size ≤ st.next))) := by
  have hok : TabOk t := exec_invariant' (fun _ _ _ hs ht => (step_tabOk hs ht).1) hs.tabOk ht
  have hfile := hok.files.file smi st hst
  refine ⟨hfile.nfpgs_eq, fun size hsize _ => ?_⟩
  obtain ⟨r, st', heq, hr⟩ := @swapfind_spec size st hsize hfile.next_le
  refine ⟨r, st', heq, ?_, ?_⟩
  · intro hne
    rcases hr with ⟨b, hb, hrun, -, -⟩ | ⟨hneg, -⟩
    · exact ⟨b, hb, hrun⟩
    · exact absurd hneg hne
  · constructor
    · intro hcomplete
      rcases hr with ⟨b, -, hrun, hside, -⟩ | ⟨hneg, -, -⟩
      · exact .inr ⟨b, hrun, hside⟩
      · exact .inl (hcomplete hneg)
    · rintro (hnone | ⟨b, hrun, hside⟩) hneg
      · exact hnone
      · rcases hr with ⟨b', hb', -⟩ | ⟨-, -, hcut⟩
        · omega
        · have := hcut b hrun
          omega

/-- A swap file of `n` pages, alone in the table. -/
def oneFile (n : ℕ) : SwapTab where
  swaptab smi := if smi = 0 then some ⟨false, List.replicate n 0, 0, 0, n⟩ else none
  nextswap := 0
  swapwold := []

theorem oneFile_fresh (n : ℕ) : Fresh (oneFile n) := by
  refine ⟨fun smi st hst => ?_, ⟨0, by decide, _, rfl, rfl⟩, Nat.zero_lt_succ 15⟩
  unfold oneFile at hst
  dsimp only at hst
  split at hst
  · cases hst
    simp [SwapFile.npgs]
  · cases hst

/-- Three of four pages are allocated and the last of the three is freed. -/
def straddle : List SwapCall := [.swalloc 1 3 false false, .swfree1 ⟨0, 16⟩]

/-- The file that is left: the cursor is between the two free pages. -/
theorem straddle_run : (exec (SwapTab.step false) (oneFile 4) straddle).map (·.swaptab 0) =
    some (some ⟨false, [1, 1, 0, 0], 3, 0, 2⟩) := by
  decide

end counts

/-- Two consecutive pages are free, and `swapfind` finds no two. -/
theorem straddling_run : Fresh (oneFile 4) ∧
    ∃ t st, exec (SwapTab.step false) (oneFile 4) straddle = some t ∧ t.swaptab 0 = some st ∧
      FreeRun st.ucnt 2 2 ∧ (swapfind st 2).map Prod.fst = some (-1) := by
  obtain ⟨t, ht, hst⟩ := map_eq_some_iff.mp straddle_run
  exact ⟨oneFile_fresh 4, t, _, ht, hst, ⟨by decide, by decide⟩, by decide⟩

/-- The counts after that history. -/
theorem swapfind_exact_straddle : ∃ t st, exec (SwapTab.step false) (oneFile 4) straddle = some t ∧
    t.swaptab 0 = some st ∧ st.nfpgs = st.ucnt.count 0 := by
  obtain ⟨t, ht, hst⟩ := map_eq_some_iff.mp straddle_run
  exact ⟨t, _, ht, hst, (swapfind_exact (oneFile_fresh 4) ht hst).1⟩

end Os
